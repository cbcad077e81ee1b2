import ProtoWasm.Proofs.Body.Evaluation

/-! # Decoding with and without a graph

Erasure forgets what only a graph needs: the nodes of expressions and joins, and all that an
environment holds besides how control gets there. Decoding commutes with erasure opcode by opcode, so
a body is checked and built with the same outcome.
-/
namespace ProtoWasm

open List

namespace Tree

mutual

def erase : Tree → Tree
  | missing => missing
  | expr op t o _ cs => expr op t o noNode (eraseAll cs)

def eraseAll : List Tree → List Tree
  | [] => []
  | t :: ts => erase t :: eraseAll ts

end

theorem eraseAll_eq_map (ts : List Tree) : eraseAll ts = ts.map erase := by
  induction ts with
  | nil => rfl
  | cons t ts ih => simp only [eraseAll, map_cons, ih]

@[simp] theorem erase_opcode (t : Tree) : t.erase.opcode = t.opcode := by cases t <;> rfl

@[simp] theorem erase_type (t : Tree) : t.erase.type = t.type := by cases t <;> rfl

@[simp] theorem erase_offset (t : Tree) : t.erase.offset = t.offset := by cases t <;> rfl

@[simp] theorem erase_node (t : Tree) : t.erase.node = noNode := by cases t <;> rfl

end Tree

namespace Body

def Env.erase (e : Env) : Env := { reach := e.reach }

def Join.erase (j : Join) : Join := { env := j.env.erase, type := j.type }

def Target.erase : Target → Target
  | .exit j => .exit j.erase
  | .header e => .header e.erase

def Choice.erase (c : Choice) : Choice := ⟨c.otherwise.erase, c.join.erase⟩

def Pending.erase (p : Pending) : Pending := { p with node := noNode, done := p.done.map Tree.erase }

def State.erase (s : State) : State where
  env := s.env.erase
  blocks := s.blocks.map Target.erase
  choices := s.choices.map Choice.erase

def Decoder.erase (d : Decoder) : Decoder :=
  { d with
    stack := d.stack.map Pending.erase
    trees := d.trees.map Tree.erase
    state := d.state.erase }

namespace Env

@[simp] theorem erase_live (e : Env) : e.erase.live = e.live := rfl

@[simp] theorem erase_reach (e : Env) : e.erase.reach = e.reach := rfl

@[simp] theorem erase_split (e : Env) : e.split.erase = e.erase.split := by
  unfold split
  rw [erase_live]
  split <;> rfl

@[simp] theorem erase_vacate (e : Env) : e.vacate.erase = e.erase.vacate := by
  unfold vacate
  rw [erase_live]
  split <;> rfl

@[simp] theorem erase_setControl (e : Env) (n : NodeId) : (e.setControl n).erase = e.erase := rfl

end Env

namespace State

@[simp] theorem erase_graph (s : State) : s.erase.graph = none := rfl

@[simp] theorem erase_env (s : State) : s.erase.env = s.env.erase := rfl

@[simp] theorem erase_building (s : State) : s.erase.building = none := by
  unfold building
  split <;> rfl

@[simp] theorem erase_finishPath (s : State) : s.finishPath.erase = s.erase.finishPath := rfl

@[simp] theorem emit_erase (s : State) (f : Graph → NodeId × Graph) :
    s.erase.emit f = (noNode, s.erase) := by
  unfold emit
  rw [erase_building]

@[simp] theorem emitOn_erase (s : State) (f : Graph.Emitter) :
    s.erase.emitOn f = (noNode, s.erase) := by
  unfold emitOn
  rw [erase_building]

@[simp] theorem emitAt_erase (s : State) (o : Int) (f : Graph.Emitter) :
    s.erase.emitAt o f = (noNode, s.erase) := by
  unfold emitAt
  rw [emitOn_erase]

@[simp] theorem erase_emit (s : State) (f : Graph → NodeId × Graph) : (s.emit f).2.erase = s.erase := by
  unfold emit
  split <;> rfl

@[simp] theorem erase_emitOn (s : State) (f : Graph.Emitter) : (s.emitOn f).2.erase = s.erase := by
  unfold emitOn
  split <;> rfl

@[simp] theorem erase_emitAt (s : State) (o : Int) (f : Graph.Emitter) :
    (s.emitAt o f).2.erase = s.erase := by
  unfold emitAt
  rw [erase_emitOn]

end State

namespace Pending

@[simp] theorem erase_complete (p : Pending) : p.erase.complete = p.complete := by
  simp only [complete, erase, length_map]

theorem erase_length (p : Pending) : p.erase.done.length = p.done.length := length_map _

@[simp] theorem erase_tree (p : Pending) : p.tree.erase = p.erase.tree := by
  simp only [tree, erase, Tree.erase, Tree.eraseAll_eq_map]

end Pending

section Children

variable (p : Pending)

theorem checkLast_erase (t : ValType) : checkLast p.erase t = Tree.erase <$> checkLast p t := by
  unfold checkLast
  simp only [Pending.erase, getLast?_map]
  cases p.done.getLast? with
  | none => rfl
  | some c =>
    simp only [Option.map_some, Tree.erase_type, Tree.erase_opcode, length_map]
    split <;> rfl

theorem lastChild_erase : lastChild p.erase = Tree.erase <$> lastChild p := by
  unfold lastChild
  simp only [Pending.erase, getLast?_map]
  cases p.done.getLast? <;> rfl

theorem child_erase (i : Nat) : child p.erase i = Tree.erase <$> child p i := by
  unfold child
  simp only [Pending.erase, getElem?_map]
  cases p.done[i]? <;> rfl

end Children

section Joining

variable (ctx ctx' : Context) (p : Pending) (s : State)

theorem goTo_erase (types types' : List ValType) (source target : Env) (g : Option Graph) :
    goTo types' source.erase target.erase none =
      (goTo types source target g).map fun r => (r.1.erase, none) := by
  unfold goTo
  rw [Env.erase_live, Env.erase_reach]
  cases source.live with
  | false => rfl
  | true =>
    cases h : target.reach with
    | ended => rfl
    | unreached => rfl
    | once => cases g <;> rfl
    | joined =>
      have he : target.erase = ({ reach := .joined } : Env) := by rw [Env.erase, h]
      cases g with
      | none => simp
      | some g => simp only [he]; rfl

theorem leave_erase (target : Env) : leave ctx' p.erase s.erase target.erase =
      (fun r => (r.1.erase, r.2.erase)) <$> leave ctx p s target := by
  unfold leave
  rw [State.erase_env, State.erase_graph, goTo_erase ctx.types ctx'.types s.env target s.graph]
  cases goTo ctx.types s.env target s.graph with
  | none => rfl
  | some r =>
    simp only [Option.map_some, Env.erase_live]
    by_cases h : s.env.live = true
    · simp only [h, ↓reduceIte]
      rfl
    · simp only [h]
      rfl

theorem bring_erase (j : Join) (value : Tree) : bring ctx' p.erase s.erase j.erase value.erase =
      (fun r => (r.1.erase, r.2.erase)) <$> bring ctx p s j value := by
  unfold bring
  simp only [State.erase_env, Env.erase_live, Tree.erase_type, Join.erase, Env.erase_reach]
  split
  · rfl
  · rw [leave_erase ctx ctx' p s, bind_map_left, map_bind]
    congr 1
    funext r
    by_cases hu : value.type = .unreachable
    · simp only [hu, ↓reduceIte, map_pure]
    by_cases hf : j.env.reach = .unreached
    · simp only [hu, hf, ↓reduceIte, map_pure, Tree.erase_node]
    by_cases ht : value.type = j.type
    · by_cases hv : j.type = .void
      · simp [ht, hv, hf]
      · have hju : j.type ≠ .unreachable := ht ▸ hu
        simp only [hju, hf, ht, hv, ↓reduceIte, ne_eq, not_true_eq_false, State.erase_graph]
        cases r.2.graph <;> rfl
    · simp [hu, hf, ht]

theorem breakTo_erase (depth : Nat) (value : Tree) :
    breakTo ctx' p.erase s.erase depth value.erase = State.erase <$> breakTo ctx p s depth value := by
  unfold breakTo
  simp only [State.erase, getElem?_map]
  cases s.blocks[depth]? with
  | none => rfl
  | some target =>
    cases target with
    | header e =>
      simp only [Option.map_some, Target.erase]
      rw [← State.erase, leave_erase ctx ctx' p s, bind_map_left, map_bind]
      simp only [map_pure, State.erase, map_set, Target.erase]
    | exit j =>
      simp only [Option.map_some, Target.erase]
      rw [← State.erase, bring_erase ctx ctx' p s, bind_map_left, map_bind]
      simp only [map_pure, State.erase, map_set, Target.erase]

theorem branchOn_erase (cond : Tree) : branchOn s.erase cond.erase =
      ((branchOn s cond).1.erase, (branchOn s cond).2.1.erase, (branchOn s cond).2.2.erase) := by
  unfold branchOn
  rw [State.erase_building]
  cases s.building with
  | none => simp only [State.erase_env, Env.erase_split]
  | some g =>
    simp only [State.erase_env, Env.erase_split, Env.erase_setControl]
    rfl

theorem tableCase_erase (entry : Env) (switch switch' : NodeId) (last i : Nat) :
    tableCase entry.erase switch' last i s.erase = (tableCase entry switch last i s).erase := by
  unfold tableCase
  split
  · rfl
  · rw [State.erase_graph]
    cases s.graph with
    | none => simp only [State.erase, Env.erase_split]
    | some g =>
      by_cases h : switch = noNode
      · simp only [h, ↓reduceIte, State.erase, Env.erase_split]
      · simp only [h, ↓reduceIte, State.erase, Env.erase_setControl, Env.erase_split]

theorem branchAll_erase (value : Tree) (entry : Env) (switch switch' : NodeId) (last : Nat)
    (cases : List (Nat × Nat)) :
    branchAll ctx' p.erase value.erase entry.erase switch' last cases s.erase =
      State.erase <$> branchAll ctx p value entry switch last cases s := by
  induction cases generalizing s with
  | nil => rfl
  | cons c rest ih =>
    obtain ⟨depth, i⟩ := c
    simp only [branchAll]
    rw [tableCase_erase s entry switch switch', breakTo_erase ctx ctx' p, bind_map_left, map_bind]
    congr 1
    funext s
    exact ih s

end Joining

section Reduction

variable (ctx ctx' : Context) (p : Pending) (s : State)

def eraseBoth (r : Pending × State) : Pending × State := (r.1.erase, r.2.erase)

theorem closeBlock_erase : closeBlock ctx' p.erase s.erase = eraseBoth <$> closeBlock ctx p s := by
  have hb : s.erase.blocks = s.blocks.map Target.erase := rfl
  unfold closeBlock
  rw [hb]
  cases s.blocks with
  | nil => rfl
  | cons target rest =>
    cases target with
    | header e => rfl
    | exit j =>
      simp only [map_cons, Target.erase]
      rw [lastChild_erase, bind_map_left, map_bind]
      congr 1
      funext t
      rw [bring_erase ctx ctx' p s, bind_map_left, map_bind]
      rfl

theorem openChoice_erase : openChoice p.erase s.erase = State.erase <$> openChoice p s := by
  unfold openChoice
  rw [checkLast_erase, bind_map_left, map_bind]
  congr 1
  funext cond
  rw [branchOn_erase]
  rfl

theorem reduceIf_erase : reduceIf ctx' p.erase s.erase = eraseBoth <$> reduceIf ctx p s := by
  have hc : s.erase.choices = s.choices.map Choice.erase := rfl
  unfold reduceIf
  rw [Pending.erase_length, hc]
  match p.done.length, s.choices with
  | 0, _ => rfl
  | 1, cs =>
    simp only
    rw [openChoice_erase, bind_map_left, map_bind]
    rfl
  | 2, [] => rfl
  | 2, top :: rest =>
    simp only [map_cons, Choice.erase]
    rw [leave_erase ctx ctx' p s, bind_map_left, map_bind]
    rfl
  | n + 3, _ => rfl

theorem reduceIfElse_erase : reduceIfElse ctx' p.erase s.erase = eraseBoth <$> reduceIfElse ctx p s := by
  have hc : s.erase.choices = s.choices.map Choice.erase := rfl
  unfold reduceIfElse
  rw [Pending.erase_length, hc]
  match p.done.length, s.choices with
  | 0, _ => rfl
  | 1, cs =>
    simp only
    rw [openChoice_erase, bind_map_left, map_bind]
    rfl
  | 2, [] => rfl
  | 2, top :: rest | 3, top :: rest =>
    simp only [map_cons, Choice.erase]
    rw [lastChild_erase, bind_map_left, map_bind]
    congr 1
    funext t
    rw [bring_erase ctx ctx' p s, bind_map_left, map_bind]
    rfl
  | 3, [] => rfl
  | n + 4, _ => rfl

theorem selectType_erase : selectType p.erase = Pending.erase <$> selectType p := by
  unfold selectType
  rw [lastChild_erase, bind_map_left, map_bind]
  congr 1
  funext t
  rw [Tree.erase_type]
  split <;> rfl

theorem reduceSelect_erase : reduceSelect p.erase s.erase = eraseBoth <$> reduceSelect p s := by
  have ht : p.erase.type = p.type := rfl
  unfold reduceSelect
  rw [Pending.erase_length, ht]
  match p.done.length with
  | 0 => rfl
  | 1 =>
    simp only
    rw [selectType_erase, bind_map_left, map_bind]
    rfl
  | 2 =>
    simp only
    split
    · rw [selectType_erase, bind_map_left, map_bind]
      rfl
    · rw [checkLast_erase, bind_map_left, map_bind]
      rfl
  | 3 =>
    simp only
    rw [checkLast_erase, bind_map_left, map_bind]
    congr 1
    funext cond
    rw [child_erase, bind_map_left, map_bind]
    congr 1
    funext a
    rw [child_erase, bind_map_left, map_bind]
    congr 1
    funext b
    rw [State.emitOn_erase]
    simp only [map_pure, eraseBoth, State.erase_emitOn]
    rfl
  | n + 4 => rfl

theorem reduceBrIf_erase (depth : Nat) :
    reduceBrIf ctx' p.erase s.erase depth = eraseBoth <$> reduceBrIf ctx p s depth := by
  unfold reduceBrIf
  rw [Pending.erase_complete]
  split
  · rfl
  · rw [checkLast_erase, bind_map_left, map_bind]
    congr 1
    funext cond
    rw [branchOn_erase]
    simp only
    rw [child_erase, bind_map_left, map_bind]
    congr 1
    funext value
    have h := breakTo_erase ctx ctx' p { (branchOn s cond).2.2 with env := (branchOn s cond).1 } depth value
    simp only [State.erase] at h ⊢
    rw [h, bind_map_left, map_bind]
    rfl

theorem reduceBrTable_erase (depths : List Nat) :
    reduceBrTable ctx' p.erase s.erase depths = eraseBoth <$> reduceBrTable ctx p s depths := by
  unfold reduceBrTable
  rw [Pending.erase_complete]
  split
  · rfl
  · rw [checkLast_erase, bind_map_left, map_bind]
    congr 1
    funext key
    rw [child_erase, bind_map_left, map_bind]
    congr 1
    funext value
    simp only [State.emit_erase, ite_self, State.erase_env, ← Env.erase_split]
    generalize hr : (if depths.length ≤ 1 then (noNode, s)
      else s.emit fun g => g.emitSwitch depths.length key.node s.env.split.chain.control) = r
    have he : r.2.erase = s.erase := by
      rw [← hr]
      split
      · rfl
      · exact State.erase_emit s _
    rw [← he, branchAll_erase ctx ctx' p r.2 value s.env.split r.1 noNode, bind_map_left, map_bind]
    rfl

theorem reduceReturn_erase (hb : ctx'.body = ctx.body) :
    reduceReturn ctx' p.erase s.erase = eraseBoth <$> reduceReturn ctx p s := by
  unfold reduceReturn
  rw [hb, Pending.erase_length, map_bind]
  show expectedAt p _ _ >>= _ = _
  congr 1
  funext t
  rw [checkLast_erase, bind_map_left, map_bind]
  congr 1
  funext _
  rw [Pending.erase_complete]
  split
  · rfl
  · rw [State.emitOn_erase]
    simp only [map_pure, eraseBoth, State.erase_finishPath, State.erase_emitOn]

theorem reduceSetLocal_erase (index : Nat) (t : ValType) :
    reduceSetLocal p.erase s.erase index t = eraseBoth <$> reduceSetLocal p s index t := by
  unfold reduceSetLocal
  rw [checkLast_erase, bind_map_left, map_bind]
  congr 1
  funext value
  rw [State.erase_building]
  simp only [map_pure, Tree.erase_node, eraseBoth]
  cases s.building <;> rfl

theorem reduceSetGlobal_erase (index : Nat) :
    reduceSetGlobal p.erase s.erase index = eraseBoth <$> reduceSetGlobal p s index := by
  have ht : p.erase.type = p.type := rfl
  unfold reduceSetGlobal
  rw [ht, checkLast_erase, bind_map_left, map_bind]
  congr 1
  funext value
  rw [State.emitOn_erase]
  simp only [map_pure, Tree.erase_node, eraseBoth, State.erase_emitOn]
  rfl

/-- What the rules have in common that emit one node on the chain for all their operands. -/
theorem emitWhenComplete_erase (f f' : Graph.Emitter) :
    (if (!p.erase.complete) = true then pure (p.erase, s.erase)
      else pure ({ p.erase with node := (s.erase.emitAt p.erase.offset f').1 },
        (s.erase.emitAt p.erase.offset f').2) : Except Failure (Pending × State)) =
    eraseBoth <$> if (!p.complete) = true then pure (p, s)
      else pure ({ p with node := (s.emitAt p.offset f).1 }, (s.emitAt p.offset f).2) := by
  rw [Pending.erase_complete, State.emitAt_erase]
  split
  · rfl
  · simp only [map_pure, eraseBoth, State.erase_emitAt]
    rfl

theorem checkExpected_erase {ts : List ValType} {i : Nat} {k k' : Except Failure (Pending × State)}
    (hk : k' = eraseBoth <$> k) : (do let _ ← checkLast p.erase (← expectedAt p.erase ts i); k') =
      eraseBoth <$> (do let _ ← checkLast p (← expectedAt p ts i); k) := by
  rw [map_bind]
  show expectedAt p ts i >>= _ = _
  congr 1
  funext t
  rw [checkLast_erase, bind_map_left, map_bind, hk]

theorem reduceCall_erase (function : Nat) (sig : FuncType) :
    reduceCall p.erase s.erase function sig = eraseBoth <$> reduceCall p s function sig := by
  have hn : p.erase.done.isEmpty = p.done.isEmpty := by cases h : p.done <;> simp [Pending.erase, h]
  have he := emitWhenComplete_erase p s (fun g c => g.emitCall c function sig (childNodes p))
    fun g c => g.emitCall c function sig (childNodes p.erase)
  unfold reduceCall
  rw [Pending.erase_length, hn]
  cases p.done.isEmpty with
  | false => exact checkExpected_erase p he
  | true => exact he

theorem childNodes_erase : childNodes p.erase = (childNodes p).map fun _ => noNode := by
  simp [childNodes, Pending.erase]

theorem reduceCallIndirect_erase (signature : Nat) (sig : FuncType) :
    reduceCallIndirect p.erase s.erase signature sig =
      eraseBoth <$> reduceCallIndirect p s signature sig := by
  unfold reduceCallIndirect
  rw [Pending.erase_length, childNodes_erase]
  apply checkExpected_erase p
  cases childNodes p with
  | nil =>
    rw [Pending.erase_complete]
    split <;> rfl
  | cons key args =>
    exact emitWhenComplete_erase p s (fun g c => g.emitCallIndirect c signature sig key args)
      fun g c => g.emitCallIndirect c signature sig noNode (args.map fun _ => noNode)

theorem reduceNumeric_erase (sig : FuncType) :
    reduceNumeric p.erase s.erase sig = eraseBoth <$> reduceNumeric p s sig := by
  unfold reduceNumeric
  rw [Pending.erase_length, childNodes_erase]
  apply checkExpected_erase p
  match childNodes p with
  | [] =>
    rw [Pending.erase_complete]
    split <;> rfl
  | [x] =>
    exact emitWhenComplete_erase p s (fun g c => ((g.emitUnop p.opcode x).1, c, (g.emitUnop p.opcode x).2))
      fun g c => ((g.emitUnop p.erase.opcode noNode).1, c, (g.emitUnop p.erase.opcode noNode).2)
  | x :: y :: _ =>
    exact emitWhenComplete_erase p s
      (fun g c => ((g.emitBinop p.opcode x y).1, c, (g.emitBinop p.opcode x y).2))
      fun g c => ((g.emitBinop p.erase.opcode noNode noNode).1, c,
        (g.emitBinop p.erase.opcode noNode noNode).2)

theorem reduceAccess_erase (a : MemoryAccess) (offset : Nat) (ha : a.arity = p.arity) :
    reduceAccess p.erase s.erase a offset = eraseBoth <$> reduceAccess p s a offset := by
  unfold reduceAccess
  rw [Pending.erase_length, checkLast_erase, bind_map_left, map_bind]
  congr 1
  funext t
  rw [Pending.erase_complete, State.erase_building]
  by_cases hc : p.complete = true
  · simp only [hc]
    cases hg : s.building with
    | none => rfl
    | some g =>
      -- a complete access has the children that it asks for, so emitting cannot fail
      have hd : a.arity ≤ p.done.length := by simpa [Pending.complete, ha] using hc
      cases hs : a.store with
      | true =>
        have h2 : 2 ≤ p.done.length := by simpa [MemoryAccess.arity, hs] using hd
        have hi : child p 0 = .ok p.done[0] := child_eq_ok.mpr (getElem?_eq_getElem (by omega))
        have hv : child p 1 = .ok p.done[1] := child_eq_ok.mpr (getElem?_eq_getElem (by omega))
        rw [hi, hv]
        show pure (p.erase, s.erase) = pure (eraseBoth _)
        simp only [eraseBoth, State.erase_emitAt]
        rfl
      | false =>
        have h1 : 1 ≤ p.done.length := by simpa [MemoryAccess.arity, hs] using hd
        have hi : child p 0 = .ok p.done[0] := child_eq_ok.mpr (getElem?_eq_getElem (by omega))
        rw [hi]
        show pure (p.erase, s.erase) = pure (eraseBoth _)
        simp only [eraseBoth, State.erase_emitAt]
        rfl
  · simp only [hc]
    rfl

theorem reduce_erase (hb : ctx'.body = ctx.body) (hp : p.Regular ctx) :
    reduce ctx' p.erase s.erase = eraseBoth <$> reduce ctx p s := by
  have hr : p.erase.rule = p.rule := rfl
  unfold reduce
  rw [hr, Pending.erase_complete]
  match h : p.rule with
  | .block =>
    dsimp only
    split
    · exact closeBlock_erase ctx ctx' p s
    · rfl
  | .loop =>
    dsimp only
    split
    · rw [← closeBlock_erase ctx ctx' p]
      simp only [State.erase, map_drop]
    · rfl
  | .ifThen => exact reduceIf_erase ctx ctx' p s
  | .ifElse => exact reduceIfElse_erase ctx ctx' p s
  | .select => exact reduceSelect_erase p s
  | .br depth =>
    dsimp only
    rw [lastChild_erase, bind_map_left, map_bind]
    congr 1
    funext t
    rw [breakTo_erase ctx ctx' p s, bind_map_left, map_bind]
    rfl
  | .brIf depth => exact reduceBrIf_erase ctx ctx' p s depth
  | .brTable depths => exact reduceBrTable_erase ctx ctx' p s depths
  | .ret => exact reduceReturn_erase ctx ctx' p s hb
  | .setLocal index t => exact reduceSetLocal_erase p s index t
  | .setGlobal index => exact reduceSetGlobal_erase p s index
  | .call function sig => exact reduceCall_erase p s function sig
  | .callIndirect signature sig => exact reduceCallIndirect_erase p s signature sig
  | .growMemory =>
    dsimp only
    rw [checkLast_erase, bind_map_left, map_bind]
    congr 1
    funext delta
    rw [State.emitOn_erase]
    simp only [map_pure, eraseBoth, State.erase_emitOn, Pending.erase, h]
  | .numeric sig => exact reduceNumeric_erase p s sig
  | .access a offset =>
    refine reduceAccess_erase p s a offset ?_
    rw [← hp, Pending.wants, h, MemoryAccess.arity]
    dsimp only
    split <;> rfl

end Reduction

def Entry.erase : Entry → Entry
  | .leaf t s => .leaf t.erase s.erase
  | .wait p s => .wait p.erase s.erase

section Opcodes

variable (ctx ctx' : Context) (s : State)

theorem openBlock_erase (pc : Int) (isLoop : Bool) :
    openBlock ctx' s.erase pc isLoop = (openBlock ctx s pc isLoop).erase := by
  unfold openBlock
  simp only [State.erase_env, ← Env.erase_split, ← Env.erase_vacate, Env.erase_live, State.erase_graph]
  generalize s.env.split = inner
  cases isLoop with
  | false => rfl
  | true =>
    simp only [Bool.not_true, Bool.false_eq_true, if_false]
    by_cases hl : inner.live
    · simp only [hl, Bool.not_true, Bool.false_eq_true, if_false]
      cases s.graph with
      | none => simp only [State.erase, Env.erase_split]; rfl
      | some g => simp only [State.erase, Env.erase_split]; rfl
    · simp only [hl, Bool.not_false, if_true]
      simp only [State.erase, Env.erase_split]; rfl

theorem enter_erase (hb : ctx'.body = ctx.body) (ht : ctx'.types = ctx.types) (x : Instruction) :
    enter ctx' s.erase x = Entry.erase <$> enter ctx s x := by
  have hl : s.erase.blocks.length = s.blocks.length := length_map _
  have fail (e : Failure) : Entry.erase <$> (.error e : Except Failure Entry) = .error e := rfl
  have leaf (t : ValType) (n : NodeId) (s : State) :
      Entry.erase <$> (.ok (.leaf (.expr x.opcode t x.offset n []) s) : Except Failure Entry) =
        .ok (.leaf (.expr x.opcode t x.offset noNode []) s.erase) := rfl
  have wait (rule : Rule) (type : ValType) (arity : Nat) (s : State) :
      Entry.erase <$> (.ok (.wait ⟨x.opcode, x.offset, type, noNode, rule, arity, []⟩ s) :
          Except Failure Entry) =
        .ok (.wait ⟨x.opcode, x.offset, type, noNode, rule, arity, []⟩ s.erase) := rfl
  unfold enter
  simp only [hb, ht, hl, State.emit_erase, State.emitOn_erase, State.emitAt_erase, State.erase_building,
    openBlock_erase ctx ctx' s, Option.isSome_none, Bool.false_eq_true, if_false]
  split <;> (repeat' split) <;>
    simp only [fail, leaf, wait, State.erase_emit, State.erase_emitOn, State.erase_emitAt,
      State.erase_finishPath]

end Opcodes

section Machine

variable (ctx ctx' : Context) (hb : ctx'.body = ctx.body) (ht : ctx'.types = ctx.types)

include hb

theorem attach_erase (stack : List Pending) (s : State) (t : Tree) (hs : ∀ p ∈ stack, p.Regular ctx) :
    attach ctx' (stack.map Pending.erase) s.erase t.erase =
      (fun r => (r.1.map Pending.erase, r.2.1.erase, r.2.2.map Tree.erase)) <$> attach ctx stack s t := by
  induction stack generalizing s t with
  | nil => rfl
  | cons p rest ih =>
    obtain ⟨hp, hrest⟩ := forall_mem_cons.mp hs
    have hq : { p with done := p.done ++ [t] }.Regular ctx := hp
    have he : { p.erase with done := p.erase.done ++ [t.erase] } =
        { p with done := p.done ++ [t] }.erase := by
      simp only [Pending.erase, map_append, map_cons, map_nil]
    simp only [map_cons, attach]
    rw [he, reduce_erase ctx ctx' _ s hb hq, bind_map_left, map_bind]
    congr 1
    ext1 ⟨p₁, s₁⟩
    simp only [eraseBoth, Pending.erase_complete, ← Pending.erase_tree]
    split
    · exact ih s₁ p₁.tree hrest
    · rfl

theorem push_erase (d : Decoder) (s : State) (t : Tree) (hs : ∀ p ∈ d.stack, p.Regular ctx) :
    d.erase.push ctx' s.erase t.erase = Decoder.erase <$> d.push ctx s t := by
  unfold Decoder.push
  rw [map_bind]
  have ha : attach ctx' d.erase.stack s.erase t.erase = _ := attach_erase ctx ctx' hb d.stack s t hs
  rw [ha, bind_map_left]
  congr 1
  funext ⟨stack, s₁, root⟩
  cases root <;> simp [Decoder.erase]

theorem shift_erase (d : Decoder) (s : State) (p : Pending) (hp : p.Regular ctx)
    (hs : ∀ p ∈ d.stack, p.Regular ctx) :
    d.erase.shift ctx' s.erase p.erase = Decoder.erase <$> d.shift ctx s p := by
  have ha : p.erase.arity = p.arity := rfl
  unfold Decoder.shift
  rw [ha]
  split
  · rw [reduce_erase ctx ctx' p s hb hp, bind_map_left, map_bind]
    congr 1
    funext ⟨p₁, s₁⟩
    simp only [eraseBoth, ← Pending.erase_tree]
    exact push_erase ctx ctx' hb d s₁ p₁.tree hs
  · simp only [Decoder.erase, length_map]
    rfl

include ht

theorem advance_erase (d : Decoder) (x : Instruction) (hs : ∀ p ∈ d.stack, p.Regular ctx) :
    advance ctx' d.erase x = Decoder.erase <$> advance ctx d x := by
  unfold advance
  have he : enter ctx' d.erase.state x = _ := enter_erase ctx ctx' d.state hb ht x
  rw [he, bind_map_left, map_bind]
  cases h : enter ctx d.state x with
  | error e => rfl
  | ok e =>
    cases e with
    | leaf t s => exact push_erase ctx ctx' hb d s t hs
    | wait p s => exact shift_erase ctx ctx' hb d s p (begins_of_enter h).regular hs

theorem step_erase (d : Decoder) (x : Instruction) (n : Nat) (hs : ∀ p ∈ d.stack, p.Regular ctx) :
    step ctx' d.erase x n = Decoder.erase <$> step ctx d x n := by
  unfold step
  split
  · rfl
  · exact advance_erase ctx ctx' hb ht d x hs

theorem run_erase (d : Decoder) (i : Input) (hs : ∀ p ∈ d.stack, p.Waiting ctx) :
    run ctx' d.erase i = Decoder.erase <$> run ctx d i := by
  fun_induction run ctx d i with
  | case1 d i hi =>
    rw [run_of_nil hi]
    rfl
  | case2 d i b rest hi op e ho =>
    rw [run_of_cons hi, ho]
    rfl
  | case3 d i b rest hi op ops j ho e he =>
    rw [run_of_cons hi, ho]
    have h : step ctx' { d.erase with opcodes := d.erase.opcodes + 1 } ⟨i.offset, op, ops⟩
        j.remaining = _ :=
      step_erase ctx ctx' hb ht { d with opcodes := d.opcodes + 1 } _ _ fun p hp => (hs p hp).1
    rw [he] at h
    dsimp only
    rw [h]
    rfl
  | case4 d i b rest hi op ops j ho d₁ hd ih =>
    rw [run_of_cons hi, ho]
    have h : step ctx' { d.erase with opcodes := d.erase.opcodes + 1 } ⟨i.offset, op, ops⟩
        j.remaining = _ :=
      step_erase ctx ctx' hb ht { d with opcodes := d.opcodes + 1 } _ _ fun p hp => (hs p hp).1
    rw [hd] at h
    dsimp only
    rw [h]
    have hs' : ∀ p ∈ { d with opcodes := d.opcodes + 1 }.stack, p.Waiting ctx := hs
    have hd := advance_of_step hd
    obtain ⟨e, he, -⟩ := bind_eq_ok.mp hd
    exact ih (advance_demand hs' (arity_of_enter he) hd).1

omit ht in
theorem finish_erase (d : Decoder) : finish ctx' d.erase = Decoder.erase <$> finish ctx d := by
  have hl : d.erase.trees.getLast? = d.trees.getLast?.map Tree.erase := by simp [Decoder.erase]
  have hs : d.erase.state = d.state.erase := rfl
  unfold finish
  rw [hb, hl, hs]
  simp only [State.emitOn_erase, State.erase_env, Env.erase_live]
  obtain ⟨stack, trees, s, opcodes, depth⟩ := d
  cases stack with
  | cons p rest =>
    simp only [Decoder.erase, map_cons, Pending.erase, length_map]
    rfl
  | nil =>
    have he (values : List NodeId) :
        (⟨[], trees, (s.emitOn fun g c => g.emitReturn c values).2, opcodes, depth⟩ : Decoder).erase =
          (⟨[], trees, s, opcodes, depth⟩ : Decoder).erase := by
      simp only [Decoder.erase, State.erase_emitOn]
    simp only [Decoder.erase, map_nil] at he ⊢
    split
    · rfl
    · split
      · exact congrArg Except.ok (he []).symm
      · cases trees.getLast? with
        | none => rfl
        | some last =>
          simp only [Option.map_some, Tree.erase_type, Tree.erase_offset, Tree.erase_opcode]
          split
          · exact congrArg Except.ok (he [last.node]).symm
          · rfl

end Machine

def Result.erase (r : Result) : Result := { r with trees := r.trees.map Tree.erase, graph := none }

/-- The outcome does not depend on the graph that a body is decoded into. -/
theorem decodeWith_erase (b : FunctionBody) (o : Options) (loops : Bool) (g : Graph) :
    decodeWith b o none = Result.erase <$> decodeWith b { o with loopAnalysis := loops } (some g) := by
  have hl : ({ o with loopAnalysis := loops } : Options).localLimit = o.localLimit := rfl
  unfold decodeWith
  dsimp only
  rw [hl]
  split
  · rfl
  · split
    · rfl
    · have hrun : run ⟨b, o.loopAnalysis, b.localTypes⟩ { state := { env := { reach := .once } } }
          b.input = _ :=
        run_erase ⟨b, loops, b.localTypes⟩ ⟨b, o.loopAnalysis, b.localTypes⟩ rfl rfl
          { state := { env := (entryEnv b g).1, graph := some (entryEnv b g).2 } } b.input (forall_mem_nil _)
      rw [hrun, bind_map_left, map_bind]
      congr 1
      funext d
      rw [finish_erase ⟨b, loops, b.localTypes⟩ ⟨b, o.loopAnalysis, b.localTypes⟩ rfl d, bind_map_left,
        map_bind]
      rfl

/-- A body is checked exactly as it is built, whatever loops are given phis for: both fail with the
same error, or both succeed and differ only in the graph and in the nodes of the trees. -/
theorem check_eq_erase_build (b : FunctionBody) (o : Options) (loops : Bool) :
    check b o = Result.erase <$> build b { o with loopAnalysis := loops } :=
  decodeWith_erase b o loops { signature := b.signature }

end Body

end ProtoWasm
