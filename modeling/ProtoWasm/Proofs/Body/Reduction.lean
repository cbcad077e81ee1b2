import Mathlib.Data.List.Basic
import ProtoWasm.Body.Decode

/-! # What a reduction does

Attaching a child to an expression either fails or does one of a few things, according to the rule of
the expression and the number of children it has. They are listed once, with all that was checked, and
what a reduction preserves is proved from the list.
-/
namespace ProtoWasm.Body

open List

variable {ctx : Context} {p p' : Pending} {s s' : State} {t : Tree} {τ : ValType} {sig : FuncType}
  {n i index offset : Nat} {x : Instruction} {d d' : Decoder} {α : Type} {ts : List ValType}
  {depths : List Nat} {a : MemoryAccess}

theorem bind_eq_ok {β : Type} {x : Except Failure α} {f : α → Except Failure β} {b : β} :
    x >>= f = .ok b ↔ ∃ a, x = .ok a ∧ f a = .ok b := by
  cases x with
  | error e => simp [Bind.bind, Except.bind]
  | ok a => simp [Bind.bind, Except.bind]

theorem ok_bind {β : Type} (a : α) (f : α → Except Failure β) : Except.ok a >>= f = f a := rfl

theorem lastChild_eq_ok : lastChild p = .ok t ↔ p.done.getLast? = some t := by
  unfold lastChild
  cases p.done.getLast? <;> simp

theorem checkLast_eq_ok :
    checkLast p τ = .ok t ↔ p.done.getLast? = some t ∧ typeMatches τ t.type = true := by
  unfold checkLast
  cases p.done.getLast? with
  | none => simp
  | some c =>
    simp only [Option.some.injEq]
    split
    · rename_i h
      constructor
      · rintro ⟨⟩
        exact ⟨rfl, h⟩
      · rintro ⟨rfl, _⟩
        rfl
    · rename_i h
      constructor
      · rintro ⟨⟩
      · rintro ⟨rfl, hm⟩
        exact absurd hm h

theorem child_eq_ok : child p i = .ok t ↔ p.done[i]? = some t := by
  unfold child
  cases p.done[i]? <;> simp

theorem expectedAt_eq_ok {t : ValType} : expectedAt p ts i = .ok t ↔ ts[i]? = some t := by
  unfold expectedAt
  cases ts[i]? <;> simp

@[simp] theorem branchOn_blocks (c : Tree) : (branchOn s c).2.2.blocks = s.blocks := by
  unfold branchOn
  split <;> rfl

@[simp] theorem branchOn_choices (c : Tree) : (branchOn s c).2.2.choices = s.choices := by
  unfold branchOn
  split <;> rfl

/-- The types that an expression wants of its children, in order, where it wants one. -/
def Pending.wants (ctx : Context) (p : Pending) : List (Option ValType) :=
  match p.rule with
  | .block | .loop => List.replicate p.arity none
  | .ifThen => [some .i32, none]
  | .ifElse => [some .i32, none, none]
  | .select => [none, none, some .i32]
  | .br _ => [none]
  | .brIf _ | .brTable _ => [none, some .i32]
  | .ret => ctx.body.signature.results.map some
  | .setLocal _ t => [some t]
  | .setGlobal _ => [some p.type]
  | .call _ sig | .numeric sig => sig.params.map some
  | .callIndirect _ sig => some .i32 :: sig.params.map some
  | .growMemory => [some .i32]
  | .access a _ => some .i32 :: if a.store then [some a.type] else []

def Pending.Regular (ctx : Context) (p : Pending) : Prop := (p.wants ctx).length = p.arity

def Pending.LastFits (ctx : Context) (p : Pending) : Prop :=
  ∀ t τ, p.done.getLast? = some t → (p.wants ctx)[p.done.length - 1]? = some (some τ) →
    typeMatches τ t.type = true

/-- The rules that do nothing before their last child but check what is attached. -/
def Rule.patient : Rule → Bool
  | .ifThen | .ifElse | .select => false
  | _ => true

/-- The rules that take operands and give a value. -/
def Rule.plain : Rule → Bool
  | .setLocal _ _ | .setGlobal _ | .call _ _ | .callIndirect _ _ | .growMemory | .numeric _ | .access _ _ =>
    true
  | _ => false

/-- The ways in which a child can be attached. -/
inductive Reduces (ctx : Context) (p : Pending) (s : State) : Pending → State → Prop
  | wait (hr : p.rule.patient = true) (hc : p.complete = false) (hl : p.LastFits ctx) :
    Reduces ctx p s p s
  | closeBlock {j j' : Join} {rest : List Target} {t : Tree} {s' : State} (hr : p.rule = .block)
    (hc : p.complete = true) (hb : s.blocks = .exit j :: rest) (ht : p.done.getLast? = some t)
    (h : bring ctx p s j t = .ok (j', s')) :
    Reduces ctx p s { p with type := j'.type, node := j'.node }
      { s' with env := j'.env, blocks := rest }
  | closeLoop {head : Target} {j j' : Join} {rest : List Target} {t : Tree} {s' : State}
    (hr : p.rule = .loop) (hc : p.complete = true) (hb : s.blocks = head :: .exit j :: rest)
    (ht : p.done.getLast? = some t)
    (h : bring ctx p { s with blocks := .exit j :: rest } j t = .ok (j', s')) :
    Reduces ctx p s { p with type := j'.type, node := j'.node }
      { s' with env := j'.env, blocks := rest }
  | openChoice {t : Tree} (hr : p.rule = .ifThen ∨ p.rule = .ifElse) (hd : p.done = [t])
    (ht : typeMatches .i32 t.type = true) :
    Reduces ctx p s p { (branchOn s t).2.2 with
      env := (branchOn s t).1
      choices := ⟨(branchOn s t).2.1, { env := .unreached }⟩ :: s.choices }
  | closeIf {c t : Tree} {top : Choice} {rest : List Choice} {env : Env} {s' : State}
    (hr : p.rule = .ifThen) (hd : p.done = [c, t]) (hs : s.choices = top :: rest)
    (h : leave ctx p s top.otherwise = .ok (env, s')) :
    Reduces ctx p s p { s' with env, choices := rest }
  | otherwise {c t : Tree} {top : Choice} {rest : List Choice} {j : Join} {s' : State}
    (hr : p.rule = .ifElse) (hd : p.done = [c, t]) (hs : s.choices = top :: rest)
    (h : bring ctx p s top.join t = .ok (j, s')) :
    Reduces ctx p s p
      { s' with env := top.otherwise, choices := ⟨top.otherwise, j⟩ :: rest }
  | closeElse {c t e : Tree} {top : Choice} {rest : List Choice} {j : Join} {s' : State}
    (hr : p.rule = .ifElse) (hd : p.done = [c, t, e]) (hs : s.choices = top :: rest)
    (h : bring ctx p s top.join e = .ok (j, s')) :
    Reduces ctx p s { p with type := j.type, node := j.node } { s' with env := j.env, choices := rest }
  | selectType {t : Tree} (hr : p.rule = .select)
    (hd : p.done.length = 1 ∨ p.done.length = 2 ∧ p.type = .unreachable)
    (ht : p.done.getLast? = some t) (hv : t.type ≠ .void) :
    Reduces ctx p s { p with type := t.type } s
  | selectSame {a b : Tree} (hr : p.rule = .select) (hd : p.done = [a, b])
    (hu : p.type ≠ .unreachable) (ht : typeMatches p.type b.type = true) : Reduces ctx p s p s
  | select {a b c : Tree} (hr : p.rule = .select) (hd : p.done = [a, b, c])
    (ht : typeMatches .i32 c.type = true) :
    Reduces ctx p s
      { p with node := (s.emitOn fun g ch => emitSelect g ch p.type c.node a.node b.node).1 }
      (s.emitOn fun g ch => emitSelect g ch p.type c.node a.node b.node).2
  | br {depth : Nat} {t : Tree} {s' : State} (hr : p.rule = .br depth)
    (ht : p.done.getLast? = some t) (h : breakTo ctx p s depth t = .ok s') : Reduces ctx p s p s'
  | brIf {depth : Nat} {c t : Tree} {s' : State} (hr : p.rule = .brIf depth)
    (hc : p.complete = true) (ht : p.done[0]? = some t) (hd : p.done.getLast? = some c)
    (hm : typeMatches .i32 c.type = true)
    (h : breakTo ctx p { (branchOn s c).2.2 with env := (branchOn s c).1 } depth t = .ok s') :
    Reduces ctx p s p { s' with env := (branchOn s c).2.1 }
  | brTable {depths : List Nat} {k t : Tree} {switch : NodeId} {s₀ s' : State}
    (hr : p.rule = .brTable depths) (hc : p.complete = true) (ht : p.done[0]? = some t)
    (hd : p.done.getLast? = some k) (hm : typeMatches .i32 k.type = true)
    (hs : (switch, s₀) = if depths.length ≤ 1 then (noNode, s)
      else s.emit fun g => g.emitSwitch depths.length k.node s.env.split.chain.control)
    (h : branchAll ctx p t s.env.split switch (depths.length - 1) depths.zipIdx s₀ = .ok s') :
    Reduces ctx p s p s'.finishPath
  | ret (hr : p.rule = .ret) (hc : p.complete = true) (hl : p.LastFits ctx) :
    Reduces ctx p s p (s.emitOn fun g c => g.emitReturn c (childNodes p)).2.finishPath
  | setLocal {index : Nat} {τ : ValType} {t : Tree} (hr : p.rule = .setLocal index τ)
    (hd : p.done.getLast? = some t) (ht : typeMatches τ t.type = true) :
    Reduces ctx p s { p with node := t.node }
      { s with env := match s.building with
        | some _ => { s.env with locals := s.env.locals.set index t.node }
        | none => s.env }
  | setGlobal {index : Nat} {t : Tree} (hr : p.rule = .setGlobal index)
    (hd : p.done.getLast? = some t) (ht : typeMatches p.type t.type = true) :
    Reduces ctx p s { p with node := t.node }
      (s.emitOn fun g c => g.emitStoreGlobal c index t.node).2
  | call {function : Nat} {sig : FuncType} (hr : p.rule = .call function sig)
    (hc : p.complete = true) (hl : p.LastFits ctx) :
    Reduces ctx p s
      { p with node := (s.emitAt p.offset fun g c => g.emitCall c function sig (childNodes p)).1 }
      (s.emitAt p.offset fun g c => g.emitCall c function sig (childNodes p)).2
  | callIndirect {signature : Nat} {sig : FuncType} {key : NodeId} {args : List NodeId}
    (hr : p.rule = .callIndirect signature sig) (hc : p.complete = true) (hl : p.LastFits ctx)
    (hn : childNodes p = key :: args) :
    Reduces ctx p s
      { p with
        node := (s.emitAt p.offset fun g c => g.emitCallIndirect c signature sig key args).1 }
      (s.emitAt p.offset fun g c => g.emitCallIndirect c signature sig key args).2
  | growMemory {t : Tree} (hr : p.rule = .growMemory) (hd : p.done.getLast? = some t)
    (ht : typeMatches .i32 t.type = true) :
    Reduces ctx p s { p with node := (s.emitOn fun g c => g.emitGrowMemory c t.node).1 }
      (s.emitOn fun g c => g.emitGrowMemory c t.node).2
  | unop {sig : FuncType} {x : NodeId} (hr : p.rule = .numeric sig) (hc : p.complete = true)
    (hl : p.LastFits ctx) (hn : childNodes p = [x]) :
    Reduces ctx p s
      { p with node := (s.emitAt p.offset fun g c =>
        ((g.emitUnop p.opcode x).1, c, (g.emitUnop p.opcode x).2)).1 }
      (s.emitAt p.offset fun g c => ((g.emitUnop p.opcode x).1, c, (g.emitUnop p.opcode x).2)).2
  | binop {sig : FuncType} {x y : NodeId} {rest : List NodeId} (hr : p.rule = .numeric sig)
    (hc : p.complete = true) (hl : p.LastFits ctx) (hn : childNodes p = x :: y :: rest) :
    Reduces ctx p s
      { p with node := (s.emitAt p.offset fun g c =>
        ((g.emitBinop p.opcode x y).1, c, (g.emitBinop p.opcode x y).2)).1 }
      (s.emitAt p.offset fun g c => ((g.emitBinop p.opcode x y).1, c, (g.emitBinop p.opcode x y).2)).2
  | idle {a : MemoryAccess} {offset : Nat} (hr : p.rule = .access a offset)
    (hc : p.complete = true) (hl : p.LastFits ctx) (hg : s.building = none) : Reduces ctx p s p s
  | load {a : MemoryAccess} {offset : Nat} {i : Tree} (hr : p.rule = .access a offset)
    (hc : p.complete = true) (hl : p.LastFits ctx) (ha : a.store = false)
    (hi : p.done[0]? = some i) :
    Reduces ctx p s
      { p with node := (s.emitAt p.offset fun g c => g.emitLoadMem c a i.node offset).1 }
      (s.emitAt p.offset fun g c => g.emitLoadMem c a i.node offset).2
  | store {a : MemoryAccess} {offset : Nat} {i t : Tree} (hr : p.rule = .access a offset)
    (hc : p.complete = true) (hl : p.LastFits ctx) (ha : a.store = true)
    (hi : p.done[0]? = some i) (ht : p.done[1]? = some t) :
    Reduces ctx p s { p with node := t.node }
      (s.emitAt p.offset fun g c => g.emitStoreMem c a i.node offset t.node).2

namespace Reduces

theorem of_closeBlock {j : Join} {rest : List Target} {s₁ : State} (hb : s₁.blocks = .exit j :: rest)
    (h : Body.closeBlock ctx p s₁ = .ok (p', s')) :
    ∃ t j' s₂, p.done.getLast? = some t ∧ bring ctx p s₁ j t = .ok (j', s₂) ∧
      p' = { p with type := j'.type, node := j'.node } ∧
      s' = { s₂ with env := j'.env, blocks := rest } := by
  unfold Body.closeBlock at h
  rw [hb] at h
  obtain ⟨t, ht, h⟩ := bind_eq_ok.mp h
  obtain ⟨⟨j', s₂⟩, hj, h⟩ := bind_eq_ok.mp h
  cases h
  exact ⟨t, j', s₂, lastChild_eq_ok.mp ht, hj, rfl, rfl⟩

theorem of_openChoice (hr : p.rule = .ifThen ∨ p.rule = .ifElse) (hd : p.done.length = 1)
    (h : Body.openChoice p s = .ok s') : Reduces ctx p s p s' := by
  obtain ⟨c, hc⟩ := length_eq_one_iff.mp hd
  unfold Body.openChoice at h
  obtain ⟨t, ht, h⟩ := bind_eq_ok.mp h
  obtain ⟨hl, hm⟩ := checkLast_eq_ok.mp ht
  obtain rfl : c = t := by simpa [hc] using hl
  have hr : Reduces ctx p s p _ := .openChoice hr hc hm
  rw [← branchOn_choices c] at hr
  obtain ⟨holds, fails, s₁⟩ := branchOn s c
  cases h
  exact hr

theorem of_reduceIf (hr : p.rule = .ifThen) (h : reduceIf ctx p s = .ok (p', s')) :
    Reduces ctx p s p' s' := by
  unfold reduceIf at h
  split at h
  · rename_i hd
    obtain ⟨s₁, hs, h⟩ := bind_eq_ok.mp h
    cases h
    exact of_openChoice (.inl hr) hd hs
  · rename_i top rest hd hc
    obtain ⟨c, t, hd⟩ := length_eq_two.mp hd
    obtain ⟨⟨env, s₁⟩, hl, h⟩ := bind_eq_ok.mp h
    cases h
    exact .closeIf hr hd hc hl
  · cases h

theorem of_reduceIfElse (hr : p.rule = .ifElse) (h : reduceIfElse ctx p s = .ok (p', s')) :
    Reduces ctx p s p' s' := by
  unfold reduceIfElse at h
  split at h
  · rename_i hd
    obtain ⟨s₁, hs, h⟩ := bind_eq_ok.mp h
    cases h
    exact of_openChoice (.inr hr) hd hs
  · rename_i top rest hd hc
    obtain ⟨c, t, hd⟩ := length_eq_two.mp hd
    obtain ⟨v, hv, h⟩ := bind_eq_ok.mp h
    obtain rfl : t = v := by simpa [hd] using lastChild_eq_ok.mp hv
    obtain ⟨⟨j, s₁⟩, hj, h⟩ := bind_eq_ok.mp h
    cases h
    exact .otherwise hr hd hc hj
  · rename_i top rest hd hc
    obtain ⟨c, t, e, hd⟩ := length_eq_three.mp hd
    obtain ⟨v, hv, h⟩ := bind_eq_ok.mp h
    obtain rfl : e = v := by simpa [hd] using lastChild_eq_ok.mp hv
    obtain ⟨⟨j, s₁⟩, hj, h⟩ := bind_eq_ok.mp h
    cases h
    exact .closeElse hr hd hc hj
  · cases h

theorem of_selectType (hr : p.rule = .select)
    (hd : p.done.length = 1 ∨ p.done.length = 2 ∧ p.type = .unreachable)
    (h : (do return (← Body.selectType p, s) : Except Failure (Pending × State)) = .ok (p', s')) :
    Reduces ctx p s p' s' := by
  obtain ⟨p₁, hp, h⟩ := bind_eq_ok.mp h
  unfold Body.selectType at hp
  obtain ⟨t, ht, hp⟩ := bind_eq_ok.mp hp
  split at hp
  · cases hp
  · rename_i hv
    cases hp
    cases h
    exact .selectType hr hd (lastChild_eq_ok.mp ht) hv

theorem of_reduceSelect (hr : p.rule = .select) (h : reduceSelect p s = .ok (p', s')) :
    Reduces ctx p s p' s' := by
  unfold reduceSelect at h
  split at h
  · rename_i hd
    exact of_selectType hr (.inl hd) h
  · rename_i hd
    split at h
    · rename_i hu
      exact of_selectType hr (.inr ⟨hd, hu⟩) h
    · rename_i hu
      obtain ⟨a, b, hd⟩ := length_eq_two.mp hd
      obtain ⟨t, ht, h⟩ := bind_eq_ok.mp h
      obtain ⟨hl, hm⟩ := checkLast_eq_ok.mp ht
      obtain rfl : b = t := by simpa [hd] using hl
      cases h
      exact .selectSame hr hd hu hm
  · rename_i hd
    obtain ⟨a, b, c, hd⟩ := length_eq_three.mp hd
    obtain ⟨t, ht, h⟩ := bind_eq_ok.mp h
    obtain ⟨hl, hm⟩ := checkLast_eq_ok.mp ht
    obtain rfl : c = t := by simpa [hd] using hl
    obtain ⟨x, hx, h⟩ := bind_eq_ok.mp h
    obtain rfl : a = x := by simpa [hd] using child_eq_ok.mp hx
    obtain ⟨y, hy, h⟩ := bind_eq_ok.mp h
    obtain rfl : b = y := by simpa [hd] using child_eq_ok.mp hy
    cases h
    exact .select hr hd hm
  · cases h

theorem lastFits_of_expected (hw : p.wants ctx = ts.map some) (he : expectedAt p ts (p.done.length - 1) = .ok τ)
    (hc : checkLast p τ = .ok t) : p.LastFits ctx := by
  intro t' τ' hl hτ
  obtain ⟨hl', hm⟩ := checkLast_eq_ok.mp hc
  rw [hw, getElem?_map, expectedAt_eq_ok.mp he] at hτ
  cases hl.symm.trans hl'
  cases hτ
  exact hm

theorem lastFits_of_last (hc : checkLast p τ = .ok t)
    (hw : ∀ τ', (p.wants ctx)[p.done.length - 1]? = some (some τ') → τ' = τ) : p.LastFits ctx := by
  intro t' τ' hl hτ
  obtain ⟨hl', hm⟩ := checkLast_eq_ok.mp hc
  cases hl.symm.trans hl'
  rw [hw τ' hτ]
  exact hm

theorem lastFits_of_first (hp : p.Regular ctx) (hw : p.wants ctx = [none, some .i32])
    (hc : p.complete = false) : p.LastFits ctx := by
  intro t τ hl hτ
  have ha : p.arity = 2 := by rw [← hp, hw]; rfl
  have hd : p.done.length < 2 := by simpa [Pending.complete, ha] using hc
  have hz : p.done.length - 1 = 0 := by omega
  simp [hw, hz] at hτ

theorem of_complete {done : Except Failure (Pending × State)} (hr : p.rule.patient = true)
    (hl : p.complete = false → p.LastFits ctx)
    (h : (if (!p.complete) = true then pure (p, s) else done) = .ok (p', s'))
    (hdone : p.complete = true → done = .ok (p', s') → Reduces ctx p s p' s') : Reduces ctx p s p' s' := by
  cases hc : p.complete with
  | false =>
    rw [hc] at h
    cases h
    exact .wait hr hc (hl hc)
  | true =>
    rw [hc] at h
    exact hdone hc h

theorem of_reduceBrIf {depth : Nat} (hp : p.Regular ctx) (hr : p.rule = .brIf depth)
    (h : reduceBrIf ctx p s depth = .ok (p', s')) : Reduces ctx p s p' s' := by
  refine of_complete (by rw [hr]; rfl) (lastFits_of_first hp (by rw [Pending.wants, hr])) h fun hc h => ?_
  obtain ⟨c, hc', h⟩ := bind_eq_ok.mp h
  obtain ⟨hl, hm⟩ := checkLast_eq_ok.mp hc'
  obtain ⟨t, ht, h⟩ := bind_eq_ok.mp h
  obtain ⟨s₁, hs, h⟩ := bind_eq_ok.mp h
  cases h
  exact .brIf hr hc (child_eq_ok.mp ht) hl hm hs

theorem of_reduceBrTable (hp : p.Regular ctx) (hr : p.rule = .brTable depths)
    (h : reduceBrTable ctx p s depths = .ok (p', s')) : Reduces ctx p s p' s' := by
  refine of_complete (by rw [hr]; rfl) (lastFits_of_first hp (by rw [Pending.wants, hr])) h fun hc h => ?_
  obtain ⟨k, hk, h⟩ := bind_eq_ok.mp h
  obtain ⟨hl, hm⟩ := checkLast_eq_ok.mp hk
  obtain ⟨t, ht, h⟩ := bind_eq_ok.mp h
  obtain ⟨s₁, hs, h⟩ := bind_eq_ok.mp h
  cases h
  exact .brTable hr hc (child_eq_ok.mp ht) hl hm rfl hs

theorem of_reduceReturn (hr : p.rule = .ret) (h : reduceReturn ctx p s = .ok (p', s')) :
    Reduces ctx p s p' s' := by
  obtain ⟨τ, hτ, h⟩ := bind_eq_ok.mp h
  obtain ⟨t, ht, h⟩ := bind_eq_ok.mp h
  have hl : p.LastFits ctx := lastFits_of_expected (by rw [Pending.wants, hr]) hτ ht
  refine of_complete (by rw [hr]; rfl) (fun _ => hl) h fun hc h => ?_
  cases h
  exact .ret hr hc hl

theorem of_reduceSetLocal (hr : p.rule = .setLocal index τ)
    (h : reduceSetLocal p s index τ = .ok (p', s')) : Reduces ctx p s p' s' := by
  unfold reduceSetLocal at h
  obtain ⟨t, ht, h⟩ := bind_eq_ok.mp h
  obtain ⟨hl, hm⟩ := checkLast_eq_ok.mp ht
  cases h
  exact .setLocal hr hl hm

theorem of_reduceSetGlobal (hr : p.rule = .setGlobal index)
    (h : reduceSetGlobal p s index = .ok (p', s')) : Reduces ctx p s p' s' := by
  unfold reduceSetGlobal at h
  obtain ⟨t, ht, h⟩ := bind_eq_ok.mp h
  obtain ⟨hl, hm⟩ := checkLast_eq_ok.mp ht
  cases h
  exact .setGlobal hr hl hm

theorem of_reduceCall {function : Nat} (hr : p.rule = .call function sig)
    (h : reduceCall p s function sig = .ok (p', s')) : Reduces ctx p s p' s' := by
  have hrest : p.LastFits ctx →
      (if (!p.complete) = true then pure (p, s) else
        let r := s.emitAt p.offset fun g c => g.emitCall c function sig (childNodes p)
        pure ({ p with node := r.1 }, r.2) : Except Failure (Pending × State)) = .ok (p', s') →
      Reduces ctx p s p' s' := by
    intro hl h
    refine of_complete (by rw [hr]; rfl) (fun _ => hl) h fun hc h => ?_
    cases h
    exact .call hr hc hl
  unfold reduceCall at h
  cases he : p.done.isEmpty with
  | true =>
    rw [he] at h
    refine hrest ?_ h
    intro t τ hl
    rw [List.isEmpty_iff.mp he] at hl
    cases hl
  | false =>
    rw [he] at h
    obtain ⟨τ, hτ, h⟩ := bind_eq_ok.mp h
    obtain ⟨t, ht, h⟩ := bind_eq_ok.mp h
    exact hrest (lastFits_of_expected (by rw [Pending.wants, hr]) hτ ht) h

theorem of_reduceCallIndirect {signature : Nat} (hr : p.rule = .callIndirect signature sig)
    (h : reduceCallIndirect p s signature sig = .ok (p', s')) : Reduces ctx p s p' s' := by
  unfold reduceCallIndirect at h
  obtain ⟨τ, hτ, h⟩ := bind_eq_ok.mp h
  obtain ⟨t, ht, h⟩ := bind_eq_ok.mp h
  have hl : p.LastFits ctx := lastFits_of_expected (by rw [Pending.wants, hr]; rfl) hτ ht
  refine of_complete (by rw [hr]; rfl) (fun _ => hl) h fun hc h => ?_
  split at h
  · cases h
  · rename_i hn
    cases h
    exact .callIndirect hr hc hl hn

theorem of_reduceNumeric (hr : p.rule = .numeric sig)
    (h : reduceNumeric p s sig = .ok (p', s')) : Reduces ctx p s p' s' := by
  unfold reduceNumeric at h
  obtain ⟨τ, hτ, h⟩ := bind_eq_ok.mp h
  obtain ⟨t, ht, h⟩ := bind_eq_ok.mp h
  have hl : p.LastFits ctx := lastFits_of_expected (by rw [Pending.wants, hr]) hτ ht
  refine of_complete (by rw [hr]; rfl) (fun _ => hl) h fun hc h => ?_
  split at h
  · rename_i hn
    cases h
    exact .unop hr hc hl hn
  · rename_i hn
    cases h
    exact .binop hr hc hl hn
  · cases h

theorem wants_access {k : Nat} (hr : p.rule = .access a offset) (h : (p.wants ctx)[k]? = some (some τ)) :
    k = 0 ∧ τ = .i32 ∨ k = 1 ∧ a.store = true ∧ τ = a.type := by
  rw [Pending.wants, hr] at h
  match k with
  | 0 => exact .inl ⟨rfl, (Option.some.inj (Option.some.inj h)).symm⟩
  | 1 =>
    cases ha : a.store with
    | true => exact .inr ⟨rfl, rfl, by simpa [ha, eq_comm] using h⟩
    | false => simp [ha] at h
  | k + 2 => cases ha : a.store <;> simp [ha] at h

theorem of_reduceAccess (hr : p.rule = .access a offset)
    (h : reduceAccess p s a offset = .ok (p', s')) : Reduces ctx p s p' s' := by
  unfold reduceAccess at h
  obtain ⟨t, ht, h⟩ := bind_eq_ok.mp h
  have hl : p.LastFits ctx := by
    refine lastFits_of_last ht fun τ hτ => ?_
    rcases wants_access hr hτ with ⟨hd, rfl⟩ | ⟨hd, _, rfl⟩
    · rw [if_neg (by omega)]
    · rw [if_pos (by omega)]
  refine of_complete (by rw [hr]; rfl) (fun _ => hl) h fun hc h => ?_
  split at h
  · rename_i hg
    cases h
    exact .idle hr hc hl hg
  · obtain ⟨i, hi, h⟩ := bind_eq_ok.mp h
    split at h
    · rename_i ha
      obtain ⟨v, hv, h⟩ := bind_eq_ok.mp h
      cases h
      exact .store hr hc hl ha (child_eq_ok.mp hi) (child_eq_ok.mp hv)
    · rename_i ha
      cases h
      exact .load hr hc hl (by simpa using ha) (child_eq_ok.mp hi)

end Reduces

theorem lastFits_of_replicate (hw : p.wants ctx = List.replicate n none) : p.LastFits ctx := by
  intro t τ _ hτ
  rw [hw, getElem?_replicate] at hτ
  split at hτ <;> simp at hτ

theorem reduces_of_reduce (hp : p.Regular ctx) (h : reduce ctx p s = .ok (p', s')) :
    Reduces ctx p s p' s' := by
  unfold reduce at h
  match hr : p.rule with
  | .block =>
    rw [hr] at h
    dsimp only at h
    split at h
    · rename_i hc
      match hb : s.blocks with
      | [] | .header _ :: _ =>
        unfold closeBlock at h
        rw [hb] at h
        cases h
      | .exit j :: rest =>
        obtain ⟨t, j', s₂, ht, hj, rfl, rfl⟩ := Reduces.of_closeBlock hb h
        exact .closeBlock hr hc hb ht hj
    · rename_i hc
      cases h
      exact .wait (by rw [hr]; rfl) (by simpa using hc) (lastFits_of_replicate (by rw [Pending.wants, hr]))
  | .loop =>
    rw [hr] at h
    dsimp only at h
    split at h
    · rename_i hc
      match hb : s.blocks with
      | [] | [_] | _ :: .header _ :: _ =>
        unfold closeBlock at h
        rw [hb] at h
        cases h
      | head :: .exit j :: rest =>
        obtain ⟨t, j', s₂, ht, hj, rfl, rfl⟩ := Reduces.of_closeBlock (by rw [hb]; rfl) h
        rw [hb] at hj
        exact .closeLoop hr hc hb ht hj
    · rename_i hc
      cases h
      exact .wait (by rw [hr]; rfl) (by simpa using hc) (lastFits_of_replicate (by rw [Pending.wants, hr]))
  | .ifThen =>
    rw [hr] at h
    exact .of_reduceIf hr h
  | .ifElse =>
    rw [hr] at h
    exact .of_reduceIfElse hr h
  | .select =>
    rw [hr] at h
    exact .of_reduceSelect hr h
  | .br depth =>
    rw [hr] at h
    obtain ⟨t, ht, h⟩ := bind_eq_ok.mp h
    obtain ⟨s₁, hs, h⟩ := bind_eq_ok.mp h
    cases h
    exact .br hr (lastChild_eq_ok.mp ht) hs
  | .brIf depth =>
    rw [hr] at h
    exact .of_reduceBrIf hp hr h
  | .brTable depths =>
    rw [hr] at h
    exact .of_reduceBrTable hp hr h
  | .ret =>
    rw [hr] at h
    exact .of_reduceReturn hr h
  | .setLocal index τ =>
    rw [hr] at h
    exact .of_reduceSetLocal hr h
  | .setGlobal index =>
    rw [hr] at h
    exact .of_reduceSetGlobal hr h
  | .call function sig =>
    rw [hr] at h
    exact .of_reduceCall hr h
  | .callIndirect signature sig =>
    rw [hr] at h
    exact .of_reduceCallIndirect hr h
  | .growMemory =>
    rw [hr] at h
    obtain ⟨t, ht, h⟩ := bind_eq_ok.mp h
    obtain ⟨hl, hm⟩ := checkLast_eq_ok.mp ht
    cases h
    have hg : Reduces ctx p s _ _ := .growMemory hr hl hm
    rw [hr] at hg
    exact hg
  | .numeric sig =>
    rw [hr] at h
    exact .of_reduceNumeric hr h
  | .access a offset =>
    rw [hr] at h
    exact .of_reduceAccess hr h

/-- A reduction settles the type and the node of an expression and leaves the rest of it alone. -/
theorem Reduces.frame (h : Reduces ctx p s p' s') : p' = { p with type := p'.type, node := p'.node } := by
  cases h <;> rfl

theorem Reduces.regular (h : Reduces ctx p s p' s') (hp : p.Regular ctx) : p'.Regular ctx := by
  rw [h.frame]
  unfold Pending.Regular Pending.wants at hp ⊢
  cases hr : p.rule <;> simp_all

def Instruction.await (x : Instruction) (rule : Rule) (type : ValType) (arity : Nat) : Pending :=
  { opcode := x.opcode, offset := x.offset, type, rule, arity }

def Instruction.leaf (x : Instruction) (type : ValType) (node : NodeId) : Tree :=
  .expr x.opcode type x.offset node []

/-- What emits a value of the given type that depends on nothing but the memory's size. -/
inductive Constant : ValType → (Graph → NodeId × Graph) → Prop
  | int32 (n : Nat) : Constant .i32 (·.emitInt32 n)
  | int64 (n : Nat) : Constant .i64 (·.emitInt64 n)
  | float32 (n : Nat) : Constant .f32 (·.emitFloat32 n)
  | float64 (n : Nat) : Constant .f64 (·.emitFloat64 n)
  | memSize : Constant .i32 (·.emitMemSize)

inductive Conduct where
  | pass
  | stop
  | block (isLoop : Bool)
  | ifThen
  | ifElse
  | br (depth : Nat)
  | brIf (depth : Nat)
  | brTable (depths : List Nat)
deriving DecidableEq, Repr

def Instruction.conduct (x : Instruction) : Conduct :=
  match x.opcode.form, x.operands with
  | .block, .index n => if n = 0 then .pass else .block false
  | .loop, .index n => if n = 0 then .pass else .block true
  | .ifThen, _ => .ifThen
  | .ifElse, _ => .ifElse
  | .br, .index depth => .br depth
  | .brIf, .index depth => .brIf depth
  | .brTable, .targets depths => .brTable depths
  | .ret, _ | .unreachable, _ => .stop
  | _, _ => .pass

/-- The ways in which an expression can begin. -/
inductive Begins (ctx : Context) (s : State) (x : Instruction) : Entry → Prop
  | nothing (hx : x.conduct = .pass) : Begins ctx s x (.leaf (x.leaf .void noNode) s)
  | block {n : Nat} (hn : n ≠ 0) (hx : x.conduct = .block false) :
    Begins ctx s x (.wait (x.await .block .unreachable n) (openBlock ctx s x.offset false))
  | loop {n : Nat} (hn : n ≠ 0) (hx : x.conduct = .block true) :
    Begins ctx s x (.wait (x.await .loop .unreachable n) (openBlock ctx s x.offset true))
  | ifThen (hx : x.conduct = .ifThen) : Begins ctx s x (.wait (x.await .ifThen .void 2) s)
  | ifElse (hx : x.conduct = .ifElse) : Begins ctx s x (.wait (x.await .ifElse .unreachable 3) s)
  | select (hx : x.conduct = .pass) : Begins ctx s x (.wait (x.await .select .unreachable 3) s)
  | br {depth : Nat} (hd : depth < s.blocks.length) (hx : x.conduct = .br depth) :
    Begins ctx s x (.wait (x.await (.br depth) .unreachable 1) s)
  | brIf {depth : Nat} (hd : depth < s.blocks.length) (hx : x.conduct = .brIf depth) :
    Begins ctx s x (.wait (x.await (.brIf depth) .void 2) s)
  | brTable {depths : List Nat} (hd : ∀ depth ∈ depths, depth < s.blocks.length)
    (hx : x.conduct = .brTable depths) :
    Begins ctx s x (.wait (x.await (.brTable depths) .unreachable 2) s)
  | retNothing (hr : ctx.body.signature.results = []) (hx : x.conduct = .stop) :
    Begins ctx s x (.leaf (x.leaf .unreachable noNode)
      (s.emitOn fun g c => g.emitReturn c []).2.finishPath)
  | ret (hr : ctx.body.signature.results ≠ []) (hx : x.conduct = .stop) :
    Begins ctx s x (.wait (x.await .ret .unreachable ctx.body.signature.results.length) s)
  | unreachable (hx : x.conduct = .stop) :
    Begins ctx s x (.leaf (x.leaf .unreachable noNode)
      (s.emitAt x.offset fun g c => g.emitUnreachable c).2.finishPath)
  | constant {t : ValType} {f : Graph → NodeId × Graph} (hf : Constant t f) (hx : x.conduct = .pass) :
    Begins ctx s x (.leaf (x.leaf t (s.emit f).1) (s.emit f).2)
  | getLocal {i : Nat} {t : ValType} (ht : ctx.types[i]? = some t) (hx : x.conduct = .pass) :
    Begins ctx s x (.leaf
      (x.leaf t (if s.building.isSome then s.env.locals[i]?.getD noNode else noNode)) s)
  | setLocal {i : Nat} {t : ValType} (ht : ctx.types[i]? = some t) (hx : x.conduct = .pass) :
    Begins ctx s x (.wait (x.await (.setLocal i t) t 1) s)
  | getGlobal {i : Nat} {v : Global} (hv : ctx.body.module.globals[i]? = some v)
    (hx : x.conduct = .pass) :
    Begins ctx s x (.leaf
      (x.leaf v.type.valType (s.emitOn fun g c => g.emitLoadGlobal c i v.type.valType).1)
      (s.emitOn fun g c => g.emitLoadGlobal c i v.type.valType).2)
  | setGlobal {i : Nat} {v : Global} (hv : ctx.body.module.globals[i]? = some v)
    (hm : v.type.isMutable = true) (hx : x.conduct = .pass) :
    Begins ctx s x (.wait (x.await (.setGlobal i) v.type.valType 1) s)
  | call {i : Nat} {sig : FuncType} (hs : ctx.body.module.functionType? i = some sig)
    (hx : x.conduct = .pass) :
    Begins ctx s x (.wait (x.await (.call i sig) sig.resultType sig.params.length) s)
  | callIndirect {i : Nat} {sig : FuncType} (ht : ctx.body.module.tables.isEmpty = false)
    (hs : ctx.body.module.signatures[i]? = some sig) (hx : x.conduct = .pass) :
    Begins ctx s x (.wait (x.await (.callIndirect i sig) sig.resultType (1 + sig.params.length)) s)
  | growMemory (hm : ctx.body.module.memory.isNone = false) (hx : x.conduct = .pass) :
    Begins ctx s x (.wait (x.await .growMemory .i32 1) s)
  | access {a : MemoryAccess} {alignment offset : Nat} (hm : ctx.body.module.memory.isNone = false)
    (ha : x.opcode.form = .access a) (hl : alignment ≤ a.maxAlignment) (hx : x.conduct = .pass) :
    Begins ctx s x (.wait (x.await (.access a offset) a.type a.arity) s)
  | numeric {sig : FuncType} (hf : x.opcode.form = .numeric sig) (hx : x.conduct = .pass) :
    Begins ctx s x (.wait (x.await (.numeric sig) sig.resultType sig.params.length) s)

theorem find?_zipIdx_eq_none {l : List α} {q : α → Bool} :
    (l.zipIdx.find? fun c => q c.1) = none ↔ ∀ a ∈ l, ¬q a = true := by
  rw [find?_eq_none]
  constructor
  · intro h a ha
    obtain ⟨i, hi⟩ := mem_iff_getElem?.mp ha
    exact h (a, i) (mem_zipIdx_iff_getElem?.mpr hi)
  · intro h c hc
    exact h c.1 (mem_of_getElem? (mem_zipIdx_iff_getElem?.mp hc))

theorem find?_depth_eq_none :
    (depths.zipIdx.find? fun (depth, _) => n ≤ depth) = none ↔ ∀ depth ∈ depths, depth < n :=
  (find?_zipIdx_eq_none (q := fun depth => n ≤ depth)).trans (by simp)

theorem badLocal?_eq_none {types : List ValType} : badLocal? types = none ↔ ∀ t ∈ types, t.isValue = true :=
  (find?_zipIdx_eq_none (l := types) (q := fun t => !t.isValue)).trans (by simp)

theorem begins_of_enter {e : Entry} (h : enter ctx s x = .ok e) : Begins ctx s x e := by
  have hx := Instruction.conduct.eq_def x
  simp only [enter] at h
  split at h <;> (repeat' split at h) <;> cases h <;> simp only [*, if_true, if_false] at hx
  · exact .nothing hx
  · exact .nothing hx
  · exact .block ‹_› hx
  · exact .nothing hx
  · exact .loop ‹_› hx
  · exact .ifThen hx
  · exact .ifElse hx
  · exact .select hx
  · exact .br (Nat.lt_of_not_le ‹_›) hx
  · exact .brIf (Nat.lt_of_not_le ‹_›) hx
  · exact .brTable (find?_depth_eq_none.mp ‹_›) hx
  · exact .retNothing (List.isEmpty_iff.mp ‹_›) hx
  · exact .ret (fun hr => absurd (List.isEmpty_iff.mpr hr) ‹_›) hx
  · exact .unreachable hx
  · exact .constant (.int32 _) hx
  · exact .constant (.int32 _) hx
  · exact .constant (.int64 _) hx
  · exact .constant (.float32 _) hx
  · exact .constant (.float64 _) hx
  · have h : Begins ctx s x _ := .getLocal ‹_› hx
    rwa [if_pos ‹_›] at h
  · have h : Begins ctx s x _ := .getLocal ‹_› hx
    rwa [if_neg ‹_›] at h
  · exact .setLocal ‹_› hx
  · exact .getGlobal ‹_› hx
  · rename_i hm
    exact .setGlobal ‹_› (by simpa using hm) hx
  · exact .call ‹_› hx
  · exact .callIndirect (Bool.eq_false_iff.mpr ‹_›) ‹_› hx
  · exact .growMemory (Bool.eq_false_iff.mpr ‹_›) hx
  · exact .constant .memSize hx
  · exact .access (Bool.eq_false_iff.mpr ‹_›) ‹_› (Nat.le_of_not_lt ‹_›) hx
  · exact .numeric ‹_› hx

def Rule.conduct : Rule → Conduct
  | .block => .block false
  | .loop => .block true
  | .ifThen => .ifThen
  | .ifElse => .ifElse
  | .br depth => .br depth
  | .brIf depth => .brIf depth
  | .brTable depths => .brTable depths
  | .ret => .stop
  | _ => .pass

theorem Begins.conduct (h : Begins ctx s x (.wait p s')) : x.conduct = p.rule.conduct := by
  cases h <;> assumption

/-- An expression begins with as many children to wait for as its rule has wishes. -/
theorem Begins.regular (h : Begins ctx s x (.wait p s')) : p.Regular ctx := by
  cases h <;> simp [Pending.Regular, Pending.wants, Instruction.await, Nat.add_comm]
  case access a _ _ =>
    rw [MemoryAccess.arity]
    split <;> rfl

theorem Begins.done (h : Begins ctx s x (.wait p s')) : p.done = [] := by
  cases h <;> rfl

inductive Finishes (ctx : Context) (d : Decoder) : Decoder → Prop
  | ended (hs : d.state.env.live = false) : Finishes ctx d d
  | nothing (hs : d.state.env.live = true) (hv : ctx.body.returnType = .void) :
    Finishes ctx d { d with state := (d.state.emitOn fun g c => g.emitReturn c []).2 }
  | value {t : Tree} (hs : d.state.env.live = true) (hv : ctx.body.returnType ≠ .void)
    (ht : d.trees.getLast? = some t) (hm : typeMatches ctx.body.returnType t.type = true) :
    Finishes ctx d { d with state := (d.state.emitOn fun g c => g.emitReturn c [t.node]).2 }

theorem finishes_of_finish (h : finish ctx d = .ok d') : d.stack = [] ∧ Finishes ctx d d' := by
  unfold finish at h
  dsimp only at h
  split at h
  · cases h
  · refine ⟨‹_›, ?_⟩
    by_cases hs : d.state.env.live = true
    · rw [if_neg (by simp [hs])] at h
      split at h
      · cases h
        exact .nothing hs ‹_›
      · split at h
        · cases h
        · split at h
          · cases h
            exact .value hs ‹_› ‹_› ‹_›
          · cases h
    · rw [if_pos (by simp [hs])] at h
      cases h
      exact .ended (by simpa using hs)

theorem advance_of_step (h : step ctx d x n = .ok d') : advance ctx d x = .ok d' := by
  unfold step at h
  split at h
  · cases h
  · exact h

theorem tooMany?_of_step (h : step ctx d x n = .ok d') : tooMany? x n = none := by
  unfold step at h
  split at h
  · cases h
  · assumption

theorem run_of_nil {i : Input} (h : i.bytes = []) : run ctx d i = .ok d := by
  unfold run
  split
  · rfl
  · rename_i h'
    cases h.symm.trans h'

/-- One opcode is decoded, and then the code that follows its immediates. -/
theorem run_of_cons {i : Input} {b : UInt8} {rest : List UInt8} (h : i.bytes = b :: rest) :
    run ctx d i = match readOperands (⟨b⟩ : Opcode).form ⟨rest, i.offset + 1⟩ with
      | .error e => .error ⟨i.offset, ⟨b⟩, .operand e.fault⟩
      | .ok (ops, j) =>
        step ctx { d with opcodes := d.opcodes + 1 } ⟨i.offset, ⟨b⟩, ops⟩ j.remaining >>= fun d =>
          run ctx d j := by
  rw [run]
  split
  · rename_i h'
    cases h.symm.trans h'
  · rename_i h'
    cases h.symm.trans h'
    dsimp only
    split
    · rename_i ho
      rw [ho]
    · rename_i ho
      rw [ho]
      dsimp only
      split <;> rename_i hs <;> rw [hs] <;> rfl

end ProtoWasm.Body
