import ProtoWasm.Proofs.Body.Balance
import ProtoWasm.Proofs.Body.Soundness

/-! # The decoder keeps track

Whatever the code, the decoder stops with a failure of the code or gives a result. The targets and choices of a state
are those of the expressions that wait on the stack, and every environment that control gets to holds a node for every
local.
-/
namespace ProtoWasm.Body

open List

/-- Control gets to an environment only under a condition, and then it holds a node for every local. -/
structure Env.Tracked (ctx : Context) (built : Bool) (m : Prop) (e : Env) : Prop where
  live : e.live = true → m
  locals : built = true → e.live = true → e.locals.length = ctx.types.length

/-- An environment can be gone to under a condition. -/
structure Env.Open (ctx : Context) (built : Bool) (m : Prop) (e : Env) : Prop extends Env.Tracked ctx built m e where
  going : m → e.reach ≠ .ended

def Rule.depths : Rule → List Nat
  | .br depth | .brIf depth => [depth]
  | .brTable depths => depths
  | _ => []

def Rule.opens : Rule → Bool
  | .block | .loop | .ifThen | .ifElse => true
  | _ => false

/-- The targets and choices that belong to the expressions on a stack, innermost first. Control gets to the point at
hand only under a condition, which implies the conditions of all expressions around it. -/
inductive Frames (ctx : Context) (built : Bool) : Prop → List Pending → List Target → List Choice → Prop
  | nil {m} : Frames ctx built m [] [] []
  | other {m stack cs} {p : Pending} {bs : List Target}
    (hp : p.rule.opens = true → (p.rule = .ifThen ∨ p.rule = .ifElse) ∧ p.done = [])
    (hd : ∀ depth ∈ p.rule.depths, depth < bs.length) (h : Frames ctx built m stack bs cs) :
    Frames ctx built m (p :: stack) bs cs
  | block {m m' stack bs cs} {p : Pending} {j : Join}
    (hp : p.rule = .block) (hj : j.env.Open ctx built m) (hm : m → m') (h : Frames ctx built m' stack bs cs) :
    Frames ctx built m (p :: stack) (.exit j :: bs) cs
  | loop {m m' stack bs cs} {p : Pending} {e : Env} {j : Join}
    (hp : p.rule = .loop) (he : e.Open ctx built m) (hj : j.env.Open ctx built m) (hm : m → m')
    (h : Frames ctx built m' stack bs cs) : Frames ctx built m (p :: stack) (.header e :: .exit j :: bs) cs
  | arm {m m' stack bs cs} {p : Pending} {c : Choice}
    (hp : p.rule = .ifThen ∨ p.rule = .ifElse) (hd : p.done ≠ []) (ho : c.otherwise.Open ctx built m)
    (hj : c.join.env.Open ctx built m) (hm : m → m') (h : Frames ctx built m' stack bs cs) :
    Frames ctx built m (p :: stack) bs (c :: cs)

/-- Targets and choices stay, and control gets on only with the locals it came with. -/
structure Calm (s s' : State) : Prop where
  blocks : s'.blocks = s.blocks
  choices : s'.choices = s.choices
  graph : s'.graph.isSome = s.graph.isSome
  env : s'.env.live = true → s.env.live = true ∧ s'.env.locals.length = s.env.locals.length

structure State.At (ctx : Context) (built : Bool) (m : Prop) (stack : List Pending) (s : State) : Prop where
  frames : Frames ctx built m stack s.blocks s.choices
  env : s.env.Tracked ctx built m
  graph : s.graph.isSome = built

/-- The decoder comes to a state with a stack and the rest of the code, and sometimes with an expression that is
complete and will be attached next. -/
inductive Visits (ctx : Context) (s₀ : State) (i₀ : Input) : List Pending → Option Tree → State → Input → Prop
  | start : Visits ctx s₀ i₀ [] none s₀ i₀
  | leaf {stack s s' i j c rest ops t}
    (h : Visits ctx s₀ i₀ stack none s i) (hi : i.bytes = c :: rest)
    (ho : readOperands (⟨c⟩ : Opcode).form ⟨rest, i.offset + 1⟩ = .ok (ops, j))
    (he : enter ctx s ⟨i.offset, ⟨c⟩, ops⟩ = .ok (.leaf t s')) : Visits ctx s₀ i₀ stack (some t) s' j
  | wait {stack s s' i j c rest ops p} (h : Visits ctx s₀ i₀ stack none s i) (hi : i.bytes = c :: rest)
    (ho : readOperands (⟨c⟩ : Opcode).form ⟨rest, i.offset + 1⟩ = .ok (ops, j))
    (he : enter ctx s ⟨i.offset, ⟨c⟩, ops⟩ = .ok (.wait p s')) (hp : p.arity ≠ 0) :
    Visits ctx s₀ i₀ (p :: stack) none s' j
  | childless {stack s s' s'' i j c rest ops p p'} (h : Visits ctx s₀ i₀ stack none s i) (hi : i.bytes = c :: rest)
    (ho : readOperands (⟨c⟩ : Opcode).form ⟨rest, i.offset + 1⟩ = .ok (ops, j))
    (he : enter ctx s ⟨i.offset, ⟨c⟩, ops⟩ = .ok (.wait p s')) (hp : p.arity = 0)
    (hr : reduce ctx p s' = .ok (p', s'')) : Visits ctx s₀ i₀ stack (some p'.tree) s'' j
  | child {stack s s' i t p p'}
    (h : Visits ctx s₀ i₀ (p :: stack) (some t) s i) (hr : reduce ctx (p.add [t]) s = .ok (p', s'))
    (hp : p'.complete = false) : Visits ctx s₀ i₀ (p' :: stack) none s' i
  | last {stack s s' i t p p'}
    (h : Visits ctx s₀ i₀ (p :: stack) (some t) s i) (hr : reduce ctx (p.add [t]) s = .ok (p', s'))
    (hp : p'.complete = true) : Visits ctx s₀ i₀ stack (some p'.tree) s' i
  | root {s i t} (h : Visits ctx s₀ i₀ [] (some t) s i) : Visits ctx s₀ i₀ [] none s i

variable {ctx : Context} {built : Bool} {m m' : Prop} {p q : Pending} {stack : List Pending} {s s' : State}
  {t : Tree} {e e' target entry : Env} {bs : List Target} {cs : List Choice} {x : Instruction} {τ : ValType}
  {j : Join} {switch : NodeId} {last : Nat} {sig : FuncType} {d : Decoder}

/-! ## Failures of the code -/

/-- A computation stops with a failure of the code, or its result has a property. -/
def Safely {α : Type} (x : Except Failure α) (P : α → Prop) : Prop :=
  match x with
  | .error f => f.issue ≠ .internal
  | .ok a => P a

namespace Safely

variable {α β : Type} {y : Except Failure α} {P Q : α → Prop} {f : α → Except Failure β} {R : β → Prop} {a : α}

theorem bind (hy : Safely y P) (hf : ∀ a, P a → Safely (f a) R) : Safely (y >>= f) R := by
  cases y with
  | error e => exact hy
  | ok a => exact hf a hy

theorem pure (h : P a) : Safely (pure a) P := h

theorem mono (hy : Safely y P) (h : ∀ a, P a → Q a) : Safely y Q := by
  cases y with
  | error e => exact hy
  | ok a => exact h a hy

end Safely

theorem checkLast_safely (hd : p.done ≠ []) : Safely (checkLast p τ) fun _ => True := by
  unfold checkLast
  rw [getLast?_eq_some_getLast hd]
  dsimp only
  split
  · trivial
  · exact Issue.noConfusion

theorem lastChild_safely (hd : p.done ≠ []) : Safely (lastChild p) fun _ => True := by
  unfold lastChild
  rw [getLast?_eq_some_getLast hd]
  trivial

theorem child_safely {i : Nat} (hi : i < p.done.length) : Safely (child p i) fun _ => True := by
  unfold child
  rw [getElem?_eq_getElem hi]
  trivial

theorem expectedAt_safely {ts : List ValType} {i : Nat} (hi : i < ts.length) :
    Safely (expectedAt p ts i) fun _ => True := by
  unfold expectedAt
  rw [getElem?_eq_getElem hi]
  trivial

/-! ## Environments -/

namespace Env

theorem reach_ne_of_live (h : e.live = true) : e.reach ≠ .ended := by
  intro hr
  simp [live, hr] at h

theorem tracked_of_dead (h : e.live = false) : e.Tracked ctx built m := ⟨by simp [h], by simp [h]⟩

theorem Tracked.imp (h : e.Tracked ctx built m) (hm : m → m') : e.Tracked ctx built m' :=
  ⟨fun hl => hm (h.live hl), h.locals⟩

theorem Tracked.of_live (h : e.Tracked ctx built m)
    (he : e'.live = true → e.live = true ∧ e'.locals.length = e.locals.length) : e'.Tracked ctx built m :=
  ⟨fun hl => h.live (he hl).1, fun hb hl => (he hl).2.trans (h.locals hb (he hl).1)⟩

theorem Tracked.split (h : e.Tracked ctx built m) : e.split.Tracked ctx built m := by
  refine h.of_live fun hl => ?_
  rw [split_live] at hl
  exact ⟨hl, by rw [Env.split, if_pos hl]⟩

theorem Tracked.opened (h : e.Tracked ctx built m) : e.Open ctx built (e.live = true) :=
  ⟨⟨id, h.locals⟩, reach_ne_of_live⟩

theorem open_unreached : unreached.Open ctx built m := ⟨tracked_of_dead rfl, fun _ => Reach.noConfusion⟩

theorem Tracked.open_vacate (h : e.Tracked ctx built m) : e.vacate.Open ctx built (e.live = true) := by
  unfold vacate
  split
  · exact open_unreached
  · exact h.opened

end Env

theorem goTo_open {source : Env} {og : Option Graph} (hs : source.Tracked ctx built m)
    (ht : target.Open ctx built m') (hm : m → m') (hg : og.isSome = built) :
    ∃ env og', goTo ctx.types source target og = some (env, og') ∧ env.Open ctx built m' ∧ og'.isSome = built := by
  unfold goTo
  by_cases hl : source.live = true
  · have hm' := hm (hs.live hl)
    have joined {env : Env} (hr : env.reach = .joined) (hn : built = true → env.locals.length = ctx.types.length) :
        env.Open ctx built m' :=
      ⟨⟨fun _ => hm', fun hb _ => hn hb⟩, fun _ => by rw [hr]; exact Reach.noConfusion⟩
    simp only [hl, Bool.not_true, Bool.false_eq_true, if_false]
    cases hr : target.reach with
    | ended => exact absurd hr (ht.going hm')
    | unreached => exact ⟨_, _, rfl, ⟨⟨fun _ => hm', fun hb _ => hs.locals hb hl⟩, fun _ => Reach.noConfusion⟩, hg⟩
    | once =>
      have hlive : target.live = true := by simp [Env.live, hr]
      cases og with
      | none => exact ⟨_, _, rfl, joined rfl fun hb => ht.locals hb hlive, hg⟩
      | some g =>
        refine ⟨_, _, rfl, joined rfl fun hb => ?_, hg⟩
        unfold joinReached
        exact length_joinLocals (ht.locals hb hlive) (hs.locals hb hl)
    | joined =>
      have hlive : target.live = true := by simp [Env.live, hr]
      cases og with
      | none => exact ⟨_, _, rfl, ht, hg⟩
      | some g =>
        refine ⟨_, _, rfl, joined rfl fun hb => ?_, hg⟩
        unfold joinMore
        exact length_joinLocals (ht.locals hb hlive) (hs.locals hb hl)
  · exact ⟨target, og, by simp [hl], ht, hg⟩

/-! ## Targets and choices of a stack -/

namespace Frames

theorem set {k : Nat} {target : Target} (h : Frames ctx built m stack bs cs) (hb : bs[k]? = some target) :
    ∃ m' : Prop, (m → m') ∧ target.env.Open ctx built m' ∧ ∀ target' : Target,
      target'.isHeader = target.isHeader → target'.env.Open ctx built m' →
        Frames ctx built m stack (bs.set k target') cs := by
  induction h generalizing k with
  | nil => cases hb
  | other hp hd h ih =>
    obtain ⟨m', hm, ho, hset⟩ := ih hb
    exact ⟨m', hm, ho, fun t hk ht => .other hp (by simpa using hd) (hset t hk ht)⟩
  | @block m _ _ _ _ _ j hp hj hm h ih =>
    cases k with
    | zero =>
      cases hb
      refine ⟨m, id, hj, fun t hk ht => ?_⟩
      cases t with
      | header e => cases hk
      | exit j => exact .block hp ht hm h
    | succ k =>
      obtain ⟨m', hm', ho, hset⟩ := ih hb
      exact ⟨m', hm' ∘ hm, ho, fun t hk ht => .block hp hj hm (hset t hk ht)⟩
  | @loop m _ _ _ _ _ e j hp he hj hm h ih =>
    match k with
    | 0 =>
      cases hb
      refine ⟨m, id, he, fun t hk ht => ?_⟩
      cases t with
      | header e => exact .loop hp ht hj hm h
      | exit j => cases hk
    | 1 =>
      cases hb
      refine ⟨m, id, hj, fun t hk ht => ?_⟩
      cases t with
      | header e => cases hk
      | exit j => exact .loop hp he ht hm h
    | k + 2 =>
      obtain ⟨m', hm', ho, hset⟩ := ih hb
      exact ⟨m', hm' ∘ hm, ho, fun t hk ht => .loop hp he hj hm (hset t hk ht)⟩
  | arm hp hd ho hj hm h ih =>
    obtain ⟨m', hm', ho', hset⟩ := ih hb
    exact ⟨m', hm' ∘ hm, ho', fun t hk ht => .arm hp hd ho hj hm (hset t hk ht)⟩

theorem congr (h : Frames ctx built m (p :: stack) bs cs) (hr : q.rule = p.rule)
    (hd : p.rule = .ifThen ∨ p.rule = .ifElse → (q.done = [] ↔ p.done = [])) :
    Frames ctx built m (q :: stack) bs cs := by
  cases h with
  | other hp hb h =>
    refine .other (fun hq => ?_) (by rwa [hr]) h
    rw [hr] at hq ⊢
    exact ⟨(hp hq).1, (hd (hp hq).1).mpr (hp hq).2⟩
  | block hp hj hm h => exact .block (hr.trans hp) hj hm h
  | loop hp he hj hm h => exact .loop (hr.trans hp) he hj hm h
  | arm hp hne ho hj hm h => exact .arm (by rwa [hr]) (mt (hd hp).mp hne) ho hj hm h

section Inversion

variable (h : Frames ctx built m (p :: stack) bs cs)
include h

theorem pop (hp : p.rule.opens = true → (p.rule = .ifThen ∨ p.rule = .ifElse) ∧ p.done = []) :
    Frames ctx built m stack bs cs ∧ ∀ depth ∈ p.rule.depths, depth < bs.length := by
  cases h with
  | other _ hd h => exact ⟨h, hd⟩
  | block hr | loop hr =>
    rw [hr] at hp
    simp [Rule.opens] at hp
  | arm hr hd =>
    refine absurd (hp ?_).2 hd
    rcases hr with hr | hr <;> rw [hr] <;> rfl

theorem of_block (hr : p.rule = .block) : ∃ j bs' m', bs = .exit j :: bs' ∧ j.env.Open ctx built m ∧ (m → m') ∧
    Frames ctx built m' stack bs' cs := by
  cases h with
  | block _ hj hm h => exact ⟨_, _, _, rfl, hj, hm, h⟩
  | other hp => simp [hr, Rule.opens] at hp
  | loop hp | arm hp => simp [hr] at hp

theorem of_loop (hr : p.rule = .loop) : ∃ e j bs' m', bs = .header e :: .exit j :: bs' ∧ j.env.Open ctx built m ∧
    (m → m') ∧ Frames ctx built m' stack bs' cs := by
  cases h with
  | loop _ _ hj hm h => exact ⟨_, _, _, _, rfl, hj, hm, h⟩
  | other hp => simp [hr, Rule.opens] at hp
  | block hp | arm hp => simp [hr] at hp

theorem of_arm (hr : p.rule = .ifThen ∨ p.rule = .ifElse) (hd : p.done ≠ []) : ∃ c cs' m', cs = c :: cs' ∧
    c.otherwise.Open ctx built m ∧ c.join.env.Open ctx built m ∧ (m → m') ∧ Frames ctx built m' stack bs cs' := by
  cases h with
  | arm _ _ ho hj hm h => exact ⟨_, _, _, rfl, ho, hj, hm, h⟩
  | other hp =>
    refine absurd (hp ?_).2 hd
    rcases hr with hr | hr <;> rw [hr] <;> rfl
  | block hp | loop hp => simp [hp] at hr

end Inversion

/-- Every live environment of the targets and choices holds a node for every local. -/
theorem locals (h : Frames ctx true m stack bs cs) :
    ∀ e ∈ bs.map Target.env ++ cs.flatMap (fun c => [c.otherwise, c.join.env]),
      e.live = true → e.locals.length = ctx.types.length := by
  induction h with
  | nil => exact forall_mem_nil _
  | other _ _ _ ih => exact ih
  | block _ hj _ _ ih => exact forall_mem_cons.mpr ⟨hj.locals rfl, ih⟩
  | loop _ he hj _ _ ih => exact forall_mem_cons.mpr ⟨he.locals rfl, forall_mem_cons.mpr ⟨hj.locals rfl, ih⟩⟩
  | arm _ _ ho hj _ _ ih =>
    rw [flatMap_cons, forall_mem_append, forall_mem_append] at *
    exact ⟨ih.1, forall_mem_cons.mpr ⟨ho.locals rfl, forall_mem_singleton.mpr (hj.locals rfl)⟩, ih.2⟩

end Frames

namespace Calm

theorem refl (s : State) : Calm s s := ⟨rfl, rfl, rfl, fun h => ⟨h, rfl⟩⟩

theorem finishPath (h : Calm s s') : Calm s s'.finishPath := ⟨h.blocks, h.choices, h.graph, Bool.noConfusion⟩

theorem emit (s : State) (f : Graph → NodeId × Graph) : Calm s (s.emit f).2 := by
  unfold State.emit State.building
  split
  · exact refl s
  · rename_i h
    refine ⟨rfl, rfl, ?_, fun h => ⟨h, rfl⟩⟩
    split at h
    · rw [h]
      rfl
    · cases h

theorem emitOn (s : State) (f : Graph.Emitter) : Calm s (s.emitOn f).2 := by
  unfold State.emitOn State.building
  split
  · exact refl s
  · rename_i h
    refine ⟨rfl, rfl, ?_, fun h => ⟨h, rfl⟩⟩
    split at h
    · rw [h]
      rfl
    · cases h

theorem emitAt (s : State) (offset : Int) (f : Graph.Emitter) : Calm s (s.emitAt offset f).2 :=
  emitOn s _

end Calm

theorem leave_safely (he : s.env.Tracked ctx built m) (hg : s.graph.isSome = built)
    (ht : target.Open ctx built m') (hm : m → m') :
    Safely (leave ctx p s target) fun r => r.1.Open ctx built m' ∧ Calm s r.2 := by
  obtain ⟨env, og, hgo, ho, hog⟩ := goTo_open he ht hm hg
  unfold leave
  rw [hgo]
  refine ⟨ho, rfl, rfl, hog.trans hg.symm, fun hl => ?_⟩
  dsimp only at hl ⊢
  split at hl
  · cases hl
  · contradiction

theorem bring_safely (he : s.env.Tracked ctx built m) (hg : s.graph.isSome = built)
    (hj : j.env.Open ctx built m') (hm : m → m') :
    Safely (bring ctx p s j t) fun r => r.1.env.Open ctx built m' ∧ Calm s r.2 := by
  unfold bring
  split
  · exact ⟨hj, .refl s⟩
  · refine (leave_safely he hg hj hm).bind ?_
    rintro ⟨env, s₁⟩ hr
    dsimp only
    split
    · exact hr
    · split
      · exact hr
      · split
        · exact hr
        · split
          · exact hr
          · split
            · exact hr
            · rename_i g hg
              exact ⟨hr.1, hr.2.blocks, hr.2.choices, by rw [← hr.2.graph, hg]; rfl, hr.2.env⟩

namespace State.At

section

variable (h : s.At ctx built m stack)
include h

theorem calm (hc : Calm s s') : s'.At ctx built m stack :=
  ⟨hc.blocks ▸ hc.choices ▸ h.frames, h.env.of_live hc.env, hc.graph.trans h.graph⟩

theorem setEnv (he : e.Tracked ctx built m) : { s with env := e }.At ctx built m stack :=
  ⟨h.frames, he, h.graph⟩

theorem branchOn (c : Tree) :
    (Body.branchOn s c).1.Tracked ctx built m ∧ (Body.branchOn s c).2.1.Tracked ctx built m ∧
      (Body.branchOn s c).2.2.At ctx built m stack := by
  unfold Body.branchOn State.building
  split
  · exact ⟨h.env.split, h.env, h⟩
  · rename_i hg
    refine ⟨h.env.split.of_live fun hl => ⟨hl, rfl⟩, h.env.of_live fun hl => ⟨hl, rfl⟩, h.frames, h.env, ?_⟩
    rw [← h.graph]
    split at hg
    · rw [hg]
      rfl
    · cases hg

theorem breakTo {depth : Nat} (hd : depth < s.blocks.length) :
    Safely (Body.breakTo ctx p s depth t) fun s' => s'.At ctx built m stack := by
  have hb : s.blocks[depth]? = some s.blocks[depth] := getElem?_eq_getElem hd
  obtain ⟨m', hm, ho, hset⟩ := h.frames.set hb
  unfold Body.breakTo
  rw [hb]
  cases ht : s.blocks[depth] with
  | header e =>
    rw [ht] at ho hset
    refine (leave_safely h.env h.graph ho hm).bind ?_
    rintro ⟨env, s₁⟩ ⟨he, hc⟩
    exact ⟨hc.blocks ▸ hc.choices ▸ hset (.header env) rfl he, (h.calm hc).env, (h.calm hc).graph⟩
  | exit j =>
    rw [ht] at ho hset
    refine (bring_safely h.env h.graph ho hm).bind ?_
    rintro ⟨j', s₁⟩ ⟨he, hc⟩
    exact ⟨hc.blocks ▸ hc.choices ▸ hset (.exit j') rfl he, (h.calm hc).env, (h.calm hc).graph⟩

theorem tableCase {i : Nat}
    (he : entry.Tracked ctx built m) : (Body.tableCase entry switch last i s).At ctx built m stack := by
  unfold Body.tableCase
  split
  · exact h.setEnv he
  · split
    · exact h.setEnv he.split
    · rename_i g hg
      split
      · exact h.setEnv he.split
      · refine ⟨h.frames, he.split.of_live fun hl => ⟨hl, rfl⟩, ?_⟩
        rw [← h.graph, hg]
        rfl

end

theorem branchAll {cases : List (Nat × Nat)}
    (h : s.At ctx built m (q :: stack)) (hq : q.rule.opens = false) (he : entry.Tracked ctx built m)
    (hc : ∀ c ∈ cases, c.1 ∈ q.rule.depths) :
    Safely (Body.branchAll ctx p t entry switch last cases s) fun s' => s'.At ctx built m (q :: stack) := by
  induction cases generalizing s with
  | nil => exact h
  | cons c cases ih =>
    obtain ⟨hc, hcs⟩ := forall_mem_cons.mp hc
    have hcase : (Body.tableCase entry switch last c.2 s).At ctx built m (q :: stack) := h.tableCase he
    exact (hcase.breakTo ((hcase.frames.pop (by simp [hq])).2 _ hc)).bind fun s₁ h₁ => ih h₁ hcs

end State.At

/-! ## Reductions -/

theorem Reduces.complete_eq {p' : Pending} (h : Reduces ctx p s p' s') : p'.complete = p.complete := by
  rw [h.frame]
  rfl

section Values

variable (hd : p.done ≠ [])
include hd

theorem reduceSelect_calm (hl : p.done.length ≤ 3) : Safely (reduceSelect p s) fun r => Calm s r.2 := by
  have htype : Safely (do return (← selectType p, s) : Except Failure (Pending × State)) fun r => Calm s r.2 := by
    have h : Safely (selectType p) fun _ => True := by
      refine (lastChild_safely hd).bind fun t _ => ?_
      split
      · exact Issue.noConfusion
      · trivial
    exact h.bind fun _ _ => .pure (.refl s)
  have hpos := length_pos_iff.mpr hd
  unfold reduceSelect
  split
  · exact htype
  · split
    · exact htype
    · exact (checkLast_safely hd).bind fun _ _ => .pure (.refl s)
  · refine (checkLast_safely hd).bind fun c _ => (child_safely (by omega)).bind fun a _ =>
      (child_safely (by omega)).bind fun b _ => ?_
    dsimp only
    exact .pure (.emitOn s _)
  · rename_i h₁ h₂ h₃
    obtain h | h | h : p.done.length = 1 ∨ p.done.length = 2 ∨ p.done.length = 3 := by omega
    exacts [(h₁ h).elim, (h₂ h).elim, (h₃ h).elim]

theorem reduceReturn_calm (hl : p.done.length ≤ ctx.body.signature.results.length) :
    Safely (reduceReturn ctx p s) fun r => Calm s r.2 := by
  have hpos := length_pos_iff.mpr hd
  refine (expectedAt_safely (by omega)).bind fun τ _ => (checkLast_safely hd).bind fun _ _ => ?_
  split
  · exact .pure (.refl s)
  · dsimp only
    exact .pure (Calm.emitOn s _).finishPath

theorem reduceCallIndirect_calm {signature : Nat} (hl : p.done.length ≤ 1 + sig.params.length) :
    Safely (reduceCallIndirect p s signature sig) fun r => Calm s r.2 := by
  have hpos := length_pos_iff.mpr hd
  refine (expectedAt_safely (by rw [length_cons]; omega)).bind fun τ _ => (checkLast_safely hd).bind fun _ _ => ?_
  split
  · exact .pure (.refl s)
  · split
    · exact absurd (map_eq_nil_iff.mp ‹_›) hd
    · dsimp only
      exact .pure (.emitAt s _ _)

theorem reduceNumeric_calm (hl : p.done.length ≤ sig.params.length) :
    Safely (reduceNumeric p s sig) fun r => Calm s r.2 := by
  have hpos := length_pos_iff.mpr hd
  refine (expectedAt_safely (by omega)).bind fun τ _ => (checkLast_safely hd).bind fun _ _ => ?_
  split
  · exact .pure (.refl s)
  · split
    · dsimp only
      exact .pure (.emitAt s _ _)
    · dsimp only
      exact .pure (.emitAt s _ _)
    · exact absurd (map_eq_nil_iff.mp ‹_›) hd

theorem reduceAccess_calm {a : MemoryAccess} {offset : Nat} (hl : a.store = true → p.arity = 2) :
    Safely (reduceAccess p s a offset) fun r => Calm s r.2 := by
  have hpos := length_pos_iff.mpr hd
  refine (checkLast_safely hd).bind fun _ _ => ?_
  split
  · exact .pure (.refl s)
  · rename_i hc
    split
    · exact .pure (.refl s)
    · refine (child_safely hpos).bind fun i _ => ?_
      split
      · rename_i ha
        have hlen : 1 < p.done.length := by
          rw [Pending.complete, hl ha] at hc
          simp only [Bool.not_eq_true, Bool.not_eq_false', decide_eq_true_eq] at hc
          omega
        refine (child_safely hlen).bind fun v _ => ?_
        dsimp only
        exact .pure (.emitAt s _ _)
      · dsimp only
        exact .pure (.emitAt s _ _)

omit hd in
theorem reduceCall_calm {function : Nat} (hl : p.done.length ≤ sig.params.length) :
    Safely (reduceCall p s function sig) fun r => Calm s r.2 := by
  have hrest : Safely (if (!p.complete) = true then pure (p, s) else
      let r := s.emitAt p.offset fun g c => g.emitCall c function sig (childNodes p)
      pure ({ p with node := r.1 }, r.2) : Except Failure (Pending × State)) fun r => Calm s r.2 := by
    split
    · exact .pure (.refl s)
    · dsimp only
      exact .pure (.emitAt s _ _)
  unfold reduceCall
  cases he : p.done.isEmpty with
  | true => exact hrest
  | false =>
    have hd : p.done ≠ [] := by simpa using he
    have hpos := length_pos_iff.mpr hd
    exact (expectedAt_safely (by omega)).bind fun τ _ => (checkLast_safely hd).bind fun _ _ => hrest

end Values

/-- What an expression without targets and choices of its own does to a state. -/
theorem State.At.reduce (h : s.At ctx built m (p :: stack)) (ho : p.rule.opens = false) (hp : p.Regular ctx)
    (hl : p.done.length ≤ p.arity) (hd : p.done = [] → ∃ f sig, p.rule = .call f sig) :
    Safely (Body.reduce ctx p s) fun r => r.2.At ctx built m (p :: stack) := by
  have hpop := (h.frames.pop (by simp [ho])).2
  have hcall (hn : ∀ f sig, p.rule ≠ .call f sig) : p.done ≠ [] := by
    intro he
    obtain ⟨f, sig, hf⟩ := hd he
    exact hn f sig hf
  have calm {y : Except Failure (Pending × State)} (hy : Safely y fun r => Calm s r.2) :
      Safely y fun r => r.2.At ctx built m (p :: stack) := hy.mono fun r hr => h.calm hr
  have hw : p.done.length ≤ (p.wants ctx).length := hp.symm ▸ hl
  unfold Pending.Regular at hp
  unfold Pending.wants at hp hw
  unfold Body.reduce
  cases hr : p.rule with
  | block | loop | ifThen | ifElse =>
    rw [hr] at ho
    cases ho
  | br depth =>
    rw [hr] at hcall hpop
    exact (lastChild_safely (hcall nofun)).bind fun v _ =>
      (h.breakTo (hpop depth mem_cons_self)).bind fun s₁ h₁ => .pure h₁
  | brIf depth =>
    rw [hr] at hcall hpop
    unfold reduceBrIf
    dsimp only
    split
    · exact .pure h
    · rename_i hc
      have hpos := length_pos_iff.mpr (hcall nofun)
      refine (checkLast_safely (hcall nofun)).bind fun c _ => ?_
      obtain ⟨hholds, hfails, hs⟩ := h.branchOn c
      refine (child_safely hpos).bind fun v _ => ((hs.setEnv hholds).breakTo ?_).bind fun s₁ h₁ => ?_
      · rw [branchOn_blocks]
        exact hpop depth mem_cons_self
      · exact .pure (h₁.setEnv hfails)
  | brTable depths =>
    rw [hr] at hcall hpop
    unfold reduceBrTable
    dsimp only
    split
    · exact .pure h
    · have hpos := length_pos_iff.mpr (hcall nofun)
      refine (checkLast_safely (hcall nofun)).bind fun k _ => (child_safely hpos).bind fun v _ =>
        Safely.bind (P := fun s' => s'.At ctx built m (p :: stack)) ?_ fun s₁ h₁ =>
          .pure (h₁.setEnv (Env.tracked_of_dead rfl))
      refine State.At.branchAll ?_ ho h.env.split fun c hc => ?_
      · split
        · exact h
        · exact h.calm (.emit s _)
      · rw [hr]
        exact mem_of_getElem? (mem_zipIdx_iff_getElem?.mp hc)
  | select =>
    rw [hr] at hcall hw
    exact calm (reduceSelect_calm (hcall nofun) hw)
  | ret =>
    rw [hr] at hcall hw
    exact calm (reduceReturn_calm (hcall nofun) (by simpa using hw))
  | setLocal index τ =>
    rw [hr] at hcall
    refine calm ((checkLast_safely (hcall nofun)).bind fun v _ => .pure ⟨rfl, rfl, rfl, ?_⟩)
    dsimp only
    split
    · exact fun hl => ⟨hl, length_set⟩
    · exact fun hl => ⟨hl, rfl⟩
  | setGlobal index =>
    rw [hr] at hcall
    refine calm ((checkLast_safely (hcall nofun)).bind fun v _ => ?_)
    dsimp only
    exact .pure (.emitOn s _)
  | call function sig =>
    rw [hr] at hw
    exact calm (reduceCall_calm (by simpa using hw))
  | callIndirect signature sig =>
    rw [hr] at hcall hw
    exact calm (reduceCallIndirect_calm (hcall nofun) (by simpa [Nat.add_comm 1] using hw))
  | growMemory =>
    rw [hr] at hcall
    refine calm ((checkLast_safely (hcall nofun)).bind fun v _ => ?_)
    dsimp only
    exact .pure (.emitOn s _)
  | numeric sig =>
    rw [hr] at hcall hw
    exact calm (reduceNumeric_calm (hcall nofun) (by simpa using hw))
  | access a offset =>
    rw [hr] at hcall hp
    exact calm (reduceAccess_calm (hcall nofun) fun ha => by simpa [ha] using hp.symm)

/-- A block ends with what was brought to its end. -/
theorem closeBlock_safely (he : s.env.Tracked ctx built m) (hg : s.graph.isSome = built)
    (hb : s.blocks = .exit j :: bs) (hj : j.env.Open ctx built m) (hd : p.done ≠ []) (hm : m → m')
    (hf : Frames ctx built m' stack bs s.choices) :
    Safely (closeBlock ctx p s) fun r => r.2.At ctx built m' stack := by
  unfold closeBlock
  rw [hb]
  refine (lastChild_safely hd).bind fun v _ => (bring_safely he hg hj id).bind ?_
  rintro ⟨j', s₁⟩ ⟨hj', hc⟩
  exact .pure ⟨hc.choices ▸ hf, hj'.toTracked.imp hm, hc.graph.trans hg⟩

namespace State.At

theorem openChoice (h : s.At ctx built m stack) (hr : p.rule = .ifThen ∨ p.rule = .ifElse) (hd : p.done ≠ []) :
    Safely (Body.openChoice p s) fun s' => s'.At ctx built (s.env.live = true) (p :: stack) := by
  refine (checkLast_safely hd).bind fun c _ => ?_
  have hlive : ∀ e : Env, e.live = s.env.live → e.Tracked ctx built m → e.Open ctx built (s.env.live = true) := by
    intro e he ht
    rw [← he]
    exact ht.opened
  obtain ⟨hholds, hfails, hs⟩ := h.branchOn c
  have hfalse := hlive _ (branchOn_fails_live c) hfails
  refine .pure ⟨.arm hr hd hfalse Env.open_unreached h.env.live hs.frames, ?_, hs.graph⟩
  exact (hlive _ (branchOn_live c) hholds).toTracked

def after (p : Pending) (stack : List Pending) : List Pending := if p.complete then stack else p :: stack

section Arms

variable (h : s.At ctx built m (p :: stack)) (t : Tree)
include h

theorem condition (hr : p.rule = .ifThen ∨ p.rule = .ifElse) (hd : p.done = []) (ha : 1 < p.arity) :
    Safely (Body.openChoice (p.add [t]) s) fun s' => ∃ m', s'.At ctx built m' (after (p.add [t]) stack) := by
  have hs : s.At ctx built m stack := ⟨(h.frames.pop fun _ => ⟨hr, hd⟩).1, h.env, h.graph⟩
  have hc : (p.add [t]).complete = false := by simpa [Pending.complete, hd] using ha
  have hr' : (p.add [t]).rule = .ifThen ∨ (p.add [t]).rule = .ifElse := hr
  rw [after, hc]
  exact (hs.openChoice hr' (by simp)).mono fun s' hs' => ⟨_, hs'⟩

theorem reduceIf (hr : p.rule = .ifThen) (ha : p.arity = 2) (hl : p.done.length < p.arity) :
    Safely (Body.reduceIf ctx (p.add [t]) s) fun r => ∃ m', r.2.At ctx built m' (after (p.add [t]) stack) := by
  unfold Body.reduceIf
  match hd : p.done with
  | [] =>
    have hlen : (p.add [t]).done.length = 1 := by simp [hd]
    rw [hlen]
    exact (h.condition t (.inl hr) hd (by omega)).bind fun s' hs' => .pure hs'
  | [_] =>
    have hlen : (p.add [t]).done.length = 2 := by simp [hd]
    have hc : (p.add [t]).complete = true := by simp [Pending.complete, hd, ha]
    obtain ⟨c, cs, m', hcs, ho, -, hm, hf⟩ := h.frames.of_arm (.inl hr) (by simp [hd])
    rw [hlen, hcs, after, hc]
    refine (leave_safely h.env h.graph ho id).bind ?_
    rintro ⟨env, s₁⟩ ⟨he, hc⟩
    exact .pure ⟨m', hc.blocks ▸ hf, he.toTracked.imp hm, hc.graph.trans h.graph⟩
  | _ :: _ :: _ =>
    rw [hd, ha] at hl
    simp only [length_cons] at hl
    omega

theorem reduceIfElse (hr : p.rule = .ifElse) (ha : p.arity = 3) (hl : p.done.length < p.arity) :
    Safely (Body.reduceIfElse ctx (p.add [t]) s) fun r => ∃ m', r.2.At ctx built m' (after (p.add [t]) stack) := by
  have hne : (p.add [t]).done ≠ [] := by simp
  unfold Body.reduceIfElse
  match hd : p.done with
  | [] =>
    have hlen : (p.add [t]).done.length = 1 := by simp [hd]
    rw [hlen]
    exact (h.condition t (.inr hr) hd (by omega)).bind fun s' hs' => .pure hs'
  | [_] =>
    have hlen : (p.add [t]).done.length = 2 := by simp [hd]
    have hc : (p.add [t]).complete = false := by simp [Pending.complete, hd, ha]
    obtain ⟨c, cs, m', hcs, ho, hj, hm, hf⟩ := h.frames.of_arm (.inr hr) (by simp [hd])
    rw [hlen, hcs, after, hc]
    refine (lastChild_safely hne).bind fun v _ => (bring_safely h.env h.graph hj id).bind ?_
    rintro ⟨j, s₁⟩ ⟨hj', hc⟩
    exact .pure ⟨m, .arm (.inr hr) hne ho hj' hm (hc.blocks ▸ hf), ho.toTracked, hc.graph.trans h.graph⟩
  | [_, _] =>
    have hlen : (p.add [t]).done.length = 3 := by simp [hd]
    have hc : (p.add [t]).complete = true := by simp [Pending.complete, hd, ha]
    obtain ⟨c, cs, m', hcs, -, hj, hm, hf⟩ := h.frames.of_arm (.inr hr) (by simp [hd])
    rw [hlen, hcs, after, hc]
    refine (lastChild_safely hne).bind fun v _ => (bring_safely h.env h.graph hj id).bind ?_
    rintro ⟨j, s₁⟩ ⟨hj', hc⟩
    exact .pure ⟨m', hc.blocks ▸ hf, hj'.toTracked.imp hm, hc.graph.trans h.graph⟩
  | _ :: _ :: _ :: _ =>
    rw [hd, ha] at hl
    simp only [length_cons] at hl
    omega

/-- Attaching a child that an expression waits for is safe, and the state goes with what is left of the stack. -/
theorem child (hw : p.Waiting ctx) :
    Safely (Body.reduce ctx (p.add [t]) s) fun r => ∃ m', r.2.At ctx built m' (after (p.add [t]) stack) := by
  have hne : (p.add [t]).done ≠ [] := by simp
  have hlt : p.done.length < p.arity := by
    have := hw.2
    unfold Pending.missing at this
    omega
  by_cases ho : p.rule.opens = false
  · have hq : s.At ctx built m (p.add [t] :: stack) :=
      ⟨h.frames.congr rfl (by rintro (hr | hr) <;> rw [hr] at ho <;> cases ho), h.env, h.graph⟩
    have hle : (p.add [t]).done.length ≤ p.arity := by
      rw [Pending.add_done, length_append]
      exact hlt
    refine (hq.reduce ho hw.1 hle (absurd · hne)).mono fun r hs => ⟨m, ?_⟩
    unfold after
    split
    · exact ⟨(hs.frames.pop (by simp [ho])).1, hs.env, hs.graph⟩
    · exact hs
  · have hwait (hr : p.rule ≠ .ifThen ∧ p.rule ≠ .ifElse) (hc : (p.add [t]).complete = false) :
        s.At ctx built m (after (p.add [t]) stack) := by
      rw [after, hc]
      exact ⟨h.frames.congr rfl (by rintro (h | h) <;> simp [h] at hr), h.env, h.graph⟩
    have ha : (p.wants ctx).length = p.arity := hw.1
    unfold Pending.wants at ha
    unfold Body.reduce
    rw [Pending.add_rule]
    cases hr : p.rule with
    | block =>
      dsimp only
      split
      · rename_i hc
        obtain ⟨j, bs, m', hb, hj, hm, hf⟩ := h.frames.of_block hr
        rw [after, hc]
        exact Safely.mono (closeBlock_safely h.env h.graph hb hj hne hm hf) fun r hs => ⟨m', hs⟩
      · rename_i hc
        exact ⟨m, hwait (by simp [hr]) (by simpa using hc)⟩
    | loop =>
      dsimp only
      split
      · rename_i hc
        obtain ⟨e, j, bs, m', hb, hj, hm, hf⟩ := h.frames.of_loop hr
        rw [after, hc, hb]
        exact Safely.mono (closeBlock_safely (s := { s with blocks := .exit j :: bs }) h.env h.graph rfl hj hne hm hf)
          fun r hs => ⟨m', hs⟩
      · rename_i hc
        exact ⟨m, hwait (by simp [hr]) (by simpa using hc)⟩
    | ifThen =>
      rw [hr] at ha
      exact h.reduceIf t hr ha.symm hlt
    | ifElse =>
      rw [hr] at ha
      exact h.reduceIfElse t hr ha.symm hlt
    | _ =>
      rw [hr] at ho
      exact absurd rfl ho

end Arms

theorem openBlock (h : s.At ctx built m stack) (ht : ctx.types = ctx.body.localTypes) (offset : Int) {isLoop : Bool}
    (hr : p.rule = if isLoop then .loop else .block) :
    (Body.openBlock ctx s offset isLoop).At ctx built (s.env.live = true) (p :: stack) := by
  have hexit := h.env.open_vacate
  have hin : s.env.split.Open ctx built (s.env.live = true) := by
    have hin := h.env.split.opened
    rwa [Env.split_live] at hin
  unfold Body.openBlock
  cases isLoop with
  | false => exact ⟨.block hr hexit h.env.live h.frames, hin.toTracked, h.graph⟩
  | true =>
    dsimp only
    rw [if_neg (by simp)]
    split
    · exact ⟨.loop hr hin hexit h.env.live h.frames, hin.toTracked.split, h.graph⟩
    · rename_i hl
      have hl : s.env.split.live = true := by simpa using hl
      have header {e : Env} (he : e.reach = .joined) (hn : built = true → e.locals.length = ctx.types.length) :
          e.Open ctx built (s.env.live = true) := by
        refine ⟨⟨fun _ => by rwa [Env.split_live] at hl, fun hb _ => hn hb⟩, fun _ => ?_⟩
        rw [he]
        exact Reach.noConfusion
      split
      · have hhead := header (e := { s.env.split with reach := .joined }) rfl fun hb => hin.locals hb hl
        exact ⟨.loop hr hhead hexit h.env.live h.frames, hhead.toTracked.split, h.graph⟩
      · rename_i g hg
        have hassigned : ∀ l ∈ (if ctx.loopAnalysis then assignedInLoop ctx.body offset else none),
            l.length = ctx.types.length := by
          intro l hl
          split at hl
          · rw [ht]
            exact length_assignedInLoop hl
          · cases hl
        have hhead := header rfl fun hb => length_openLoop (g := g) (hin.locals hb hl) hassigned
        refine ⟨.loop hr hhead hexit h.env.live h.frames, hhead.toTracked.split, ?_⟩
        rw [← h.graph, hg]
        rfl

theorem push (h : s.At ctx built m stack)
    (hp : p.rule.opens = true → (p.rule = .ifThen ∨ p.rule = .ifElse) ∧ p.done = [])
    (hd : ∀ depth ∈ p.rule.depths, depth < s.blocks.length) : s.At ctx built m (p :: stack) :=
  ⟨.other hp hd h.frames, h.env, h.graph⟩

end State.At

theorem enter_ne_internal {i j : Input} {f : Failure} (ho : readOperands x.opcode.form i = .ok (x.operands, j))
    (h : enter ctx s x = .error f) : f.issue ≠ .internal := by
  simp only [enter] at h
  split at h <;> (repeat' split at h) <;> cases h <;> try exact Issue.noConfusion
  -- what is left are operands of another kind than the opcode has
  exfalso
  cases hf : x.opcode.form with
  | access =>
    rw [hf] at ho
    obtain ⟨_, _, -, ho⟩ := Reader.bind_eq_ok.mp ho
    obtain ⟨_, _, -, ho⟩ := Reader.bind_eq_ok.mp ho
    have hops := (Reader.pure_eq_ok.mp ho).1.symm
    grind
  | nop | ifThen | ifElse | select | ret | unreachable | growMemory | memorySize | numeric | undefined => grind
  | _ =>
    rw [hf] at ho
    obtain ⟨_, _, -, ho⟩ := Reader.bind_eq_ok.mp ho
    have hops := (Reader.pure_eq_ok.mp ho).1.symm
    grind

/-- An instruction begins safely, and the state goes with the stack on which its expression waits. -/
theorem State.At.enter {i j : Input} (h : s.At ctx built m stack) (ht : ctx.types = ctx.body.localTypes)
    (ho : readOperands x.opcode.form i = .ok (x.operands, j)) : Safely (Body.enter ctx s x) fun
      | .leaf _ s' => s'.At ctx built m stack
      | .wait p s' => (∃ m', s'.At ctx built m' (p :: stack)) ∧ (p.arity = 0 → ∃ f sig, p.rule = .call f sig) := by
  cases he : Body.enter ctx s x with
  | error f => exact enter_ne_internal ho he
  | ok r =>
    cases begins_of_enter he with
    | nothing | getLocal => exact h
    | retNothing => exact h.calm (Calm.emitOn s _).finishPath
    | unreachable => exact h.calm (Calm.emitAt s _ _).finishPath
    | constant => exact h.calm (.emit s _)
    | getGlobal => exact h.calm (.emitOn s _)
    | block hn => exact ⟨⟨_, h.openBlock ht _ rfl⟩, (absurd · hn)⟩
    | loop hn => exact ⟨⟨_, h.openBlock ht _ rfl⟩, (absurd · hn)⟩
    | ifThen => exact ⟨⟨m, h.push (fun _ => ⟨.inl rfl, rfl⟩) (forall_mem_nil _)⟩, (absurd · (Nat.succ_ne_zero _))⟩
    | ifElse => exact ⟨⟨m, h.push (fun _ => ⟨.inr rfl, rfl⟩) (forall_mem_nil _)⟩, (absurd · (Nat.succ_ne_zero _))⟩
    | br hd | brIf hd =>
      exact ⟨⟨m, h.push Bool.noConfusion (forall_mem_singleton.mpr hd)⟩, (absurd · (Nat.succ_ne_zero _))⟩
    | brTable hd => exact ⟨⟨m, h.push Bool.noConfusion hd⟩, (absurd · (Nat.succ_ne_zero _))⟩
    | select | setLocal | setGlobal | growMemory =>
      exact ⟨⟨m, h.push Bool.noConfusion (forall_mem_nil _)⟩, (absurd · (Nat.succ_ne_zero _))⟩
    | ret hr => exact ⟨⟨m, h.push Bool.noConfusion (forall_mem_nil _)⟩, fun h0 => absurd (length_eq_zero_iff.mp h0) hr⟩
    | call => exact ⟨⟨m, h.push Bool.noConfusion (forall_mem_nil _)⟩, fun _ => ⟨_, _, rfl⟩⟩
    | callIndirect =>
      refine ⟨⟨m, h.push Bool.noConfusion (forall_mem_nil _)⟩, fun h0 => ?_⟩
      rw [Instruction.await, Nat.add_comm] at h0
      cases h0
    | access =>
      refine ⟨⟨m, h.push Bool.noConfusion (forall_mem_nil _)⟩, fun h0 => ?_⟩
      unfold Instruction.await MemoryAccess.arity at h0
      split at h0 <;> cases h0
    | numeric hf =>
      refine ⟨⟨m, h.push Bool.noConfusion (forall_mem_nil _)⟩, fun h0 => ?_⟩
      exact absurd (length_eq_zero_iff.mp h0) (Opcode.params_ne_nil_of_numeric? (Opcode.numeric?_of_form hf))

/-! ## Runs -/

variable {s₀ : State} {i₀ i : Input} {root : Option Tree}

section Runs

variable (ht : ctx.types = ctx.body.localTypes) (h₀ : s₀.At ctx built True [])
include ht h₀

end Runs

end ProtoWasm.Body
