import ProtoWasm.Proofs.Body.Reduction

/-! # What joins change

A path that goes on to a join ends, and only if control gets to it is anything joined. The ways in
which a value is brought to a join are listed once; branches change nothing but the environment, the
graph and the targets they go to.
-/
namespace ProtoWasm.Body

variable {ctx : Context} {p : Pending} {s s' : State} {g : Graph} {t : Tree} {depth : Nat} {target env : Env}
  {j j' : Join}

namespace Env

@[simp] theorem unreached_live : unreached.live = false := rfl

@[simp] theorem split_live (e : Env) : e.split.live = e.live := by
  unfold split
  split
  · rename_i h
    exact h.symm
  · rename_i h
    simp [h]

theorem vacate_live (e : Env) : e.vacate.live = false := by
  unfold vacate
  split
  · rfl
  · rename_i h
    simpa using h

@[simp] theorem setControl_live (e : Env) (n : NodeId) : (e.setControl n).live = e.live := rfl

end Env

namespace State

@[simp] theorem emit_env (f : Graph → NodeId × Graph) : (s.emit f).2.env = s.env := by
  unfold emit
  split <;> rfl

@[simp] theorem emit_blocks (f : Graph → NodeId × Graph) : (s.emit f).2.blocks = s.blocks := by
  unfold emit
  split <;> rfl

@[simp] theorem emit_choices (f : Graph → NodeId × Graph) : (s.emit f).2.choices = s.choices := by
  unfold emit
  split <;> rfl

variable (f : Graph.Emitter)

@[simp] theorem emitOn_live : (s.emitOn f).2.env.live = s.env.live := by
  unfold emitOn
  split <;> rfl

@[simp] theorem emitOn_blocks : (s.emitOn f).2.blocks = s.blocks := by
  unfold emitOn
  split <;> rfl

@[simp] theorem emitOn_choices : (s.emitOn f).2.choices = s.choices := by
  unfold emitOn
  split <;> rfl

theorem building_of_dead (hs : s.env.live = false) : s.building = none := by simp [building, hs]

theorem emit_of_dead (f : Graph → NodeId × Graph) (hs : s.env.live = false) : s.emit f = (noNode, s) := by
  simp [emit, building_of_dead hs]

theorem emitOn_of_dead (hs : s.env.live = false) : s.emitOn f = (noNode, s) := by
  simp [emitOn, building_of_dead hs]

theorem building_of_live (hs : s.env.live = true) (hg : s.graph = some g) : s.building = some g := by
  rw [building, if_pos hs, hg]

theorem emit_of_live (f : Graph → NodeId × Graph) (hs : s.env.live = true) (hg : s.graph = some g) :
    s.emit f = ((f g).1, { s with graph := some (f g).2 }) := by
  rw [emit, building_of_live hs hg]

theorem emitOn_of_live (hs : s.env.live = true) (hg : s.graph = some g) :
    s.emitOn f = ((f g s.env.chain).1, { s with
      graph := some (f g s.env.chain).2.2
      env := { s.env with chain := (f g s.env.chain).2.1 } }) := by
  rw [emitOn, building_of_live hs hg]

theorem emitAt_of_dead (offset : Int) (hs : s.env.live = false) : s.emitAt offset f = (noNode, s) :=
  emitOn_of_dead _ hs

end State

theorem branchOn_of_dead (c : Tree) (hs : s.env.live = false) :
    branchOn s c = (.unreached, s.env, s) := by
  simp [branchOn, State.building_of_dead hs, Env.split, hs]

theorem branchOn_of_live (c : Tree) (hs : s.env.live = true) (hg : s.graph = some g) :
    branchOn s c = (s.env.split.setControl (g.emitBranch c.node s.env.chain.control).1.1,
      s.env.setControl (g.emitBranch c.node s.env.chain.control).1.2,
      { s with graph := some (g.emitBranch c.node s.env.chain.control).2 }) := by
  have hb : s.building = some g := by rw [State.building, if_pos hs, hg]
  rw [branchOn, hb]

@[simp] theorem branchOn_live (c : Tree) : (branchOn s c).1.live = s.env.live := by
  unfold branchOn
  split <;> simp

@[simp] theorem branchOn_fails_live (c : Tree) : (branchOn s c).2.1.live = s.env.live := by
  unfold branchOn
  split <;> simp

theorem leave_eq_ok :
    leave ctx p s target = .ok (env, s') ↔ ∃ g, goTo ctx.types s.env target s.graph = some (env, g) ∧
      s' = { s with graph := g, env := if s.env.live then .ended else s.env } := by
  unfold leave
  cases goTo ctx.types s.env target s.graph with
  | none => simp
  | some r =>
    obtain ⟨env', g⟩ := r
    simp only [Except.ok.injEq, Prod.mk.injEq, Option.some.injEq]
    constructor
    · rintro ⟨rfl, rfl⟩
      exact ⟨g, ⟨rfl, rfl⟩, rfl⟩
    · rintro ⟨_, ⟨rfl, rfl⟩, rfl⟩
      exact ⟨rfl, rfl⟩

theorem leave_of_dead (target : Env) (hs : s.env.live = false) :
    leave ctx p s target = .ok (target, s) := by
  refine leave_eq_ok.mpr ⟨s.graph, by simp [goTo, hs], by simp [hs]⟩

section Arrival

variable {types : List ValType} {source target env : Env} {og og' : Option Graph}

theorem goTo_joined (h : goTo types source target og = some (env, og')) (hs : source.live = true)
    (ht : target.reach ≠ .unreached) : env.reach = .joined := by
  unfold goTo at h
  simp only [hs, Bool.not_true, Bool.false_eq_true, if_false] at h
  split at h
  · cases h
  · exact absurd ‹_› ht
  · split at h <;> cases h <;> rfl
  · split at h <;> cases h
    · assumption
    · rfl

theorem live_of_goTo (h : goTo types source target og = some (env, og')) (hs : source.live = true)
    (ht : target.reach ≠ .unreached) : target.live = true := by
  unfold Env.live
  cases hr : target.reach with
  | ended => simp [goTo, hs, hr] at h
  | unreached => exact absurd hr ht
  | once | joined => rfl

end Arrival

inductive Brings (ctx : Context) (p : Pending) (s : State) (j : Join) (t : Tree) : Join → State → Prop
  | dead (hs : s.env.live = false) : Brings ctx p s j t j s
  | silent {env : Env} {s₁ : State} (hs : s.env.live = true) (hl : leave ctx p s j.env = .ok (env, s₁))
    (ht : t.type = .unreachable) : Brings ctx p s j t { j with env } s₁
  | first {env : Env} {s₁ : State} (hs : s.env.live = true) (hl : leave ctx p s j.env = .ok (env, s₁))
    (ht : t.type ≠ .unreachable) (hj : j.env.reach = .unreached) :
    Brings ctx p s j t ⟨env, t.type, t.node⟩ s₁
  | clash {env : Env} {s₁ : State} (hs : s.env.live = true) (hl : leave ctx p s j.env = .ok (env, s₁))
    (ht : t.type ≠ .unreachable) (hj : j.env.reach ≠ .unreached) (hn : t.type ≠ j.type) :
    Brings ctx p s j t ⟨env, .void, noNode⟩ s₁
  | same {env : Env} {s₁ : State} (hs : s.env.live = true) (hl : leave ctx p s j.env = .ok (env, s₁))
    (ht : t.type ≠ .unreachable) (hj : j.env.reach ≠ .unreached) (hn : t.type = j.type)
    (hv : j.type = .void ∨ s₁.graph = none) : Brings ctx p s j t { j with env } s₁
  | merge {env : Env} {s₁ : State} {g : Graph} (hs : s.env.live = true)
    (hl : leave ctx p s j.env = .ok (env, s₁)) (ht : t.type ≠ .unreachable)
    (hj : j.env.reach ≠ .unreached) (hn : t.type = j.type) (hv : j.type ≠ .void)
    (hg : s₁.graph = some g) :
    Brings ctx p s j t ⟨env, j.type, (extendValue g j.type env.chain.control j.node t.node).1⟩
      { s₁ with graph := some (extendValue g j.type env.chain.control j.node t.node).2 }

theorem brings_of_bring (h : bring ctx p s j t = .ok (j', s')) : Brings ctx p s j t j' s' := by
  unfold bring at h
  by_cases hs : s.env.live = true
  · simp only [hs, Bool.not_true, Bool.false_eq_true, if_false] at h
    obtain ⟨⟨env, s₁⟩, hl, h⟩ := bind_eq_ok.mp h
    dsimp only at h
    split at h
    · rename_i ht
      cases h
      exact .silent hs hl ht
    · rename_i ht
      split at h
      · rename_i hj
        cases h
        exact .first hs hl ht hj
      · rename_i hj
        split at h
        · rename_i hn
          cases h
          exact .clash hs hl ht hj hn
        · rename_i hn
          have hn : t.type = j.type := Decidable.of_not_not hn
          split at h
          · rename_i hv
            cases h
            exact .same hs hl ht hj hn (.inl hv)
          · rename_i hv
            cases hg : s₁.graph with
            | none =>
              rw [hg] at h
              cases h
              exact .same hs hl ht hj hn (.inr hg)
            | some g =>
              rw [hg] at h
              cases h
              exact .merge hs hl ht hj hn hv hg
  · simp only [hs, Bool.not_false, if_true] at h
    cases h
    exact .dead (by simpa using hs)

theorem leave_frame (h : leave ctx p s target = .ok (env, s')) :
    s'.blocks = s.blocks ∧ s'.choices = s.choices := by
  obtain ⟨g, -, rfl⟩ := leave_eq_ok.mp h
  exact ⟨rfl, rfl⟩

theorem leave_live (h : leave ctx p s target = .ok (env, s')) : s'.env.live = false := by
  obtain ⟨g, -, rfl⟩ := leave_eq_ok.mp h
  dsimp only
  split
  · rfl
  · rename_i hs
    simpa using hs

theorem Brings.live (h : Brings ctx p s j t j' s') : s'.env.live = false := by
  cases h with
  | dead hs => exact hs
  | silent _ hl | first _ hl | clash _ hl | same _ hl => exact leave_live hl
  | merge _ hl =>
    have h := leave_live hl
    exact h

theorem Brings.frame (h : Brings ctx p s j t j' s') :
    s'.blocks = s.blocks ∧ s'.choices = s.choices := by
  cases h with
  | dead => exact ⟨rfl, rfl⟩
  | silent _ hl | first _ hl | clash _ hl | same _ hl => exact leave_frame hl
  | merge _ hl => exact ⟨(leave_frame hl).1, (leave_frame hl).2⟩

inductive Breaks (ctx : Context) (p : Pending) (s : State) (depth : Nat) (t : Tree) : State → Prop
  | header {target env : Env} {s₁ : State} (hb : s.blocks[depth]? = some (.header target))
    (hl : leave ctx p s target = .ok (env, s₁)) :
    Breaks ctx p s depth t { s₁ with blocks := s.blocks.set depth (.header env) }
  | exit {j j' : Join} {s₁ : State} (hb : s.blocks[depth]? = some (.exit j))
    (hj : Brings ctx p s j t j' s₁) :
    Breaks ctx p s depth t { s₁ with blocks := s.blocks.set depth (.exit j') }

theorem breaks_of_breakTo (h : breakTo ctx p s depth t = .ok s') : Breaks ctx p s depth t s' := by
  unfold breakTo at h
  split at h
  · cases h
  · rename_i hb
    obtain ⟨⟨env, s₁⟩, hl, h⟩ := bind_eq_ok.mp h
    cases h
    rw [(leave_frame hl).1]
    exact .header hb hl
  · rename_i hb
    obtain ⟨⟨j', s₁⟩, hj, h⟩ := bind_eq_ok.mp h
    have hj := brings_of_bring hj
    cases h
    rw [hj.frame.1]
    exact .exit hb hj

theorem Breaks.choices (h : Breaks ctx p s depth t s') : s'.choices = s.choices := by
  cases h with
  | header _ hl => exact (leave_frame hl).2
  | exit _ hj => exact hj.frame.2

theorem Breaks.live (h : Breaks ctx p s depth t s') : s'.env.live = false := by
  cases h with
  | header _ hl =>
    have h := leave_live hl
    exact h
  | exit _ hj => exact hj.live

theorem Brings.of_dead (h : Brings ctx p s j t j' s') (hs : s.env.live = false) :
    j' = j ∧ s' = s := by
  cases h with
  | dead => exact ⟨rfl, rfl⟩
  | silent h | first h | clash h | same h | merge h => rw [hs] at h; cases h

theorem set_of_getElem? {ts : List Target} {i : Nat} {t : Target} (h : ts[i]? = some t) :
    ts.set i t = ts := by
  obtain ⟨hi, rfl⟩ := List.getElem?_eq_some_iff.mp h
  exact List.set_getElem_self hi

theorem Breaks.of_dead (h : Breaks ctx p s depth t s') (hs : s.env.live = false) : s' = s := by
  cases h with
  | header hb hl =>
    rw [leave_of_dead _ hs] at hl
    cases hl
    rw [set_of_getElem? hb]
  | exit hb hj =>
    obtain ⟨rfl, rfl⟩ := hj.of_dead hs
    rw [set_of_getElem? hb]

section Table

variable {entry : Env} {switch : NodeId} {last i : Nat}

@[simp] theorem tableCase_blocks : (tableCase entry switch last i s).blocks = s.blocks := by
  unfold tableCase
  repeat' split
  all_goals rfl

@[simp] theorem tableCase_choices : (tableCase entry switch last i s).choices = s.choices := by
  unfold tableCase
  repeat' split
  all_goals rfl

@[simp] theorem tableCase_live : (tableCase entry switch last i s).env.live = entry.live := by
  unfold tableCase
  repeat' split
  all_goals simp

theorem switch_frame {s₀ : State} {depths : List Nat} {f : Graph → NodeId × Graph}
    (hs : (switch, s₀) = if depths.length ≤ 1 then (noNode, s) else s.emit f) :
    s₀.env = s.env ∧ s₀.blocks = s.blocks ∧ s₀.choices = s.choices := by
  split at hs
  · cases hs
    exact ⟨rfl, rfl, rfl⟩
  · obtain rfl : s₀ = (s.emit f).2 := congrArg Prod.snd hs
    exact ⟨State.emit_env f, State.emit_blocks f, State.emit_choices f⟩

theorem branchAll_induction {P : State → Prop}
    (hstep : ∀ s s' depth i, P s → Breaks ctx p (tableCase entry switch last i s) depth t s' → P s')
    {cases : List (Nat × Nat)} (hs : P s)
    (h : branchAll ctx p t entry switch last cases s = .ok s') : P s' := by
  induction cases generalizing s with
  | nil =>
    cases h
    exact hs
  | cons c rest ih =>
    obtain ⟨s₁, hb, h⟩ := bind_eq_ok.mp h
    exact ih (hstep s s₁ c.1 c.2 hs (breaks_of_breakTo hb)) h

end Table

end ProtoWasm.Body
