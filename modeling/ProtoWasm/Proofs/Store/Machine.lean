import ProtoWasm.Proofs.Store.Running

/-! # Calls as a machine

Calls are followed one step at a time: code is entered, processes run, and outcomes are given back to the functions
that wait for them on a stack. What comes of a call is what the machine comes to, unless calls are nested deeper than
they are followed.
-/
namespace ProtoWasm.Store

open StoreM

inductive Control where
  | enter (e : Entry)
  | run (fr : Frame) (p : Process Outcome)
  | give (o : Outcome)
  | fail (d : Defect)

inductive Waiting where
  | caller (fr : Frame) (next : Outcome → Process Outcome)
  | via (i : InstanceId) (post : Outcome → Outcome)
  | host

structure Config where
  control : Control
  stack : List Waiting
  store : Store

def Turn.config (K : List Waiting) (s : Store) : Turn → Config
  | pass e => ⟨.enter e, K, s⟩
  | call (.give o) => ⟨.give o, K, s⟩
  | call (.enter e post) => ⟨.enter e, .via e.owner post :: K, s⟩
  | run fr p => ⟨.run fr p, K, s⟩
  | host fr p => ⟨.run fr p, .host :: K, s⟩

/-- A call of a process waits. A call by way of an instance starts at no depth. -/
def callers (e : Entry) (fr : Frame) (next : Outcome → Process Outcome) (K : List Waiting) : List Waiting :=
  if e.depth = 0 then .via e.owner id :: .caller fr next :: K else .caller fr next :: K

/-- A process goes on with an answer, or waits for the outcome of code. -/
def Plan.config {α : Type} (fr : Frame) (next : α → Process Outcome) (K : List Waiting) (s : Store) : Plan α → Config
  | give a => ⟨.run fr (next a), K, s⟩
  | enter e post => ⟨.enter e, callers e fr (fun o => next (post o)) K, s⟩

inductive Config.Step (canceled : Bool) : Config → Config → Prop
  | overflow {e K s} (hd : maxCallDepth ≤ e.depth) :
      Step canceled ⟨.enter e, K, s⟩ ⟨.give (.error (.trap .callStackOverflow 0 none)), K, s⟩
  | cancel {e K s} (hd : e.depth < maxCallDepth) (hn : canceled = true) :
      Step canceled ⟨.enter e, K, s⟩ ⟨.give (.error (.ofMark .canceled)), K, s⟩
  | turn {e K s t s'} (hd : e.depth < maxCallDepth) (hn : canceled = false) (h : turn e s = .ok (t, s')) :
      Step canceled ⟨.enter e, K, s⟩ (t.config K s')
  | stuck {e K s d} (hd : e.depth < maxCallDepth) (hn : canceled = false) (h : Store.turn e s = .error d) :
      Step canceled ⟨.enter e, K, s⟩ ⟨.fail d, K, s⟩
  | done {fr o K s} : Step canceled ⟨.run fr (.done o), K, s⟩ ⟨.give o, K, s⟩
  | ask {fr r next K s plan s'} (h : planAnswer fr r s = .ok (plan, s')) :
      Step canceled ⟨.run fr (.ask r next), K, s⟩ (plan.config fr next K s')
  | defect {fr r next K s d} (h : planAnswer fr r s = .error d) :
      Step canceled ⟨.run fr (.ask r next), K, s⟩ ⟨.fail d, K, s⟩
  | resume {fr next o K s} : Step canceled ⟨.give o, .caller fr next :: K, s⟩ ⟨.run fr (next o), K, s⟩
  | leave {i post o K s} : Step canceled ⟨.give o, .via i post :: K, s⟩ ⟨.give (post o), K, s⟩
  | leaveHost {o K s} : Step canceled ⟨.give o, .host :: K, s⟩ ⟨.give (hostOutcome o), K, s⟩

inductive Config.Reaches (canceled : Bool) : Config → Config → Prop
  | refl (c : Config) : Reaches canceled c c
  | step {c d e} (h : Config.Step canceled c d) (h' : Reaches canceled d e) : Reaches canceled c e

namespace Config

variable {canceled : Bool} {c d d' e : Config} {a : StoreM Outcome} {s : Store}

theorem Reaches.trans (h : c.Reaches canceled d) (h' : d.Reaches canceled e) : c.Reaches canceled e := by
  induction h with
  | refl c => exact h'
  | step hs _ ih => exact .step hs (ih h')

theorem Step.unique (h : c.Step canceled d) (h' : c.Step canceled d') : d = d' := by
  cases h with
  | overflow hd =>
    cases h' with
    | overflow => rfl
    | cancel hlt | turn hlt | stuck hlt => exact absurd hd (Nat.not_le.mpr hlt)
  | cancel hlt hn =>
    cases h' with
    | overflow hd => exact absurd hd (Nat.not_le.mpr hlt)
    | cancel => rfl
    | turn _ hn' | stuck _ hn' => cases hn.symm.trans hn'
  | turn hlt hn h =>
    cases h' with
    | overflow hd => exact absurd hd (Nat.not_le.mpr hlt)
    | cancel _ hn' => cases hn.symm.trans hn'
    | turn _ _ h' =>
      cases h.symm.trans h'
      rfl
    | stuck _ _ h' => cases h.symm.trans h'
  | stuck hlt hn h =>
    cases h' with
    | overflow hd => exact absurd hd (Nat.not_le.mpr hlt)
    | cancel _ hn' => cases hn.symm.trans hn'
    | turn _ _ h' => cases h.symm.trans h'
    | stuck _ _ h' =>
      cases h.symm.trans h'
      rfl
  | ask h =>
    cases h' with
    | ask h' =>
      cases h.symm.trans h'
      rfl
    | defect h' => cases h.symm.trans h'
  | defect h =>
    cases h' with
    | ask h' => cases h.symm.trans h'
    | defect h' =>
      cases h.symm.trans h'
      rfl
  | done | resume | leave | leaveHost =>
    cases h'
    rfl

def Final (c : Config) : Prop :=
  match c.control, c.stack with
  | .give _, [] => True
  | .fail _, _ => True
  | _, _ => False

theorem Final.not_step (h : c.Final) : ¬c.Step canceled d := by
  intro hs
  cases hs <;> exact h

/-- Where the machine stops does not depend on how far one follows it. -/
theorem Reaches.unique (h : c.Reaches canceled d) (hd : d.Final) (h' : c.Reaches canceled d') (hd' : d'.Final) :
    d = d' := by
  induction h with
  | refl c =>
    cases h' with
    | refl => rfl
    | step hs _ => exact absurd hs hd.not_step
  | step hs _ ih =>
    cases h' with
    | refl => exact absurd hs hd'.not_step
    | step hs' h' =>
      obtain rfl := hs.unique hs'
      exact ih hd h'

/-- The machine gives an outcome to what waits, or it ends in a defect. It need not if calls were not followed. -/
def Leads (canceled : Bool) (c : Config) (K : List Waiting) : Except Defect (Outcome × Store) → Prop
  | .ok (o, s) => c.Reaches canceled ⟨.give o, K, s⟩
  | .error d => d = .nesting ∨ ∃ K' s, c.Reaches canceled ⟨.fail d, K', s⟩

variable {K K' : List Waiting} {r : Except Defect (Outcome × Store)}

theorem Leads.of_reaches (h : c.Reaches canceled d) (hr : d.Leads canceled K r) : c.Leads canceled K r := by
  cases r with
  | ok r => exact h.trans hr
  | error x =>
    obtain hx | ⟨K', s, hx⟩ := hr
    · exact .inl hx
    · exact .inr ⟨K', s, h.trans hx⟩

theorem Leads.of_step (h : c.Step canceled d) (hr : d.Leads canceled K r) : c.Leads canceled K r :=
  hr.of_reaches (.step h (.refl d))

theorem Leads.bind {f : Outcome → StoreM Outcome}
    (h : c.Leads canceled K' (a s)) (hf : ∀ o s', Leads canceled ⟨.give o, K', s'⟩ K (f o s')) :
    c.Leads canceled K ((a >>= f) s) := by
  cases ha : a s with
  | error x =>
    rw [bind_of_error ha]
    rwa [ha] at h
  | ok r =>
    obtain ⟨o, s'⟩ := r
    rw [bind_of_ok ha]
    rw [ha] at h
    exact (hf o s').of_reaches h

theorem Leads.map {f : Outcome → Outcome} (h : c.Leads canceled K' (a s))
    (hf : ∀ o s', Step canceled ⟨.give o, K', s'⟩ ⟨.give (f o), K, s'⟩) :
    c.Leads canceled K ((do return f (← a)) s) :=
  h.bind fun o s' => .of_step (hf o s') (.refl _)

section Adequacy

variable {enter : Enter}

/-- The machine does what an evaluation does. -/
def Adequate (canceled : Bool) (enter : Enter) : Prop :=
  ∀ (e : Entry) K s, Leads canceled ⟨.enter e, K, s⟩ K (enter e.owner e.code e.params e.depth s)

theorem leads_run (h : Adequate canceled enter) (fr : Frame) (p : Process Outcome) (K : List Waiting) (s : Store) :
    Leads canceled ⟨.run fr p, K, s⟩ K (p.run (answer enter fr) s) := by
  induction p generalizing s with
  | done o => exact .step .done (.refl _)
  | ask r next ih =>
    change Leads canceled _ K ((answer enter fr r >>= fun a => (next a).run (answer enter fr)) s)
    rw [answer, bind_assoc]
    cases hplan : planAnswer fr r s with
    | error x =>
      rw [bind_of_error hplan]
      exact .inr ⟨K, s, .step (.defect hplan) (.refl _)⟩
    | ok res =>
      obtain ⟨plan, s'⟩ := res
      rw [bind_of_ok hplan]
      refine .of_step (.ask hplan) ?_
      cases plan with
      | give a => exact ih a s'
      | enter e post =>
        have hback (o : Outcome) (s₁ : Store) :
            Leads canceled ⟨.give o, .caller fr (fun o => next (post o)) :: K, s₁⟩ K
              ((next (post o)).run (answer enter fr) s₁) :=
          .of_step .resume (ih (post o) s₁)
        rw [Plan.follow, bind_assoc]
        simp only [pure_bind]
        rw [Plan.config, callers]
        split
        · exact (h e _ s').bind fun o s₁ => .of_step .leave (hback o s₁)
        · exact (h e _ s').bind hback

theorem leads_take (h : Adequate canceled enter) (t : Turn) (K : List Waiting) (s : Store) :
    Leads canceled (t.config K s) K (t.take enter s) := by
  cases t with
  | pass e => exact h e K s
  | call plan =>
    cases plan with
    | give o => exact .refl _
    | enter e post => exact (h e _ s).map fun _ _ => .leave
  | run fr p => exact leads_run h fr p K s
  | host fr p => exact (leads_run h fr p _ s).map fun _ _ => .leaveHost

theorem Adequate.enterCode (h : Adequate canceled enter) : Adequate canceled (Store.enterCode canceled enter) := by
  intro e K s
  by_cases hd : maxCallDepth ≤ e.depth
  · rw [enterCode_of_deep hd]
    exact .step (.overflow hd) (.refl _)
  have hlt := Nat.lt_of_not_le hd
  cases canceled with
  | true =>
    rw [enterCode_of_canceled hd]
    exact .step (.cancel hlt rfl) (.refl _)
  | false =>
    rw [enterCode_of_open hd, runCode]
    cases hturn : turn e s with
    | error x =>
      rw [bind_of_error hturn]
      exact .inr ⟨K, s, .step (.stuck hlt rfl hturn) (.refl _)⟩
    | ok res =>
      obtain ⟨t, s'⟩ := res
      rw [bind_of_ok hturn]
      exact .of_step (.turn hlt rfl hturn) (leads_take h t K s')

/-- By induction on how deep calls are followed. -/
theorem adequate_invoke (canceled : Bool) (fuel : Nat) : Adequate canceled (invoke canceled fuel) := by
  induction fuel with
  | zero => exact fun _ _ _ => .inl rfl
  | succ fuel ih => exact ih.enterCode

end Adequacy

def start (f : FunctionId) (params : List UInt64) (s : Store) : Config :=
  match planFunction f params s with
  | .ok (plan, s') => (Turn.call plan).config [] s'
  | .error d => ⟨.fail d, [], s⟩

theorem leads_call (f : FunctionId) (params : List UInt64) (canceled : Bool) (s : Store) :
    (start f params s).Leads canceled [] (call f params canceled s) := by
  unfold start call
  split
  · rename_i plan s' hplan
    rw [bind_of_ok hplan]
    exact leads_take (adequate_invoke canceled maxNesting) (.call plan) [] s'
  · rename_i d hplan
    rw [bind_of_error hplan]
    exact .inr ⟨[], s, .refl _⟩

end Config

end ProtoWasm.Store
