import ProtoWasm.Proofs.Store.MirroredInstances
import ProtoWasm.Proofs.Store.Registration

/-! # Sessions with and without shortcuts

What a program does with a store, one operation after the other. With and without shortcuts a session gets the same
answers as long as no call is too deep only because of shortcuts, which can be checked by following its calls. Else a
call may fail with shortcuts that returns without them.
-/
namespace ProtoWasm.Store

open StoreM

variable {s s' t : Store} {m : Module} {key : ModuleKey} {name : String} {canceled : Bool} {loose : Prop}
  {o : Outcome} {params : List UInt64} {i : InstanceId} {op : Operation} {ops : List Operation} {source : List UInt8}
  {limit : Nat} {seen : List Section}

inductive Operation where
  | compile (key : ModuleKey) (m : Module) (canceled : Bool)
  | addTable (min max : Nat)
  | addMemory (min max : Nat) (guarded : Bool)
  | addGlobal (type : GlobalType) (v : UInt64)
  | register (module field : String) (v : Extern)
  | removeName (name : String)
  | instantiate (key : ModuleKey) (m : Module) (name : String) (startDisabled canceled : Bool)
  | call (i : InstanceId) (field : String) (params : List UInt64) (canceled : Bool)
  | growMemory (i : InstanceId) (delta : Nat)
  | setGlobal (g : GlobalId) (v : UInt64)
  | closeInstance (i : InstanceId)

def addHostMemory (min max : Nat) (guarded : Bool) : Action MemoryId :=
  match Memory.create min max guarded with
  | .error r => throw (.because r)
  | .ok mem => addMemory mem

def callExport (i : InstanceId) (field : String) (params : List UInt64) (canceled : Bool) : Action (List UInt64) := do
  match (← (getInstance i : StoreM Instance)).exportedFunction? field with
  | none => return []
  | some f => Store.call f params canceled

namespace Operation

/-- What an operation answers: the results of a call, or the number of what was made. -/
def perform : Operation → Action (List UInt64)
  | compile key m canceled => do
    Store.compile key m canceled
    return []
  | addTable min max => return [.ofNat (← Store.addTable (.create min max))]
  | addMemory min max guarded => return [.ofNat (← addHostMemory min max guarded)]
  | addGlobal type v => return [.ofNat (← addHostGlobal type v)]
  | register module field v => do
    Store.register module field v
    return []
  | removeName name => do
    modify fun s => { s with names := s.names.remove name }
    return []
  | instantiate key m name startDisabled canceled =>
    return [.ofNat (← Store.instantiate key m name startDisabled canceled)]
  | call i field params canceled => callExport i field params canceled
  | growMemory i delta => return [.ofNat (← Store.growMemory i delta)]
  | setGlobal g v => do
    Store.setGlobal g v
    return []
  | closeInstance i => do
    Store.closeInstance i
    return []

/-- What a program may do with a store. What it registers is in the store, a module is instantiated with the code that
was compiled from it, and no call is too deep only because of shortcuts. -/
def Proper (s : Store) : Operation → Prop
  | addGlobal type _ => type.valType.isValue = true
  | register _ _ v => s.Has v ∧ ∀ h, v = .host h → h.Blind
  | instantiate key m name startDisabled canceled =>
    (∃ source maxPages checks, Module.decodeUnder source maxPages checks = .ok m) ∧
      (∀ c, s.cache.find? key = some c → ∃ o b, m.compile o b = .ok c) ∧
      s.StartUniform key m name startDisabled canceled
  | call i field params canceled => ∀ x f, s.instances[i]? = some x → x.exportedFunction? field = some f →
    (Config.start f params s).Uniform canceled
  | _ => True

end Operation

def performAll : List Operation → StoreM (List Outcome)
  | [] => return []
  | op :: ops => do
    let r ← op.perform.run
    return r :: (← performAll ops)

/-- Every operation is one that may be done when its turn comes. -/
def Proper : Store → List Operation → Prop
  | _, [] => True
  | s, op :: ops => op.Proper s ∧ ∀ r s', op.perform.run s = .ok (r, s') → Proper s' ops

/-! ## Names of calls -/

/-- The same results, or errors that differ in the names of failed calls only. Both have such names, or none has. -/
inductive SameCall : Outcome → Outcome → Prop
  | ok (results : List UInt64) : SameCall (.ok results) (.ok results)
  | error {e e' : Error} (h : e.bare = e'.bare) (hnamed : e.call?.isSome = e'.call?.isSome) :
      SameCall (.error e) (.error e')

/-- An error that comes with the plan has no name, and one that comes later has. -/
def Plan.Named : Plan Outcome → Prop
  | .give o => ∀ e, o = .error e → e.call? = none
  | .enter _ post => ∀ o e, post o = .error e → e.call?.isSome = true

theorem isSome_call?_nameCall {module function : String} {e : Error}
    (h : nameCall module function o = .error e) : e.call?.isSome = true := by
  cases o with
  | ok results => cases h
  | error e' =>
    cases h
    split
    · assumption
    · rfl

theorem does_planFunction_named (f : FunctionId) (params : List UInt64) :
    Does False (planFunction f params) s fun plan _ => plan.Named := by
  have hgive : ∀ r : Reason, Plan.Named (.give (.error (.because r))) := by
    rintro r e ⟨⟩
    rfl
  refine Does.bind (does_getFunction False.elim fun g _ => does_ite (does_pure (hgive _)) ?_)
  refine Does.bind (StoreM.does_getCode fun _ code _ _ => Does.bind (does_getInstance False.elim fun x _ => ?_))
  refine does_ite (does_pure (hgive _)) (does_ite (does_pure (hgive _)) ?_)
  refine Does.bind (does_expect False.elim fun c _ => does_pure ?_)
  exact fun o e h => isSome_call?_nameCall h

/-- An outcome of a call comes with its plan or later. -/
theorem eq_of_call {f : FunctionId} (h : call f params canceled s = .ok (o, s')) :
    ∃ plan s₁, planFunction f params s = .ok (plan, s₁) ∧
      (plan = .give o ∨ ∃ e post r, plan = .enter e post ∧ o = post r) := by
  have hdoes : Does False (call f params canceled) s fun o _ => ∃ plan s₁, planFunction f params s = .ok (plan, s₁) ∧
      (plan = .give o ∨ ∃ e post r, plan = .enter e post ∧ o = post r) := by
    refine Does.bind (Does.imp (plans_function 0 f params s).and_eq ?_)
    rintro plan s₁ ⟨hplan, -⟩
    cases plan with
    | give o => exact does_pure ⟨_, s₁, hplan, .inl rfl⟩
    | enter e post => exact does_then fun r _ => does_pure ⟨_, s₁, hplan, .inr ⟨e, post, r, rfl, rfl⟩⟩
  exact hdoes.of_eq h

theorem mirrors_call_named (hs : s.Mirror t) (hw : s.Wired) (f : FunctionId) (params : List UInt64) (canceled : Bool)
    (hu : (Config.start f params s).Uniform canceled) :
    MirrorsAt True SameCall (call f params canceled) (call f params canceled) s t := by
  rcases mirrors_call hs hw f params canceled hu with h | h | ⟨o, o', s', t', ho, ho', hsame, hs'⟩
  · exact .inl h
  · exact .inr (.inl h)
  refine .inr (.inr ⟨o, o', s', t', ho, ho', ?_, hs'⟩)
  cases hsame with
  | @ok x y h =>
    subst h
    exact .ok x
  | @error e e' h =>
    refine .error h ?_
    obtain ⟨plan, s₁, hplan, hcases⟩ := eq_of_call ho
    obtain ⟨plan', t₁, hplan', hcases'⟩ := eq_of_call ho'
    have hnamed := (does_planFunction_named f params).of_eq hplan
    have hnamed' := (does_planFunction_named f params).of_eq hplan'
    have halike : MirrorsAt False (Plan.Alike (SameResult Eq) 0 0) _ _ s t := mirrors_planFunction f params s t hs
    rcases halike with ⟨⟨⟩, -⟩ | ⟨d, hd, -⟩ | ⟨_, _, _, _, hp, hp', hplans, -⟩
    · cases hplan.symm.trans hd
    cases hplan.symm.trans hp
    cases hplan'.symm.trans hp'
    cases hplans with
    | give _ =>
      obtain ⟨⟨⟩⟩ | ⟨_, _, _, ⟨⟩, -⟩ := hcases
      obtain ⟨⟨⟩⟩ | ⟨_, _, _, ⟨⟩, -⟩ := hcases'
      rw [hnamed e rfl, hnamed' e' rfl]
    | enter _ _ =>
      obtain ⟨⟨⟩⟩ | ⟨_, _, r, ⟨⟩, hr⟩ := hcases
      obtain ⟨⟨⟩⟩ | ⟨_, _, r', ⟨⟩, hr'⟩ := hcases'
      rw [hnamed r e hr.symm, hnamed' r' e' hr'.symm]

/-! ## One operation -/

/-- Answers to an operation that are the same. -/
def Operation.Same : Operation → Outcome → Outcome → Prop
  | .call .. => SameCall
  | _ => SameResult Eq

theorem attempts_compile (key : ModuleKey) (m : Module) (canceled : Bool) :
    Attempts loose Eq (Store.compile key m canceled) (Store.compile key m canceled) := by
  refine attempts_get fun s log => ?_
  dsimp only [Store.plain]
  split
  · exact attempts_pure rfl
  · split
    on_goal 1 => refine (mirrors_defect _).lift.then fun _ => ?_
    -- the units are counted, and the code is kept unless one has failed
    all_goals
      refine Attempts.then (mirrors_modify fun _ log => ⟨log, rfl⟩).lift fun _ => ?_
      split
      · exact attempts_throw rfl
      · exact (mirrors_modify fun _ log => ⟨log, rfl⟩).lift

theorem mirrors_addHostGlobal (type : GlobalType) (v : UInt64) :
    Mirrors loose Eq (addHostGlobal type v) (addHostGlobal type v) :=
  (mirrors_addStorage _).then fun _ => (mirrors_addGlobal _).then fun g => (mirrors_setGlobal g v).then fun _ =>
    mirrors_pure rfl

theorem attempts_addHostMemory (min max : Nat) (guarded : Bool) :
    Attempts loose Eq (addHostMemory min max guarded) (addHostMemory min max guarded) := by
  unfold addHostMemory
  cases Memory.create min max guarded with
  | error r => exact attempts_throw rfl
  | ok mem => exact (mirrors_addMemory mem).lift

theorem mirrors_callExport {field : String} (hs : s.Mirror t)
    (hw : s.Wired) (hu : ∀ x f, s.instances[i]? = some x → x.exportedFunction? field = some f →
      (Config.start f params s).Uniform canceled) :
    MirrorsAt True SameCall (callExport i field params canceled).run (callExport i field params canceled).run s t := by
  have htries : Tries False (liftM (getInstance i) : Action Instance) s (fun x s' => s.instances[i]? = some x ∧ s' = s)
      fun _ _ => False :=
    tries_lift (does_getInstance False.elim fun x hx => ⟨hx, rfl⟩)
  refine MirrorsAt.bind ((mirrors_getInstance i).lift s t hs) ?_
  intro r r' s' t' hr hsame hs'
  cases hsame with
  | error _ => exact (htries.of_error hr).elim
  | @ok x y h =>
    subst h
    obtain ⟨hx, rfl⟩ := htries.of_ok hr
    have hfield : x.plain.exportedFunction? field = x.exportedFunction? field := rfl
    dsimp only [ExceptT.bindCont]
    rw [hfield]
    cases hf : x.exportedFunction? field with
    | none => exact mirrors_pure (.ok []) s' t' hs'
    | some f => exact mirrors_call_named hs' hw f params canceled (hu x f hx hf)

structure Ready (s : Store) : Prop where
  wired : s.Wired
  sound : s.Sound
  blind : s.BlindNames

theorem Operation.mirrors_perform (h : s.Ready) (hop : op.Proper s) (hs : s.Mirror t) :
    MirrorsAt True op.Same op.perform.run op.perform.run s t := by
  have hreturn {α : Type} {a : Action α} {f : α → List UInt64} (ha : AttemptsAt True Eq a a s t) :
      AttemptsAt True Eq (do return f (← a)) (do return f (← a)) s t := by
    refine ha.bind ?_
    rintro x _ s' t' - rfl hs'
    exact attempts_pure rfl s' t' hs'
  cases op with
  | compile key m canceled => exact hreturn (attempts_compile key m canceled s t hs)
  | addTable min max => exact hreturn ((mirrors_addTable _).lift s t hs)
  | addMemory min max guarded => exact hreturn (attempts_addHostMemory min max guarded s t hs)
  | addGlobal type v => exact hreturn ((mirrors_addHostGlobal type v).lift s t hs)
  | register module field v => exact hreturn ((mirrors_register module field v).lift s t hs)
  | removeName name => exact hreturn ((mirrors_modify fun _ log => ⟨log, rfl⟩).lift s t hs)
  | instantiate key m name startDisabled canceled =>
    obtain ⟨⟨source, maxPages, checks, hm⟩, hkey, hu⟩ := hop
    obtain ⟨seen, hb⟩ := Module.built_decodeUnder hm
    refine hreturn (attempts_instantiate hb ?_ h.wired h.sound h.blind hu hs)
    intro c hc
    obtain ⟨o, b, hcompile⟩ := hkey c hc
    exact hb.compiled hcompile
  | call i field params canceled =>
    exact mirrors_callExport hs h.wired hop
  | growMemory i delta => exact hreturn (attempts_growMemory i delta s t hs)
  | setGlobal g v => exact hreturn ((mirrors_setGlobal g v).lift s t hs)
  | closeInstance i => exact hreturn ((mirrors_closeInstance i).lift s t hs)

/-! ## Sessions -/

theorem BlindNames.publish {x : Instance} (h : s.BlindNames) (hnames : s'.names = x.publish s.names)
    (hx : ∀ n f, x.exported? n ≠ some (.host f)) : s'.BlindNames := by
  rintro f ⟨module, field, hf⟩
  rw [hnames] at hf
  rcases Instance.resolve?_publishAll hf with ⟨n, hn⟩ | hf
  · exact absurd hn (hx n f)
  · exact h f ⟨module, field, hf⟩

theorem BlindNames.same (h : s.BlindNames) (hnames : s'.names = s.names) : s'.BlindNames := by
  rintro f ⟨module, field, hf⟩
  exact h f ⟨module, field, hnames ▸ hf⟩

/-- The session goes on with the store, which works as before. -/
structure Follows (s s' : Store) : Prop where
  ready : s'.Ready
  config : s'.config = s.config

theorem Ready.refl (h : s.Ready) : s.Follows s := ⟨h, rfl⟩

theorem Ready.stays (h : s.Ready) (hs : s.Stays s') (hsound : s'.Sound) (hnames : s'.names = s.names) : s.Follows s' :=
  ⟨⟨hs.wired h.wired, hsound, h.blind.same hnames⟩, hs.config⟩

theorem Ready.evolves (h : s.Ready) (hs : s.Evolves s') : s.Follows s' :=
  h.stays hs.stays (h.sound.lives hs.lives) hs.lives.names

theorem names_of_closeInstance {u : Unit} (h : Store.closeInstance i s = .ok (u, s')) :
    s'.names = s.names := by
  have hdoes : Does False (Store.closeInstance i) s fun _ s' => s'.names = s.names := by
    refine Does.bind (does_getInstance False.elim fun x hx => ?_)
    split
    · exact does_pure rfl
    · exact does_release hx False.elim (fun _ => rfl) fun _ _ _ _ => rfl
  exact hdoes.of_eq h

theorem names_of_addHostGlobal {type : GlobalType} {v : UInt64} {g : GlobalId}
    (h : addHostGlobal type v s = .ok (g, s')) : s'.names = s.names := by
  have hdoes : Does False (addHostGlobal type v) s fun _ s' => s'.names = s.names := by
    refine Does.bind (does_modifyGet (Does.bind (does_modifyGet ?_)))
    exact Does.bind ((livesOn_setGlobal _ v _).imp fun _ s₁ h₁ => does_pure h₁.lives.names)
  exact hdoes.of_eq h

theorem Wired.addTable (h : s.Wired) (table : Table FunctionId) :
    Wired { s with tables := s.tables.push table } :=
  { h with code := fun i x c hx hc => (h.code i x c hx hc).keeps (.refl _) }

theorem Adds.config (h : Adds s m name key s') : s'.config = s.config := by
  cases h with
  | pending _ hp hs => exact hs.config.trans hp.kept.config
  | @activated s₁ s₂ x x₁ hc ha hs =>
    obtain ⟨tables, memories, hs₂⟩ := ha.eq_with
    rw [hs.config, hs₂]
    exact hc.drafted.2.kept.config

theorem follows_instantiate (hb : m.Built source limit seen)
    (hkey : s.Loaded key m) (h : s.Ready) {startDisabled : Bool} {r : Except Error InstanceId}
    (hr : Store.instantiate key m name startDisabled canceled s = .ok (r, s')) : s.Follows s' := by
  have hadds := adds_of_instantiate hb hr
  refine ⟨⟨hadds.wired hb hkey h.wired h.sound h.blind, sound_instantiate hb hr h.sound, ?_⟩, hadds.config⟩
  have hadded : Tries False (Store.instantiate key m name startDisabled canceled) s _ _ :=
    tries_instantiate_added hb startDisabled canceled
  cases r with
  | ok i =>
    obtain ⟨-, x, hx⟩ := hadded.of_ok hr
    exact h.blind.publish hx.names hx.exports.inner
  | error e =>
    obtain ⟨x, hx⟩ := hadded.of_error hr
    exact h.blind.same hx.names

/-- After an operation the session can go on. -/
theorem Operation.follows_perform (h : s.Ready) (hop : op.Proper s) :
    Does False op.perform.run s fun _ s' => s.Follows s' := by
  have htry {α : Type} {a : Action α} {f : α → List UInt64} (ha : Does False a.run s fun _ s' => s.Follows s') :
      Does False (ExceptT.run (do return f (← a))) s fun _ s' => s.Follows s' := by
    refine Does.bind (ha.imp fun r s' hs' => ?_)
    cases r with
    | ok x => exact does_pure hs'
    | error e => exact does_pure hs'
  have hlift {α : Type} {a : StoreM α} {f : α → List UInt64} (ha : Does False a s fun _ s' => s.Follows s') :
      Does False (ExceptT.run (do return f (← (liftM a : Action α)))) s fun _ s' => s.Follows s' := by
    have hrun : Tries False (liftM a : Action α) s (fun _ s' => s.Follows s') fun _ s' => s.Follows s' := tries_lift ha
    refine htry (Does.imp hrun fun r s' hs' => ?_)
    cases r with
    | ok x => exact hs'
    | error e => exact hs'
  cases op with
  | compile key m canceled =>
    refine htry (does_of_forall fun r s' hr => ?_)
    obtain ⟨cache, metrics, rfl⟩ := eq_of_compile hr
    exact h.stays { Stays.refl s with } { h.sound with } rfl
  | addTable min max => exact hlift (does_modifyGet ⟨⟨h.wired.addTable _, h.sound.addTable _, h.blind⟩, rfl⟩)
  | addMemory min max guarded =>
    refine htry ?_
    unfold addHostMemory
    cases hmem : Memory.create min max guarded with
    | error r => exact does_pure h.refl
    | ok mem =>
      have hstays : s.Stays { s with memories := s.memories.push mem } := { Stays.refl s with }
      have hfollows : s.Follows { s with memories := s.memories.push mem } := by
        refine h.stays hstays (h.sound.addMemory ?_) rfl
        simp [(Memory.create_ok hmem).1]
      have hadd : Does False (Store.addMemory mem) s fun _ s' => s.Follows s' := does_modifyGet hfollows
      exact Does.bind (hadd.imp fun _ _ hs' => does_pure hs')
  | addGlobal type v =>
    refine hlift (does_of_forall fun g s' hg => ?_)
    exact h.stays (stays_of_addHostGlobal hg) (sound_addHostGlobal hop hg h.sound) (names_of_addHostGlobal hg)
  | register module field v =>
    have hwired : Wired { s with names := s.names.register module field v } :=
      Stays.wired { Stays.refl s with } h.wired
    refine hlift (does_modify ⟨⟨hwired, h.sound.register module field hop.1, ?_⟩, rfl⟩)
    rintro f ⟨module', field', hf⟩
    rcases Namespace.resolve?_register hf with hv | hf
    · exact hop.2 f hv.symm
    · exact h.blind f ⟨module', field', hf⟩
  | removeName name =>
    have hwired : Wired { s with names := s.names.remove name } := Stays.wired { Stays.refl s with } h.wired
    refine hlift (does_modify ⟨⟨hwired, (Step.removeName name).sound h.sound, ?_⟩, rfl⟩)
    rintro f ⟨module, field, hf⟩
    exact h.blind f ⟨module, field, Namespace.resolve?_remove hf⟩
  | instantiate key m name startDisabled canceled =>
    obtain ⟨⟨source, maxPages, checks, hm⟩, hkey, -⟩ := hop
    obtain ⟨seen, hb⟩ := Module.built_decodeUnder hm
    refine htry (does_of_forall fun r s' hr => follows_instantiate hb (fun c hc => ?_) h hr)
    obtain ⟨o, b, hcompile⟩ := hkey c hc
    exact hb.compiled hcompile
  | call i field params canceled =>
    refine Does.bind (Does.bind (does_getInstance False.elim fun x _ => does_pure ?_))
    dsimp only [ExceptT.bindCont]
    split
    · exact does_pure h.refl
    · exact (livesOn_call _ _ _ s).imp fun _ s' hs' => h.evolves hs'
  | growMemory i delta => exact htry (((livesThrough_growMemory i delta).run s).imp fun _ s' hs' => h.evolves hs')
  | setGlobal g v => exact hlift ((livesOn_setGlobal g v s).imp fun _ s' hs' => h.evolves hs')
  | closeInstance i =>
    refine hlift (does_of_forall fun u s' hu => ?_)
    exact h.stays (stays_of_closeInstance hu) (sound_closeInstance hu h.sound) (names_of_closeInstance hu)

/-- Answers to operations that are the same. -/
inductive SameAnswers : List Operation → List Outcome → List Outcome → Prop
  | nil : SameAnswers [] [] []
  | cons {op : Operation} {ops : List Operation} {r r' : Outcome} {rs rs' : List Outcome} (h : op.Same r r')
      (hrest : SameAnswers ops rs rs') : SameAnswers (op :: ops) (r :: rs) (r' :: rs')

/-- All operations give the same answers in the mirror. -/
theorem mirrors_performAll (h : s.Ready) (hops : Proper s ops) (hs : s.Mirror t) :
    MirrorsAt True (SameAnswers ops) (performAll ops) (performAll ops) s t := by
  induction ops generalizing s t with
  | nil => exact mirrors_pure .nil s t hs
  | cons op ops ih =>
    obtain ⟨hop, hops⟩ := hops
    refine MirrorsAt.bind (Operation.mirrors_perform h hop hs) ?_
    intro r r' s' t' hr hsame hs'
    have h' := (Operation.follows_perform h hop).of_eq hr
    refine MirrorsAt.bind (ih h'.ready (hops r s' hr) hs') ?_
    intro rs rs' s'' t'' _ hrest hs''
    exact mirrors_pure (.cons hsame hrest) s'' t'' hs''

theorem ready_empty {config : StoreConfig} (h : config.executor.Blind) : Ready { config } :=
  ⟨wired_empty h, sound_empty config, fun _ hf => nomatch hf⟩

/-! ## Checking a session -/

namespace Config

variable {c d : Config}

def next? (canceled : Bool) : Config → Option Config
  | ⟨.enter e, K, s⟩ =>
    if maxCallDepth ≤ e.depth then some ⟨.give (.error (.trap .callStackOverflow 0 none)), K, s⟩
    else if canceled then some ⟨.give (.error (.ofMark .canceled)), K, s⟩
    else match turn e s with
      | .ok (t, s') => some (t.config K s')
      | .error x => some ⟨.fail x, K, s⟩
  | ⟨.run _ (.done o), K, s⟩ => some ⟨.give o, K, s⟩
  | ⟨.run fr (.ask r next), K, s⟩ =>
    match planAnswer fr r s with
    | .ok (plan, s') => some (plan.config fr next K s')
    | .error x => some ⟨.fail x, K, s⟩
  | ⟨.give o, .caller fr next :: K, s⟩ => some ⟨.run fr (next o), K, s⟩
  | ⟨.give o, .via _ post :: K, s⟩ => some ⟨.give (post o), K, s⟩
  | ⟨.give o, .host :: K, s⟩ => some ⟨.give (hostOutcome o), K, s⟩
  | ⟨.give _, [], _⟩ => none
  | ⟨.fail _, _, _⟩ => none

theorem Step.next? (h : c.Step canceled d) : c.next? canceled = some d := by
  cases h with
  | overflow hd => simp [Config.next?, hd]
  | cancel hd hn => simp [Config.next?, Nat.not_le.mpr hd, hn]
  | turn hd hn h => simp [Config.next?, Nat.not_le.mpr hd, hn, h]
  | stuck hd hn h => simp [Config.next?, Nat.not_le.mpr hd, hn, h]
  | ask h => simp [Config.next?, h]
  | defect h => simp [Config.next?, h]
  | done | resume | leave | leaveHost => rfl

/-- Code is not entered too deep, and functions of other instances get as many parameters as they take. -/
def calm (c : Config) : Bool :=
  match c.control with
  | .enter e => decide (e.depth < maxCallDepth) && match e.code with
    | .reuse _ f => c.store.functions[f]?.all fun g => e.params.length == g.type.params.length
    | _ => true
  | _ => true

theorem not_strained_of_calm (h : c.calm = true) : ¬c.Strained ∧ ¬c.Miscounts := by
  constructor
  · rintro ⟨e, he, hdeep, -⟩
    simp only [calm, he, Bool.and_eq_true, decide_eq_true_eq] at h
    exact absurd hdeep (Nat.not_le.mpr h.1)
  · rintro ⟨e, k, f, g, he, hcode, hg, hne⟩
    simp only [calm, he, hcode, hg, Option.all_some, Bool.and_eq_true, beq_iff_eq] at h
    exact hne h.2

/-- The machine comes to an end within some steps and is calm on the way. -/
def staysCalm (canceled : Bool) : Nat → Config → Bool
  | 0, _ => false
  | n + 1, c => c.calm && match c.next? canceled with
    | none => true
    | some d => staysCalm canceled n d

theorem uniform_of_staysCalm {n : Nat} (h : c.staysCalm canceled n = true) : c.Uniform canceled := by
  induction n generalizing c with
  | zero => cases h
  | succ n ih =>
    rw [staysCalm, Bool.and_eq_true] at h
    obtain ⟨hcalm, hnext⟩ := h
    intro d hd
    cases hd with
    | refl => exact not_strained_of_calm hcalm
    | step hs hd =>
      rw [hs.next?] at hnext
      exact ih hnext _ hd

end Config

theorem startUniform_of_none (hb : m.Built source limit seen)
    (h : m.start = none) (startDisabled canceled : Bool) : s.StartUniform key m name startDisabled canceled := by
  intro _ x s₁ f id hx hf
  obtain ⟨hprepared, -⟩ := (tries_prepare hb False.elim False.elim False.elim).of_ok hx
  rw [hprepared.module, h] at hf
  cases hf

namespace Operation

def Decoded : Operation → Prop
  | instantiate _ m _ _ _ => ∃ source maxPages checks, Module.decodeUnder source maxPages checks = .ok m
  | _ => True

/-- An operation can be seen to be proper: modules without a start function are instantiated with their code, and calls
come to an end within some steps. Programs that register something are not looked at. -/
def check (steps : Nat) (s : Store) : Operation → Bool
  | addGlobal type _ => type.valType.isValue
  | register .. => false
  | instantiate key m _ _ _ => m.start.isNone && (s.cache.find? key).all fun c =>
    (m.compile s.config.options false).toOption == some c
  | call i field params canceled =>
    (s.instances[i]?.bind fun x => x.exportedFunction? field).all fun f =>
      (Config.start f params s).staysCalm canceled steps
  | _ => true

theorem proper_of_check {steps : Nat} (hd : op.Decoded) (h : op.check steps s = true) :
    op.Proper s := by
  cases op with
  | addGlobal type v => exact h
  | register => cases h
  | instantiate key m name startDisabled canceled =>
    simp only [check, Bool.and_eq_true, Option.isNone_iff_eq_none] at h
    obtain ⟨source, maxPages, checks, hm⟩ := hd
    obtain ⟨seen, hb⟩ := Module.built_decodeUnder hm
    refine ⟨⟨source, maxPages, checks, hm⟩, fun c hc => ?_, startUniform_of_none hb h.1 startDisabled canceled⟩
    have hcode := h.2
    rw [hc, Option.all_some, beq_iff_eq] at hcode
    exact ⟨s.config.options, false, toOption_eq_some.mp hcode⟩
  | call i field params canceled =>
    intro x f hx hf
    have hf' : (s.instances[i]?.bind fun x => x.exportedFunction? field) = some f := by rw [hx, Option.bind_some, hf]
    rw [check, hf', Option.all_some] at h
    exact Config.uniform_of_staysCalm h
  | compile | addTable | addMemory | removeName | growMemory | setGlobal | closeInstance => trivial

end Operation

def checkAll (steps : Nat) : Store → List Operation → Bool
  | _, [] => true
  | s, op :: ops => op.check steps s && match op.perform.run s with
    | .ok (_, s') => checkAll steps s' ops
    | .error _ => true

theorem proper_of_checkAll (steps : Nat) (hd : ∀ op ∈ ops, op.Decoded)
    (h : checkAll steps s ops = true) : Proper s ops := by
  induction ops generalizing s with
  | nil => trivial
  | cons op ops ih =>
    rw [checkAll, Bool.and_eq_true] at h
    obtain ⟨hop, hops⟩ := List.forall_mem_cons.mp hd
    refine ⟨Operation.proper_of_check hop h.1, fun r s' hr => ih hops ?_⟩
    have hrest := h.2
    rwa [hr] at hrest

/-- Whatever a program does with a store, it gets the same answers with and without shortcuts, if no call is too deep
only because of shortcuts and nothing looks at the names in errors. -/
theorem performAll_shortcut (config : StoreConfig) (hconfig : config.executor.Blind) (ops : List Operation)
    (hops : Proper { config := { config with shortcut := true } } ops) :
    MirrorsAt True (SameAnswers ops) (performAll ops) (performAll ops) { config := { config with shortcut := true } }
      { config := { config with shortcut := false } } :=
  mirrors_performAll (ready_empty hconfig) hops ⟨#[], by simp [plain]⟩

section

open ProtoWasm.Module

def ladder : List UInt8 :=
  header ++
    encodeSection "signatures" ([1] ++ encodeSignature ⟨[.i32], [.i32]⟩) ++
    encodeSection "function_signatures" [1, 0] ++
    encodeSection "export_table" ([1] ++ encodeExport ⟨.func, "g", 0⟩) ++
    encodeSection "function_bodies" [1, 5, 0, 0x12, 0, 0x0e, 0]

/-- A module whose function calls itself and that of the other module. -/
def tower : List UInt8 :=
  header ++
    encodeSection "signatures" ([1] ++ encodeSignature ⟨[.i32], [.i32]⟩) ++
    encodeSection "import_table" ([1] ++ encodeImport ⟨"ladder", "g", .func 0, 0⟩) ++
    encodeSection "function_signatures" [1, 0] ++
    encodeSection "export_table" ([1] ++ encodeExport ⟨.func, "f", 1⟩) ++
    encodeSection "function_bodies" [1, 7, 0, 0x12, 1, 0x12, 0, 0x0e, 0]

def decoded (source : List UInt8) : Module := (Module.decodeUnder source 0 (some .all)).toOption.getD {}

theorem decodeUnder_decoded (source : List UInt8)
    (h : (Module.decodeUnder source 0 (some .all)).toOption.isSome = true) :
    Module.decodeUnder source 0 (some .all) = .ok (decoded source) := by
  obtain ⟨m, hm⟩ := Option.isSome_iff_exists.mp h
  rw [decoded, hm]
  exact toOption_eq_some.mp hm

/-- Functions call themselves as often as their parameter says. The last one calls the function of the other module, if
it can, and that function does the same. -/
def climber (n : UInt64) : Executor := fun inv =>
  if inv.graph.callSites.size = 2 then
    if inv.params = [0] then Task.call 3 [n] else Task.call 4 (inv.params.map (· - 1))
  else if inv.params = [0] then pure [7] else Task.call 3 (inv.params.map (· - 1))

theorem blind_climber (n : UInt64) : (climber n).Blind := by
  intro inv
  unfold climber
  split
  · split
    · exact Task.blind_call _ _
    · exact Task.blind_call _ _
  · split
    · exact Task.blind_pure _
    · exact Task.blind_call _ _

def equip : List Operation :=
  [.compile 0 (decoded ladder) false, .compile 1 (decoded tower) false,
    .instantiate 0 (decoded ladder) "ladder" false false, .instantiate 1 (decoded tower) "tower" false false]

def climb (n : UInt64) : List Operation := equip ++ [.call 1 "f" [n] false]

theorem decoded_climb (n : UInt64) : ∀ op ∈ climb n, op.Decoded := by
  have hladder := decodeUnder_decoded ladder (by decide +kernel)
  have htower := decodeUnder_decoded tower (by decide +kernel)
  simp only [climb, equip, List.cons_append, List.nil_append, List.forall_mem_cons]
  exact ⟨trivial, trivial, ⟨_, _, _, hladder⟩, ⟨_, _, _, htower⟩, trivial, fun _ h => nomatch h⟩

/-- The last answer of a session: results, or the kind of a trap. -/
def lastAnswer? (ops : List Operation) (config : StoreConfig) : Option (List UInt64 ⊕ Option TrapKind) :=
  match performAll ops { config } with
  | .error _ => none
  | .ok (answers, _) => answers.getLast?.map fun
    | .ok results => .inl results
    | .error e => .inr (e.trap?.map Prod.fst)

theorem performAll_shortcut_climb :
    Proper { config := { executor := climber 3, shortcut := true } } (climb 3) ∧
      MirrorsAt True (SameAnswers (climb 3)) (performAll (climb 3)) (performAll (climb 3))
        { config := { executor := climber 3, shortcut := true } } { config := { executor := climber 3 } } ∧
      lastAnswer? (climb 3) { executor := climber 3, shortcut := true } = some (.inl [7]) := by
  have hproper : Proper { config := { executor := climber 3, shortcut := true } } (climb 3) :=
    proper_of_checkAll 50 (decoded_climb 3) (by decide +kernel)
  exact ⟨hproper, performAll_shortcut { executor := climber 3 } (blind_climber 3) (climb 3) hproper, by decide +kernel⟩

/-- With shortcuts a call is too deep that returns without them. -/
theorem lastAnswer?_climb_differs : (climber 600).Blind ∧
    lastAnswer? (climb 600) { executor := climber 600, shortcut := true } = some (.inr (some .callStackOverflow)) ∧
    lastAnswer? (climb 600) { executor := climber 600, shortcut := false } = some (.inl [7]) := by
  refine ⟨blind_climber 600, ?_, ?_⟩
  -- the calls of one module and those of the other are more than a chain can hold, each by themselves they are not
  · decide +kernel
  · decide +kernel

end

end ProtoWasm.Store
