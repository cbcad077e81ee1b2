import ProtoWasm.Proofs.Embedding.Names
import ProtoWasm.Proofs.Store.Allotment
import ProtoWasm.Proofs.Store.Sessions

/-! # What the operations of a program may change in an embedding -/
namespace ProtoWasm

open StoreM

def HostModule.define (limit : Nat) (name : String) (defs : List (String × HostDef)) : HostModule :=
  defs.foldl (fun m d => m.add limit d.1 d.2) { name }

namespace Embedding

variable {limit : Nat} {e e' e'' : Embedding} {i : InstanceId} {name : String} {x : Instance} {s : Store}

/-- An operation on an embedding. Modules are known by the order in which they were compiled. -/
inductive Operation where
  | compile (source : Option (List UInt8)) (canceled : Bool)
  | closeCompiled (k : Nat)
  | host (name : String) (defs : List (String × HostDef))
  | instantiate (k : Nat) (config : ModuleConfig) (canceled : Bool)
  | call (i : InstanceId) (field : String) (params : List UInt64) (canceled : Bool)
  | growMemory (i : InstanceId) (delta : Nat)
  | close (i : InstanceId)
  | closeAll

structure Session where
  embedding : Embedding
  compiled : List CompiledHandle := []

namespace Operation

/-- What an operation does. It gives the module that it compiled, if any. -/
def run (σ : Session) : Operation → EmbeddingAction (Option CompiledHandle)
  | compile source canceled => return some (← Embedding.compile source canceled)
  | closeCompiled k => do
    match σ.compiled[k]? with
    | none => return none
    | some c =>
      (onStore (Store.deleteCompiled c.key) : EmbeddingM Unit)
      return none
  | host name defs => do
    (HostModule.define σ.embedding.config.maxPages name defs).instantiate
    return none
  | instantiate k config canceled => do
    let _ ← Embedding.instantiate σ.compiled[k]? config canceled
    return none
  | call i field params canceled => do
    let _ ← onStoreAction (Store.callExport i field params canceled)
    return none
  | growMemory i delta => do
    let _ ← onStoreAction (Store.growMemory i delta)
    return none
  | close i => do
    (Embedding.close i : EmbeddingM Unit)
    return none
  | closeAll => do
    (Embedding.closeAll : EmbeddingM Unit)
    return none

/-- The session goes on after an error. -/
def perform (σ : Session) (op : Operation) : Except Defect Session := do
  let (r, embedding) ← op.run σ σ.embedding
  return { embedding, compiled := σ.compiled ++ r.toOption.join.toList }

def Defines : Operation → String → Prop
  | host n _, name => n = name
  | instantiate _ config _, name => config.name.getD defaultName = name
  | _, _ => False

instance : (op : Operation) → (name : String) → Decidable (op.Defines name)
  | host n _, name => inferInstanceAs (Decidable (n = name))
  | instantiate _ config _, name => inferInstanceAs (Decidable (config.name.getD defaultName = name))
  | compile .., _ | closeCompiled _, _ | call .., _ | growMemory .., _ | close _, _ | closeAll, _ =>
    inferInstanceAs (Decidable False)

end Operation

def performAll (ops : List Operation) (σ : Session) : Except Defect Session := ops.foldlM Operation.perform σ

def Unused (e : Embedding) (name : String) : Prop := e.module? name = none ∧ e.store.names.has name = false

/-- What may happen to an embedding in which memories are limited: names that are not among those that are defined stay
unused, and an instance that is closed frees its name. -/
structure Continues (limit : Nat) (defined : String → Prop) (e e' : Embedding) : Prop where
  config : e'.config = e.config
  instances : ∀ (i : InstanceId) x, e.store.instances[i]? = some x →
    ∃ x', e'.store.instances[i]? = some x' ∧ x'.name = x.name ∧ (x'.closed = x.closed ∨ e'.Unused x.name)
  unused : ∀ name, ¬ defined name → e.Unused name → e'.Unused name
  memories : Store.Allots (Module.effectiveLimit limit) e.store.memories e'.store.memories
  hostMemory : ∀ id ∈ e'.hostMemories,
    id ∈ e.hostMemories ∨ ∃ mem, e'.store.memories[id]? = some mem ∧ mem.max ≤ limit

namespace Continues

variable {defined : String → Prop}

theorem refl (limit : Nat) (defined : String → Prop) (e : Embedding) : Continues limit defined e e where
  config := rfl
  instances _ x hx := ⟨x, hx, rfl, .inl rfl⟩
  unused _ _ h := h
  memories := .refl _ _
  hostMemory _ hid := .inl hid

theorem trans (h : Continues limit (fun _ => False) e e') (h' : Continues limit (fun _ => False) e' e'') :
    Continues limit (fun _ => False) e e'' where
  config := h'.config.trans h.config
  instances i x hx := by
    obtain ⟨x', hx', hname, hclosed⟩ := h.instances i x hx
    obtain ⟨x'', hx'', hname', hclosed'⟩ := h'.instances i x' hx'
    refine ⟨x'', hx'', hname'.trans hname, ?_⟩
    rcases hclosed with hclosed | hunused
    · exact hclosed'.imp (fun h => h.trans hclosed) fun h => hname ▸ h
    · exact .inr (h'.unused _ id hunused)
  unused name hname hunused := h'.unused name hname (h.unused name hname hunused)
  memories := h.memories.trans h'.memories
  hostMemory id hid := by
    rcases h'.hostMemory id hid with hid | hmem
    · refine (h.hostMemory id hid).imp_right ?_
      rintro ⟨mem, hmem, hmax⟩
      obtain ⟨mem', hmem', hmax', -⟩ := h'.memories.kept id mem hmem
      exact ⟨mem', hmem', hmax' ▸ hmax⟩
    · exact .inr hmem

theorem mono {defined' : String → Prop} (h : Continues limit defined e e')
    (hd : ∀ name, defined name → defined' name) : Continues limit defined' e e' :=
  { h with unused := fun name hname => h.unused name (hname ∘ hd name) }

theorem ofLives (h : e.store.Lives s)
    (hm : Store.Allots (Module.effectiveLimit limit) e.store.memories s.memories) :
    Continues limit defined e { e with store := s } where
  config := rfl
  instances i x hx := by
    obtain ⟨x', hx', hshape⟩ := h.instance hx
    exact ⟨x', hx', (congrArg Instance.name hshape :), .inl (congrArg Instance.closed hshape :)⟩
  unused name _ hunused := ⟨hunused.1, by rw [h.names, hunused.2]⟩
  memories := hm
  hostMemory _ hid := .inl hid

theorem ofEvolves (h : e.store.Evolves s) : Continues limit defined e { e with store := s } :=
  .ofLives h.lives (h.allots _)

theorem ofCompiles (h : e.Compiles e') : Continues limit defined e e' := by
  obtain ⟨cache, metrics, nextKey, compiled, rfl⟩ := h
  exact { Continues.refl limit defined e with }

end Continues

end Embedding

namespace HostModule

open ProtoWasm.Embedding

variable {limit : Nat} {e e' : Embedding}

/-- Whatever is wrong with a definition is found when it is given. -/
theorem check_of_mem_define {name : String} {defs : List (String × HostDef)} :
    ∀ p ∈ (define limit name defs).exports, p.2.check limit = none := by
  refine List.foldlRecOn (motive := fun m : HostModule => ∀ p ∈ m.exports, p.2.check limit = none) defs _ (by simp) ?_
  intro m hm d _
  unfold add
  split
  · exact hm
  · rename_i hcheck
    intro p hp
    rcases mem_assign hp with hp | rfl
    · exact hm p hp
    · exact hcheck

theorem name_define (limit : Nat) (name : String) (defs : List (String × HostDef)) :
    (define limit name defs).name = name := by
  refine List.foldlRecOn (motive := fun m : HostModule => m.name = name) defs _ rfl fun m hm d _ => ?_
  rw [add]
  split <;> exact hm

theorem grants_of_check {d : HostDef} (h : d.check limit = none) :
    Grants (fun mem => mem.Capped ∧ mem.max ≤ limit) d := by
  rintro min max guarded mem rfl hmem
  obtain ⟨-, hpages, hmax, -⟩ := Memory.create_ok hmem
  unfold HostDef.check at h
  dsimp only at h
  split at h
  · cases h
  · rename_i hlimit
    split at h
    · cases h
    · rename_i hmin
      rw [Memory.Capped, hpages, hmax]
      exact ⟨Nat.le_of_not_lt hmin, Nat.le_of_not_lt hlimit⟩

theorem Hosts.continues {module : String}
    (h : Hosts (fun mem => mem.Capped ∧ mem.max ≤ limit) module e e') :
    Continues limit (module = ·) e e' where
  config := h.config
  instances i x hx := ⟨x, by rwa [h.instances], rfl, .inl rfl⟩
  unused name hname hunused := by
    refine ⟨?_, ?_⟩
    · rw [module?, h.modules]
      exact hunused.1
    · rw [h.others name fun heq => hname heq.symm]
      exact hunused.2
  memories := by
    have hle : limit ≤ Module.effectiveLimit limit := by
      unfold Module.effectiveLimit
      split
      · omega
      · exact Nat.le_refl _
    exact .ofKeeps h.kept fun k mem hk hmem => (h.added k mem hk hmem).imp_right fun hmax => Nat.le_trans hmax hle
  hostMemory id hid := by
    refine (h.hostMemory id hid).imp_right ?_
    rintro ⟨mem, hmem, -, hmax⟩
    exact ⟨mem, hmem, hmax⟩

end HostModule

namespace Embedding

variable {limit : Nat} {e e' : Embedding} {i : InstanceId} {name : String} {σ σ' : Session}

theorem tries_instantiate_continues {c : CompiledHandle} {source : List UInt8} {seen : List Section}
    (hb : c.module.Built source (Module.effectiveLimit limit) seen) (config : ModuleConfig) (canceled : Bool) :
    Tries False (instantiate (some c) config canceled) e
      (fun _ e' => Continues limit (config.name.getD defaultName = ·) e e')
      fun _ e' => Continues limit (config.name.getD defaultName = ·) e e' := by
  unfold instantiate
  refine Tries.bind (tries_get ?_)
  split
  · exact tries_throw (.refl _ _ e)
  · have hkept {s : Store} {x : Instance} (h : Store.Added e.store s x) (i : InstanceId) (y : Instance)
        (hy : e.store.instances[i]? = some y) :
        ∃ y', s.instances[i]? = some y' ∧ y'.name = y.name ∧ y'.closed = y.closed := by
      obtain ⟨y', hy', hshape⟩ := h.kept i y hy
      exact ⟨y', hy', (congrArg Instance.name hshape :), (congrArg Instance.closed hshape :)⟩
    refine Tries.bind (tries_onStoreAction
      (((Store.tries_instantiate_added hb _ _).and (Store.tries_instantiate_allots hb _ _)).imp ?_ ?_))
    · rintro _ s ⟨⟨rfl, x, hx⟩, hallots⟩
      refine Tries.bind (tries_modify (tries_pure ⟨rfl, ?_, ?_, hallots, fun _ hid => .inl hid⟩))
      · intro i y hy
        obtain ⟨y', hy', hname, hclosed⟩ := hkept hx.toAdded i y hy
        exact ⟨y', hy', hname, .inl hclosed⟩
      · intro n hn hunused
        have hne : (n == config.name.getD defaultName) = false := beq_false_of_ne fun h => hn h.symm
        refine ⟨?_, ?_⟩
        · rw [module?, lookup_assign, hne]
          exact hunused.1
        · change s.names.has n = false
          rw [hx.names, Instance.publish, Instance.has_publishAll hx.exports.exported n, hx.name, hne, hunused.2]
          rfl
    · rintro _ s ⟨⟨x, hx⟩, hallots⟩
      refine ⟨rfl, ?_, ?_, hallots, fun _ hid => .inl hid⟩
      · intro i y hy
        obtain ⟨y', hy', hname, hclosed⟩ := hkept hx.toAdded i y hy
        exact ⟨y', hy', hname, .inl hclosed⟩
      · intro n _ hunused
        refine ⟨hunused.1, ?_⟩
        change s.names.has n = false
        rw [hx.names, hunused.2]

theorem does_close_continues (i : InstanceId) :
    Does False (close i) e fun _ e' => Continues limit (fun _ => False) e e' := by
  cases hx : e.store.instances[i]? with
  | none =>
    exact Does.bind (does_onStore (does_getInstance False.elim fun x hx' => nomatch hx.symm.trans hx'))
  | some x =>
    refine Does.bind (does_onStore (does_getInstance False.elim (forall_of_eq_some hx ?_)))
    have hclose : Does False (Store.closeInstance i) { e.store with names := e.store.names.remove x.name } _ :=
      Does.and (does_closeInstance hx False.elim) (Store.does_closeInstance_allots (b := Module.effectiveLimit limit) i)
    refine Does.bind (does_modify (does_onStore (hclose.imp ?_)))
    rintro - s ⟨⟨hs, hnames⟩, hallots⟩
    have hhas (n : String) : s.names.has n = (n != x.name && e.store.names.has n) := by
      rw [hnames, Namespace.has_remove]
    have hfound (n : String) : (e.modules.filter fun p => p.1 != x.name).lookup n =
        if n == x.name then none else e.module? n := lookup_filter_ne x.name n e.modules
    refine ⟨rfl, ?_, ?_, hallots, fun _ hid => .inl hid⟩
    · intro k y hy
      have hlt : k < s.instances.size := hs.count ▸ lt_size hy
      have hy' := Array.getElem?_eq_getElem hlt
      obtain ⟨y₀, hy₀, hname, -, -, hclosed⟩ := hs.exists_before k _ hy'
      cases hy.symm.trans hy₀
      refine ⟨_, hy', hname, ?_⟩
      by_cases hk : k = i
      · subst hk
        cases hx.symm.trans hy
        refine .inr ⟨?_, ?_⟩
        · rw [module?, hfound, if_pos BEq.rfl]
        · change s.names.has x.name = false
          rw [hhas, bne_self_eq_false, Bool.false_and]
      · rw [hclosed, beq_false_of_ne hk, Bool.or_false]
        exact .inl rfl
    · intro n _ hunused
      refine ⟨?_, ?_⟩
      · rw [module?, hfound, hunused.1, ite_self]
      · change s.names.has n = false
        rw [hhas, hunused.2, Bool.and_false]

theorem does_forM_continues (limit : Nat) {α : Type} {f : α → EmbeddingM Unit}
    (hf : ∀ a e, Does False (f a) e fun _ e' => Continues limit (fun _ => False) e e') (as : List α) (e : Embedding) :
    Does False (as.forM f) e fun _ e' => Continues limit (fun _ => False) e e' := by
  induction as generalizing e with
  | nil => exact does_pure (.refl _ _ e)
  | cons a as ih => exact Does.bind ((hf a e).imp fun _ e₁ h₁ => (ih e₁).imp fun _ _ h₂ => h₁.trans h₂)

theorem does_closeAll_continues :
    Does False closeAll e fun _ e' => Continues limit (fun _ => False) e e' := by
  refine Does.bind (does_get (Does.bind (does_modify ?_)))
  have hclose := does_forM_continues limit (f := fun (p : String × InstanceId) => close p.2)
    (fun p _ => does_close_continues p.2) e.modules
  have hmemories := does_forM_continues limit
    (f := fun m => onStore do Store.setMemory m (← Store.getMemory m).close) (fun m e₁ => by
      refine does_onStore (Does.bind (does_getMemory False.elim fun mem hmem => does_modify ?_))
      exact ⟨rfl, fun _ x hx => ⟨x, hx, rfl, .inl rfl⟩, fun _ _ hunused => hunused,
        .set hmem rfl fun hcap => hcap.close, fun _ hid => .inl hid⟩) e.hostMemories
  have hdelete := does_forM_continues limit (f := fun key => onStore (Store.deleteCompiled key))
    (fun key e₁ => does_onStore (does_modify { Continues.refl limit _ e₁ with })) e.compiled
  refine Does.bind ((hclose _).imp fun _ e₁ h₁ => ?_)
  refine Does.bind ((hmemories _).imp fun _ e₂ h₂ => (hdelete _).imp fun _ e₃ h₃ => ?_)
  refine Continues.trans ?_ ((h₁.trans h₂).trans h₃)
  exact { Continues.refl limit _ e with hostMemory := fun _ hid => nomatch hid }

/-- Modules were compiled under the memory limit of the embedding. -/
structure Session.Under (limit : Nat) (σ : Session) : Prop where
  config : σ.embedding.config.maxPages = limit
  compiled : ∀ c ∈ σ.compiled, ∃ source, Module.decode source limit = .ok c.module

/-- An operation changes nothing but what it may change, and gives modules that were compiled under the limit. -/
theorem Operation.tries_run (op : Operation) (h : σ.Under limit) : Tries False (op.run σ) σ.embedding
      (fun r e' => Continues limit op.Defines σ.embedding e' ∧
        ∀ c, r = some c → ∃ source, Module.decode source limit = .ok c.module)
      fun _ e' => Continues limit op.Defines σ.embedding e' := by
  have hnone {e' : Embedding} (he : Continues limit op.Defines σ.embedding e') :
      Continues limit op.Defines σ.embedding e' ∧
        ∀ c, (none : Option CompiledHandle) = some c → ∃ source, Module.decode source limit = .ok c.module :=
    ⟨he, nofun⟩
  cases op with
  | compile source canceled =>
    refine Tries.bind ((tries_compile source canceled).imp ?_ fun _ _ he => .ofCompiles he)
    rintro c e' ⟨he, source, hm⟩
    refine tries_pure ⟨.ofCompiles he, ?_⟩
    rintro _ ⟨⟩
    exact ⟨source, h.config ▸ hm⟩
  | closeCompiled k =>
    rw [run]
    split
    · exact tries_pure (hnone (.refl _ _ _))
    · refine Tries.after (does_onStore (does_modify (tries_pure (hnone ?_))))
      exact { Continues.refl limit _ σ.embedding with }
  | host name defs =>
    have hhost := (HostModule.define σ.embedding.config.maxPages name defs).tries_instantiate (e := σ.embedding)
      fun p hp => HostModule.grants_of_check (HostModule.check_of_mem_define p hp)
    rw [HostModule.name_define, h.config] at hhost
    rw [run, h.config]
    exact Tries.bind (hhost.imp (fun _ _ he => tries_pure (hnone he.continues)) fun _ _ he => he.continues)
  | instantiate k config canceled =>
    rw [run]
    cases hc : σ.compiled[k]? with
    | none => exact Tries.bind (tries_throw (.refl _ _ _))
    | some c =>
      obtain ⟨source, hm⟩ := h.compiled c (List.mem_of_getElem? hc)
      obtain ⟨seen, hb, -⟩ := Module.built_decode hm
      refine Tries.bind ((tries_instantiate_continues hb config canceled).imp ?_ fun _ _ he => he)
      exact fun _ _ he => tries_pure (hnone he)
  | call i field params canceled =>
    have hcall : Store.LivesThrough (Store.callExport i field params canceled) := by
      refine (Store.livesOn_getInstance i).lift.bind fun x => ?_
      split
      · exact Store.livesThrough_pure _
      · intro s
        refine Does.imp (Store.livesOn_call _ params canceled s) fun r _ hs => ?_
        cases r with
        | ok results => exact hs
        | error err => exact hs
    refine Tries.bind (tries_onStoreAction ((hcall σ.embedding.store).imp ?_ fun _ _ hs => .ofEvolves hs))
    exact fun _ _ hs => tries_pure (hnone (.ofEvolves hs))
  | growMemory i delta =>
    have hgrow := Store.livesThrough_growMemory i delta σ.embedding.store
    refine Tries.bind (tries_onStoreAction (hgrow.imp ?_ fun _ _ hs => .ofEvolves hs))
    exact fun _ _ hs => tries_pure (hnone (.ofEvolves hs))
  | close i =>
    exact Tries.after ((does_close_continues i).imp fun _ _ he => tries_pure (hnone (he.mono nofun)))
  | closeAll =>
    exact Tries.after (does_closeAll_continues.imp fun _ _ he => tries_pure (hnone (he.mono nofun)))

theorem Operation.perform_ok {op : Operation} (h : σ.Under limit) (hr : op.perform σ = .ok σ') :
    σ'.Under limit ∧ Continues limit op.Defines σ.embedding σ'.embedding := by
  unfold perform at hr
  cases hrun : op.run σ σ.embedding with
  | error d =>
    rw [hrun] at hr
    cases hr
  | ok p =>
    obtain ⟨r, e'⟩ := p
    rw [hrun] at hr
    cases hr
    cases r with
    | ok c =>
      obtain ⟨he, hc⟩ := (op.tries_run h).of_ok hrun
      refine ⟨⟨he.config ▸ h.config, fun c' hc' => ?_⟩, he⟩
      rcases List.mem_append.mp hc' with hc' | hc'
      · exact h.compiled c' hc'
      · exact hc c' (by simpa [Except.toOption] using hc')
    | error err =>
      have he := (op.tries_run h).of_error hrun
      refine ⟨⟨he.config ▸ h.config, fun c' hc' => h.compiled c' ?_⟩, he⟩
      simpa [Except.toOption] using hc'

/-- Whatever every operation keeps is kept in a session. -/
theorem performAll_induction {I : Session → Prop} {ops : List Operation}
    (hstep : ∀ op ∈ ops, ∀ σ σ', σ.Under limit → Continues limit op.Defines σ.embedding σ'.embedding → I σ → I σ')
    (h : σ.Under limit) (hI : I σ) (hr : performAll ops σ = .ok σ') : σ'.Under limit ∧ I σ' := by
  induction ops generalizing σ with
  | nil =>
    cases hr
    exact ⟨h, hI⟩
  | cons op ops ih =>
    rw [performAll, List.foldlM_cons] at hr
    cases hop : op.perform σ with
    | error d =>
      rw [hop] at hr
      cases hr
    | ok σ₁ =>
      rw [hop] at hr
      obtain ⟨h₁, hc⟩ := Operation.perform_ok h hop
      obtain ⟨hop', hops⟩ := List.forall_mem_cons.mp hstep
      exact ih hops h₁ (hop' σ σ₁ h hc hI) hr

end Embedding

end ProtoWasm
