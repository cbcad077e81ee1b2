import ProtoWasm.Proofs.Store.Preparation

/-! # Instantiation

An instance is given back if it fails, and otherwise runs its start function and makes its exports known. So a
module has an instance that conforms to it, or leaves nothing behind but what its start function did.
-/
namespace ProtoWasm

open List

theorem lookup_assign {κ α : Type} [BEq κ] [LawfulBEq κ] (k k' : κ) (a : α) (xs : List (κ × α)) :
    (assign k a xs).lookup k' = if k' == k then some a else xs.lookup k' := by
  induction xs with
  | nil =>
    rw [assign, lookup_cons]
    cases k' == k <;> rfl
  | cons x xs ih =>
    obtain ⟨k₀, b⟩ := x
    rw [assign]
    split
    · rename_i h
      rw [beq_iff_eq] at h
      subst h
      simp only [lookup_cons]
      cases k' == k₀ <;> rfl
    · rename_i h
      simp only [lookup_cons, ih]
      split
      · rename_i h'
        rw [beq_iff_eq] at h'
        subst h'
        rw [if_neg h]
      · rfl

theorem Namespace.resolve?_register {α : Type} {ns : Namespace α} {module field module' field' : String}
    {a b : α} (h : (ns.register module field a).resolve? module' field' = some b) :
    b = a ∨ ns.resolve? module' field' = some b := by
  simp only [resolve?, entries?, register, lookup_assign] at h ⊢
  split at h
  · rename_i hm
    obtain rfl := beq_iff_eq.mp hm
    rw [Option.bind_some, lookup_assign] at h
    split at h
    · exact .inl (Option.some.inj h).symm
    · right
      cases hf : ns.modules.lookup module' with
      | none => simp [hf] at h
      | some fields => simpa [hf] using h
  · exact .inr h

namespace Instance

def publishAll (x : Instance) : List Export → Namespace Extern → Namespace Extern
  | [], names => names
  | e :: es, names => x.publishAll es <| match x.exported? e.name with
    | some v => names.register x.name e.name v
    | none => names

def publish (x : Instance) (names : Namespace Extern) : Namespace Extern := x.publishAll x.exports names

variable {x : Instance} {names : Namespace Extern} {es : List Export}

theorem resolve?_publishAll {module field : String} {v : Extern}
    (h : (x.publishAll es names).resolve? module field = some v) :
    (∃ n, x.exported? n = some v) ∨ names.resolve? module field = some v := by
  induction es generalizing names with
  | nil => exact .inr h
  | cons e es ih =>
    rw [publishAll] at h
    rcases ih h with h | h
    · exact .inl h
    · cases hv : x.exported? e.name with
      | none =>
        rw [hv] at h
        exact .inr h
      | some w =>
        rw [hv] at h
        rcases Namespace.resolve?_register h with rfl | h
        · exact .inl ⟨e.name, hv⟩
        · exact .inr h

end Instance

namespace Store

open StoreM

variable {safe : Prop} {s s' s₀ : Store} {m : Module} {name : String} {x y : Instance} {source : List UInt8}
  {limit : Nat} {seen : List Section} {i : InstanceId} {mem : Memory InstanceId} {e : Export}
  {es : List Export} {E : Error → Store → Prop} {Q : Unit → Store → Prop}

def leave (i : InstanceId) (x : Instance) (mem : Memory InstanceId) : Memory InstanceId :=
  let mem := if x.code.isSome then mem.removeDependent i else mem
  if x.ownsMemory then mem.close else mem

theorem mem_of_mem_leave {j : InstanceId} (hj : j ∈ (leave i x mem).dependents) :
    j ∈ mem.dependents := by
  unfold leave at hj
  dsimp only at hj
  split at hj
  · cases hj
  · split at hj
    · exact mem_of_mem_erase hj
    · exact hj

def shut (s : Store) (i : InstanceId) : Store :=
  { s with instances := s.instances.modify i fun x => { x with closed := true, code := x.code.map LinkedCode.close } }

theorem does_release (hy : s.instances[i]? = some y)
    (hmemory : safe → ∀ id, y.memory = some id → id < s.memories.size)
    (hnone : y.memory = none → Q () (s.shut i))
    (hsome : ∀ id mem, y.memory = some id → s.memories[id]? = some mem →
      Q () { s.shut i with memories := s.memories.setIfInBounds id (leave i y mem) }) :
    Does safe (release i) s Q := by
  refine Does.bind (does_getInstance (fun _ => ⟨y, hy⟩) (forall_of_eq_some hy ?_))
  refine Does.bind (does_modify ?_)
  split
  · rename_i hm
    exact does_pure (hnone hm)
  · rename_i id hm
    refine Does.bind (does_getMemory (fun hs => ⟨_, Array.getElem?_eq_getElem (hmemory hs id hm)⟩) ?_)
    intro mem hmem
    exact does_modify (hsome id mem hm hmem)

theorem Sound.shut (h : s.Sound) (i : InstanceId) : (s.shut i).Sound := h.modifyInstances i _

theorem Sound.leave (h : s.Sound) {id : MemoryId} (hmem : s.memories[id]? = some mem) :
    Sound { s.shut i with memories := s.memories.setIfInBounds id (leave i x mem) } := by
  refine (h.shut i).setMemory fun j hj => ?_
  have hlt := h.dependents id mem hmem j (mem_of_mem_leave hj)
  rwa [← Array.size_modify] at hlt

theorem does_release_of_stored
    (h : ∀ y, s.instances[i]? = some y → Does False (release i) s Q) : Does False (release i) s Q := by
  cases hy : s.instances[i]? with
  | none => exact Does.bind (does_getInstance False.elim fun y hy' => nomatch hy.symm.trans hy')
  | some y => exact h y hy

theorem does_release_sound (i : InstanceId) : Does False (release i) s fun _ s' => s.Sound → s'.Sound :=
  does_release_of_stored fun _ hy => does_release hy False.elim (fun _ h => h.shut i) fun _ _ _ hmem h => h.leave hmem

/-- An instance without code is given back. Nothing of what was there before has changed. -/
theorem Pending.does_release (h : Pending s₀ m s x) (hx : s.instances[s₀.instances.size]? = some x) :
    Does safe (release s₀.instances.size) s fun _ s' => s₀.Extends s' ∧ (s₀.Sound → s'.Sound) := by
  have hput : Grown s₀ m (s.shut s₀.instances.size) := h.toGrown.put _
  refine Store.does_release hx (fun _ => h.memory) ?_ ?_
  · intro _
    exact ⟨hput.kept, hput.sound⟩
  · intro id mem hid hmem
    refine ⟨{ hput.kept with memories := ?_ }, fun h₀ => (h.sound h₀).leave hmem⟩
    -- a memory that was there before is not closed, and it has not got the instance as a dependent
    cases hown : x.ownsMemory with
    | true => exact h.kept.memories.set_of_le (h.owned hown id hid) _
    | false =>
      have hleave : leave s₀.instances.size x mem = mem := by simp [leave, h.code, hown]
      rw [hleave, setIfInBounds_self hmem]
      exact h.kept.memories

structure Failed (s₀ s : Store) : Prop where
  names : s.names = s₀.names
  closed : ∃ x c, s.instances[s₀.instances.size]? = some x ∧ x.code = some c ∧ c.closed = true
  detached : s₀.Sound → ∀ (k : MemoryId) mem, s.memories[k]? = some mem →
    s₀.instances.size ∉ mem.dependents
  sound : s₀.Sound → s.Sound

theorem Prepared.does_release (h : Prepared s₀ m name s x) :
    Does safe (release s₀.instances.size) s fun _ s' => Failed s₀ s' := by
  obtain ⟨y, hy, hshape⟩ := h.stored
  have hmemory : y.memory = x.memory := by simpa only [instanceShape] using congrArg Instance.memory hshape
  have hcode : ∃ c, y.code = some c := by
    obtain ⟨c, hc⟩ := h.code
    have hmap : y.code.map codeShape = x.code.map codeShape := by
      simpa only [instanceShape] using congrArg Instance.code hshape
    rw [hc] at hmap
    obtain ⟨c', hc', -⟩ := Option.map_eq_some_iff.mp hmap
    exact ⟨c', hc'⟩
  obtain ⟨c, hc⟩ := hcode
  have hclosed : ∃ x c, (s.shut s₀.instances.size).instances[s₀.instances.size]? = some x ∧
      x.code = some c ∧ c.closed = true := by
    refine ⟨{ y with closed := true, code := some c.close }, c.close, ?_, rfl, rfl⟩
    simp [shut, Array.getElem?_modify, hy, hc]
  refine Store.does_release hy (fun _ id hid => h.memory id (hmemory ▸ hid)) ?_ ?_
  · intro hnone
    refine ⟨h.names, hclosed, ?_, fun h₀ => (h.sound h₀).shut _⟩
    intro h₀ k mem hmem
    exact (h.dependents h₀ k mem hmem).2 (by simp [← hmemory, hnone])
  · intro id mem hid hmem
    refine ⟨h.names, hclosed, ?_, fun h₀ => (h.sound h₀).leave hmem⟩
    intro h₀ k mem' hmem'
    obtain ⟨rfl, rfl⟩ | ⟨hk, hmem'⟩ := of_getElem?_put hmem'
    · refine mt ?_ (h.dependents h₀ id mem hmem).1
      simp only [leave, hc, Option.isSome_some, if_true]
      split
      · exact fun hi => absurd hi not_mem_nil
      · exact fun hi => hi
    · refine (h.dependents h₀ k mem' hmem').2 ?_
      rw [← hmemory, hid]
      exact fun heq => hk (Option.some.inj heq)

def StartFailed (i : InstanceId) (m : Module) (name : String) (canceled : Bool) (e : Error) : Prop :=
  ∃ s s' x f id cause, m.start = some f ∧ s.instances[i]? = some x ∧ x.functions[f]? = some (some id) ∧
    call id [] canceled s = .ok (.error cause, s') ∧ e = .instantiation name "start" (.marked .startFunction cause)

theorem tries_runStart (h : Prepared s₀ m name s x) (canceled : Bool) :
    Tries False (runStart x canceled) s (fun _ s' => Prepared s₀ m name s' x)
      fun e s' => StartFailed s₀.instances.size m name canceled e ∧ Prepared s₀ m name s' x := by
  obtain ⟨y, hy, hshape⟩ := h.stored
  have hfunctions : y.functions = x.functions := by
    simpa only [instanceShape] using congrArg Instance.functions hshape
  unfold runStart
  rw [h.module]
  cases hstart : m.start with
  | none => exact tries_pure h
  | some f =>
    refine Tries.after (does_entry False.elim fun id hid => ?_)
    refine Tries.bind (tries_tryCatch ?_)
    refine Does.imp (livesOn_call id [] canceled s).and_eq ?_
    rintro r s' ⟨hcall, hlives⟩
    cases r with
    | ok results => exact tries_pure (h.lives hlives.lives)
    | error cause =>
      refine tries_throw ⟨⟨s, s', y, f, id, cause, hstart, hy, hfunctions ▸ hid, hcall, ?_⟩, h.lives hlives.lives⟩
      rw [h.name]

theorem does_exportValue (hx : s.Conforms m x) (he : ∃ n, m.spaceSize e.kind = some n ∧ e.index < n) :
    Does safe (exportValue x e) s fun v s' => s' = s ∧ s.Has v := by
  obtain ⟨n, hn, hlt⟩ := he
  unfold exportValue
  cases hkind : e.kind with
  | func =>
    rw [hkind] at hn
    cases hn
    obtain ⟨id, f, hid, hf, -⟩ := hx.function (getElem?_eq_getElem hlt)
    refine Does.bind (does_entry_some hid ?_)
    exact does_pure ⟨rfl, lt_size hf⟩
  | table =>
    rw [hkind] at hn
    cases hn
    obtain ⟨id, t, hid, ht, -⟩ := hx.table (getElem?_eq_getElem hlt)
    refine Does.bind (does_entry_some hid ?_)
    exact does_pure ⟨rfl, lt_size ht⟩
  | memory =>
    rw [hkind] at hn
    cases hn
    have hsome : m.memory.isSome = true := by
      by_contra hnone
      rw [if_neg hnone] at hlt
      exact Nat.not_lt_zero _ hlt
    obtain ⟨t, ht⟩ := Option.isSome_iff_exists.mp hsome
    obtain ⟨id, mem, hid, hmem, -⟩ := hx.memory ht
    rw [hid]
    exact does_pure ⟨rfl, lt_size hmem⟩
  | global =>
    rw [hkind] at hn
    cases hn
    obtain ⟨id, g, hid, hg, -⟩ := hx.global (getElem?_eq_getElem hlt)
    refine Does.bind (does_entry_some hid ?_)
    exact does_pure ⟨rfl, lt_size hg⟩
  | unknown b =>
    rw [hkind] at hn
    cases hn

theorem does_exportValues (hx : s.Conforms m x)
    (hes : ∀ e ∈ es, ∃ n, m.spaceSize e.kind = some n ∧ e.index < n) {values : List (String × Extern)}
    (hvalues : ∀ n v, values.lookup n = some v → s.Has v) :
    Does safe (exportValues x es values) s fun values s' =>
      s' = s ∧ ∀ n v, values.lookup n = some v → s.Has v := by
  induction es generalizing values with
  | nil => exact does_pure ⟨rfl, hvalues⟩
  | cons e rest ih =>
    obtain ⟨he, hrest⟩ := forall_mem_cons.mp hes
    refine Does.bind ((does_exportValue hx he).imp ?_)
    rintro v s₁ ⟨rfl, hv⟩
    refine ih hrest fun n w hw => ?_
    rw [lookup_assign] at hw
    split at hw
    · cases hw
      exact hv
    · exact hvalues n w hw

theorem mem_implicitExport (he : e ∈ implicitExport m) :
    ∃ n, m.spaceSize e.kind = some n ∧ e.index < n := by
  unfold implicitExport at he
  split at he
  · rename_i mem hmem
    split at he
    · obtain rfl := mem_singleton.mp he
      exact ⟨1, by simp [Module.spaceSize, hmem], Nat.zero_lt_one⟩
    · cases he
  · cases he

theorem does_buildExports (hb : m.Built source limit seen) (hx : s.Conforms m x) (hmodule : x.module = m) :
    Does safe (buildExports x) s fun y s' => s' = s ∧
      (∃ exports exported, y = { x with exports, exported }) ∧ ∀ n v, y.exported? n = some v → s.Has v := by
  have hes : ∀ e ∈ m.exports ++ implicitExport m, ∃ n, m.spaceSize e.kind = some n ∧ e.index < n :=
    forall_mem_append.mpr ⟨hb.exports, fun _ => mem_implicitExport⟩
  have hnil : ∀ n v, ([] : List (String × Extern)).lookup n = some v → s.Has v := by simp
  unfold buildExports
  rw [hmodule]
  refine Does.bind ((does_exportValues hx hes hnil).imp ?_)
  rintro values s₁ ⟨rfl, hvalues⟩
  exact does_pure ⟨rfl, ⟨_, values, rfl⟩, hvalues⟩

theorem Sound.register (h : s.Sound) (module field : String) {v : Extern} (hv : s.Has v) :
    Sound { s with names := s.names.register module field v } :=
  { h with
    resolved := by
      intro module' field' w hw
      rcases Namespace.resolve?_register hw with rfl | hw
      · exact hv
      · exact h.resolved module' field' w hw }

theorem Sound.publishAll (h : s.Sound) (hx : ∀ n v, x.exported? n = some v → s.Has v) :
    Sound { s with names := x.publishAll es s.names } :=
  { h with
    resolved := by
      intro module field v hv
      rcases Instance.resolve?_publishAll hv with ⟨n, hn⟩ | hv
      · exact hx n v hn
      · exact h.resolved module field v hv }

theorem tries_publish : Tries safe (es.forM fun e =>
        match x.exported? e.name with
        | some v => (register x.name e.name v : Action Unit)
        | none => pure ()) s
      (fun _ s' => s' = { s with names := x.publishAll es s.names }) E := by
  induction es generalizing s with
  | nil => exact tries_pure rfl
  | cons e es ih =>
    refine Tries.bind ?_
    rw [Instance.publishAll]
    dsimp only
    cases hv : x.exported? e.name with
    | none => exact tries_pure ih
    | some v => exact tries_lift (does_modify ih)

structure Instantiated (s₀ : Store) (m : Module) (name : String) (s : Store) (x : Instance) : Prop where
  stored : s.instances[s₀.instances.size]? = some x
  name : x.name = name
  module : x.module = m
  lengths : x.functions.length = m.functions.length ∧ x.tables.length = m.tables.length ∧
    x.globals.length = m.globals.length
  conforms : s.Conforms m x
  bound : AllBound s₀ m s x
  sound : s₀.Sound → s.Sound

theorem Prepared.instantiated (h : Prepared s₀ m name s x) (hy : s.instances[s₀.instances.size]? = some y) :
    Instantiated s₀ m name s y := by
  obtain ⟨y', hy', hshape⟩ := h.stored
  cases hy.symm.trans hy'
  simp only [instanceShape, Instance.mk.injEq] at hshape
  obtain ⟨hname, hmodule, hfunctions, hglobals, -, htables, hmemory, -⟩ := hshape
  have hslot : ∀ kind k, y.slot? kind k = x.slot? kind k := by
    intro kind k
    cases kind with
    | func => exact congrArg (fun xs => xs[k]?.join) hfunctions
    | table => exact congrArg (fun xs => xs[k]?.join) htables
    | memory => exact congrArg (fun o => if k = 0 then o else none) hmemory
    | global => exact congrArg (fun xs => xs[k]?.join) hglobals
    | unknown b => rfl
  exact {
    stored := hy
    name := hname.trans h.name
    module := hmodule.trans h.module
    lengths := by
      rw [hfunctions, htables, hglobals]
      exact h.lengths
    conforms := fun kind k => (h.conforms kind k).later (.refl s) (hslot kind k)
    bound := h.bound.later (.refl s) hslot hmodule
    sound := h.sound }

theorem Instantiated.later (h : Instantiated s₀ m name s x) (hl : s.Later s') {exports : List Export}
    {exported : List (String × Extern)}
    (hstored : s'.instances[s₀.instances.size]? = some { x with exports, exported })
    (hsound : s.Sound → s'.Sound) : Instantiated s₀ m name s' { x with exports, exported } :=
  { h with
    stored := hstored
    conforms := fun kind k => (h.conforms kind k).later hl rfl
    bound := h.bound.later hl (fun _ _ => rfl) rfl
    sound := fun h₀ => hsound (h.sound h₀) }

/-- What has happened if an instance could not be made and has not been given back yet. -/
def Broken (s₀ : Store) (m : Module) (name : String) (startDisabled canceled : Bool) (e : Error) (s : Store) : Prop :=
  (Declined name e ∧ ∃ x, s.instances[s₀.instances.size]? = some x ∧ Pending s₀ m s x) ∨
    (startDisabled = false ∧ StartFailed s₀.instances.size m name canceled e ∧ ∃ x, Prepared s₀ m name s x)

section

variable {key : ModuleKey} {startDisabled canceled : Bool} (hb : m.Built source limit seen)
include hb

theorem Prepared.tries_export (h : Prepared s₀ m name s x) :
    Tries safe (publishAt s₀.instances.size) s (fun _ s' => ∃ x, Instantiated s₀ m name s' x) E := by
  obtain ⟨y, hy, -⟩ := h.stored
  have hi := h.instantiated hy
  refine Tries.after (does_getInstance (fun _ => ⟨y, hy⟩) (forall_of_eq_some hy ?_))
  refine Tries.after ((does_buildExports hb hi.conforms hi.module).imp ?_)
  rintro _ s₁ ⟨rfl, ⟨exports, exported, rfl⟩, hhas⟩
  refine Tries.after (does_modify (tries_publish.imp ?_ fun _ _ h => h))
  rintro - _ rfl
  refine ⟨{ y with exports, exported }, hi.later ?_ ?_ ?_⟩
  · exact { Later.refl s₁ with }
  · rw [Array.getElem?_modify, if_pos rfl, hy]
    rfl
  · exact fun hs => (hs.modifyInstances _ _).publishAll hhas

theorem tries_instantiateAt (hsafe : safe → s₀.Sound) (hcode : safe → s₀.HasCode key m)
    (houtfit : safe → ∃ r s', outfit s₀.instances.size (s₀.withInstance name m) = .ok (r, s'))
    (hstart : safe → startDisabled = true) :
    Tries safe (instantiateAt s₀.instances.size key startDisabled canceled) (s₀.withInstance name m)
      (fun _ s' => ∃ x, Instantiated s₀ m name s' x) (Broken s₀ m name startDisabled canceled) := by
  unfold instantiateAt
  refine Tries.bind ((tries_prepare hb hsafe hcode houtfit).imp ?_ fun _ _ h => .inl h)
  rintro x s₁ ⟨h₁, -⟩
  cases startDisabled with
  | true => exact h₁.tries_export hb
  | false =>
    refine Tries.bind (Tries.imp (Does.of_exists (tries_runStart h₁ canceled) fun hs => nomatch hstart hs) ?_ ?_)
    · intro _ s₂ h₂
      exact h₂.tries_export hb
    · intro e s₂ ⟨he, h₂⟩
      exact .inr ⟨rfl, he, x, h₂⟩

/-- What has happened if a module could not be instantiated. -/
inductive Refused (s₀ : Store) (m : Module) (name : String) (startDisabled canceled : Bool) (e : Error) (s : Store) :
    Prop
  /-- Everything that was there before is unchanged. -/
  | declined (he : Declined name e) (h : s₀.Extends s)
  /-- The start function ran and failed. -/
  | failed (hstart : startDisabled = false) (he : StartFailed s₀.instances.size m name canceled e) (h : Failed s₀ s)

theorem tries_instantiate (hsafe : safe → s.Sound) (hcode : safe → s.HasCode key m)
    (houtfit : safe → ∃ r s', outfit s.instances.size (s.withInstance name m) = .ok (r, s'))
    (hstart : safe → startDisabled = true) :
    Tries safe (instantiate key m name startDisabled canceled) s
      (fun i s' => i = s.instances.size ∧ ∃ x, Instantiated s m name s' x)
      fun e s' => Refused s m name startDisabled canceled e s' ∧ (s.Sound → s'.Sound) := by
  unfold instantiate
  refine Tries.after (does_modifyGet ?_)
  refine Tries.bind (tries_tryCatch ((tries_instantiateAt hb hsafe hcode houtfit hstart).imp ?_ ?_))
  · rintro - s₁ ⟨x, h₁⟩
    refine Tries.bind (tries_modify (tries_pure ⟨rfl, x, ?_⟩))
    refine h₁.later ?_ h₁.stored ?_
    · exact { Later.refl s₁ with }
    · exact fun hs => { hs with }
  · rintro e s₁ (⟨he, x, hx, h₁⟩ | ⟨hfalse, he, x, h₁⟩)
    · refine Tries.after ((h₁.does_release hx).imp ?_)
      intro _ s₂ ⟨h₂, hsound⟩
      refine Tries.bind (tries_modify (tries_throw ⟨.declined he { h₂ with }, fun h₀ => { hsound h₀ with }⟩))
    · refine Tries.after (h₁.does_release.imp ?_)
      intro _ s₂ h₂
      refine Tries.bind (tries_modify (tries_throw ⟨.failed hfalse he ?_, fun h₀ => { h₂.sound h₀ with }⟩))
      exact { h₂ with sound := fun h₀ => { h₂.sound h₀ with } }

section

variable {key : ModuleKey} {startDisabled canceled : Bool}

theorem instantiate_ok (h : instantiate key m name startDisabled canceled s = .ok (.ok i, s')) :
    i = s.instances.size ∧ ∃ x, Instantiated s m name s' x :=
  (tries_instantiate hb False.elim False.elim False.elim False.elim).of_ok h

theorem instantiate_error {e : Error}
    (h : instantiate key m name startDisabled canceled s = .ok (.error e, s')) :
    Refused s m name startDisabled canceled e s' ∧ (s.Sound → s'.Sound) :=
  (tries_instantiate hb False.elim False.elim False.elim False.elim).of_error h

end

end

end Store

end ProtoWasm
