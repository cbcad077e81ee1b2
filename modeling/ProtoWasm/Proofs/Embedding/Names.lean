import ProtoWasm.Embedding.HostModule
import ProtoWasm.Proofs.Store.Registration

/-! # Names of instances

An embedding finds instances by their names, and refuses to use a name twice. It goes by the values that were registered
under the name, so a name is safe only while its instance exports something.
-/
namespace ProtoWasm

open List StoreM

namespace Embedding

variable {α : Type} {safe : Prop} {e e' : Embedding} {i : InstanceId} {name : String} {x : Instance}
  {Q : α → Embedding → Prop}

/-! ## Work on the store -/

theorem does_onStore {a : StoreM α}
    (h : Does safe a e.store fun x store => Q x { e with store }) : Does safe (onStore a) e Q := by
  unfold Does at h ⊢
  unfold onStore
  cases hr : a e.store with
  | ok r =>
    rw [hr] at h
    exact h
  | error d =>
    rw [hr] at h
    exact h

theorem tries_onStoreAction {a : Action α} {E : Error → Embedding → Prop}
    (h : Tries safe a e.store (fun x store => Q x { e with store }) fun err store => E err { e with store }) :
    Tries safe (onStoreAction a) e Q E := by
  refine does_onStore (Does.imp h ?_)
  intro r store hr
  cases r with
  | ok x => exact hr
  | error err => exact hr

/-! ## Names in use -/

def Bears (e : Embedding) (i : InstanceId) (name : String) : Prop :=
  ∃ x, e.store.instances[i]? = some x ∧ x.closed = false ∧ x.name = name

/-- Whatever open instance has the name exports something. -/
def Guards (e : Embedding) (name : String) : Prop :=
  ∀ (i : InstanceId) x, e.store.instances[i]? = some x → x.closed = false → x.name = name → x.exports ≠ []

/-- What is done with an embedding. No module is instantiated under the name of an open instance that exports nothing,
and instances are closed once. -/
inductive Step (e : Embedding) : Embedding → Prop
  | compile {source canceled r e₁} (h : compile source canceled e = .ok (r, e₁)) : Step e e₁
  | closeCompiled {key e₁} (h : onStore (Store.deleteCompiled key) e = .ok ((), e₁)) : Step e e₁
  | host {m : HostModule} {r e₁} (h : m.instantiate e = .ok (r, e₁)) : Step e e₁
  | instantiate {c : CompiledHandle} {config canceled r e₁}
      (hc : ∃ source maxPages, Module.decode source maxPages = .ok c.module)
      (hname : e.Guards (config.name.getD defaultName))
      (h : Embedding.instantiate (some c) config canceled e = .ok (r, e₁)) : Step e e₁
  | call {f params canceled r e₁} (h : onStore (Store.call f params canceled) e = .ok (r, e₁)) : Step e e₁
  | growMemory {k delta r e₁} (h : onStoreAction (Store.growMemory k delta) e = .ok (r, e₁)) : Step e e₁
  | close {k n e₁} (hk : e.Bears k n) (h : close k e = .ok ((), e₁)) : Step e e₁

/-- The embedding comes from a new one. -/
inductive Reachable : Embedding → Prop
  | create {config registered e₁} (h : create config registered = .ok e₁) : Reachable e₁
  | step {e₁ e₂} (h : Reachable e₁) (hs : Step e₁ e₂) : Reachable e₂

/-- Modules that can be found are the open instances, no two of which have a name in common. -/
structure Tidy (e : Embedding) : Prop where
  unique : ∀ i j name, e.Bears i name → e.Bears j name → i = j
  found : ∀ name i, e.module? name = some i ↔ e.Bears i name
  -- a name is in use if its instance exports something
  used : ∀ (i : InstanceId) x, e.store.instances[i]? = some x → x.closed = false → x.exports ≠ [] →
    e.store.names.has x.name = true
  -- what is closed at the end is there
  listed : ∀ p ∈ e.modules, p.2 < e.store.instances.size
  memory : ∀ (i : InstanceId) x id, e.store.instances[i]? = some x → x.memory = some id → id < e.store.memories.size
  hostMemory : ∀ id ∈ e.hostMemories, id < e.store.memories.size

theorem tidy_create {config : EmbeddingConfig} {registered : Bool} (h : create config registered = .ok e) : e.Tidy := by
  unfold create at h
  split at h
  · cases h
  · cases h
    have hnone (i : InstanceId) (name : String) :
        ¬ Bears { config, store := { config := config.store } } i name := by
      rintro ⟨x, hx, -⟩
      simp at hx
    exact {
      unique := fun i j name hi => absurd hi (hnone i name)
      found := fun name i => ⟨nofun, fun hi => absurd hi (hnone i name)⟩
      used := by simp
      listed := by simp
      memory := by simp
      hostMemory := by simp }

/-! ## What leaves instances as they are -/

/-- Instances are as they were, apart from what their code embeds of memories, and no name has been freed. -/
structure SameInstances (s s' : Store) : Prop where
  instances : s'.instances.map Store.instanceShape = s.instances.map Store.instanceShape
  memories : s.memories.size ≤ s'.memories.size
  names : ∀ name, s.names.has name = true → s'.names.has name = true

namespace SameInstances

variable {s s' s'' : Store}

theorem ofLives (h : s.Lives s') : SameInstances s s' :=
  ⟨h.instances, Nat.le_of_eq (Store.size_of_map_eq h.memories).symm, fun _ hn => h.names ▸ hn⟩

theorem exists_before (h : SameInstances s s') {k : InstanceId} {x' : Instance} (hx' : s'.instances[k]? = some x') :
    ∃ x, s.instances[k]? = some x ∧ x.name = x'.name ∧ x.closed = x'.closed ∧ x.exports = x'.exports ∧
      x.memory = x'.memory := by
  obtain ⟨x, hx, hshape⟩ := Store.getElem?_of_map_eq h.instances.symm hx'
  exact ⟨x, hx, (congrArg Instance.name hshape :), (congrArg Instance.closed hshape :),
    (congrArg Instance.exports hshape :), (congrArg Instance.memory hshape :)⟩

end SameInstances

structure Stays (e e' : Embedding) : Prop where
  store : SameInstances e.store e'.store
  modules : e'.modules = e.modules
  hostMemory : ∀ id ∈ e'.hostMemories, id ∈ e.hostMemories ∨ id < e'.store.memories.size

theorem Stays.bears (h : e.Stays e') : e'.Bears i name ↔ e.Bears i name := by
  constructor
  · rintro ⟨x', hx', hopen, hname⟩
    obtain ⟨x, hx, hname', hclosed, -⟩ := h.store.exists_before hx'
    exact ⟨x, hx, hclosed.trans hopen, hname'.trans hname⟩
  · rintro ⟨x, hx, hopen, hname⟩
    obtain ⟨x', hx', hshape⟩ := Store.getElem?_of_map_eq h.store.instances hx
    exact ⟨x', hx', (congrArg Instance.closed hshape :).trans hopen, (congrArg Instance.name hshape :).trans hname⟩

theorem Tidy.stays (h : e.Tidy) (hs : e.Stays e') : e'.Tidy where
  unique i j name hi hj := h.unique i j name (hs.bears.mp hi) (hs.bears.mp hj)
  found name i := by
    rw [module?, hs.modules, hs.bears]
    exact h.found name i
  used i x' hx' hopen hexports := by
    obtain ⟨x, hx, hname, hclosed, hsame, -⟩ := hs.store.exists_before hx'
    rw [← hname]
    exact hs.store.names _ (h.used i x hx (hclosed.trans hopen) (hsame ▸ hexports))
  listed := by
    rw [hs.modules, Store.size_of_map_eq hs.store.instances]
    exact h.listed
  memory i x' id hx' hid := by
    obtain ⟨x, hx, -, -, -, hmemory⟩ := hs.store.exists_before hx'
    exact Nat.lt_of_lt_of_le (h.memory i x id hx (hmemory.trans hid)) hs.store.memories
  hostMemory id hid := by
    rcases hs.hostMemory id hid with hid | hid
    · exact Nat.lt_of_lt_of_le (h.hostMemory id hid) hs.store.memories
    · exact hid

def Compiles (e e' : Embedding) : Prop :=
  ∃ cache metrics nextKey compiled, e' = { e with store := { e.store with cache, metrics, nextKey }, compiled }

theorem Compiles.stays (h : e.Compiles e') : e.Stays e' := by
  obtain ⟨cache, metrics, nextKey, compiled, rfl⟩ := h
  exact ⟨⟨rfl, Nat.le_refl _, fun _ h => h⟩, rfl, fun _ h => .inl h⟩

theorem tries_compile (source : Option (List UInt8)) (canceled : Bool) :
    Tries False (compile source canceled) e
      (fun c e' => e.Compiles e' ∧ ∃ source, Module.decode source e.config.maxPages = .ok c.module)
      fun _ e' => e.Compiles e' := by
  have hrefl : e.Compiles e := ⟨_, _, _, _, rfl⟩
  unfold compile
  split
  · exact tries_throw hrefl
  · split
    · exact tries_throw hrefl
    · refine Tries.bind (tries_get ?_)
      split
      · exact tries_throw hrefl
      · rename_i m hm
        refine Tries.after (does_onStore (does_modifyGet ?_))
        have hcompile : Tries False (Store.compile e.store.nextKey m canceled)
            { e.store with nextKey := e.store.nextKey + 1 }
            (fun _ s => ∃ cache metrics nextKey, s = { e.store with cache, metrics, nextKey })
            fun _ s => ∃ cache metrics nextKey, s = { e.store with cache, metrics, nextKey } := by
          refine does_of_forall fun r s hr => ?_
          obtain ⟨cache, metrics, rfl⟩ := Store.eq_of_compile hr
          cases r <;> exact ⟨_, _, _, rfl⟩
        refine Tries.bind (tries_onStoreAction (hcompile.imp ?_ ?_))
        · rintro _ _ ⟨cache, metrics, nextKey, rfl⟩
          exact Tries.bind (tries_modify (tries_pure ⟨⟨_, _, _, _, rfl⟩, _, hm⟩))
        · rintro _ _ ⟨cache, metrics, nextKey, rfl⟩
          exact ⟨_, _, _, _, rfl⟩

end Embedding

/-! ### Modules of the host -/

namespace HostModule

open ProtoWasm.Embedding

variable {e e' : Embedding} {s s' : Store}

/-- The host gets things of its own, and memories with a property. -/
structure Furnishes (P : Memory InstanceId → Prop) (s s' : Store) : Prop where
  instances : s'.instances = s.instances
  names : s'.names = s.names
  kept : Keeps s.memories s'.memories
  added : ∀ (k : MemoryId) mem, s.memories.size ≤ k → s'.memories[k]? = some mem → P mem

theorem Furnishes.refl (P : Memory InstanceId → Prop) (s : Store) : Furnishes P s s :=
  ⟨rfl, rfl, .refl _, fun _ _ => none_beyond⟩

theorem Furnishes.trans {P : Memory InstanceId → Prop} {s s' s'' : Store} (h : Furnishes P s s')
    (h' : Furnishes P s' s'') : Furnishes P s s'' where
  instances := h'.instances.trans h.instances
  names := h'.names.trans h.names
  kept := h.kept.trans h'.kept
  added k mem hk hmem := by
    by_cases hlt : k < s'.memories.size
    · have hmem' := Array.getElem?_eq_getElem hlt
      cases hmem.symm.trans (h'.kept k _ hmem')
      exact h.added k _ hk hmem'
    · exact h'.added k mem (Nat.le_of_not_lt hlt) hmem

def Grants (P : Memory InstanceId → Prop) (d : HostDef) : Prop :=
  ∀ min max guarded mem, d = .memory min max → Memory.create min max guarded = .ok mem → P mem

variable {P : Memory InstanceId → Prop}

theorem tries_make (m : HostModule) (name : String) {d : HostDef} (hd : Grants P d) :
    Tries False (m.make name d) s
      (fun v s' => Furnishes P s s' ∧ ∀ id, v = .memory (some id) → ∃ mem, s'.memories[id]? = some mem ∧ P mem)
      fun _ s' => Furnishes P s s' := by
  have hsame {s' : Store} (hs : s'.instances = s.instances ∧ s'.names = s.names ∧ s'.memories = s.memories) :
      Furnishes P s s' := by
    refine ⟨hs.1, hs.2.1, ?_, ?_⟩
    · rw [hs.2.2]
      exact .refl _
    · rw [hs.2.2]
      exact (Furnishes.refl P s).added
  cases d with
  | func type run => exact tries_pure ⟨.refl P s, fun _ => Extern.noConfusion⟩
  | memory min max =>
    refine Tries.bind (tries_get ?_)
    split
    · rename_i mem hmem
      have hP := hd min max _ mem rfl hmem
      refine Tries.after (does_modifyGet (tries_pure ⟨⟨rfl, rfl, (Keeps.refl _).push mem, ?_⟩, ?_⟩))
      · exact Store.forall_push_of_le (Furnishes.refl P s).added hP
      · rintro id ⟨⟩
        exact ⟨mem, Array.getElem?_push_size, hP⟩
    · exact tries_throw (.refl P s)
  | table min max =>
    exact Tries.after (does_modifyGet (tries_pure ⟨hsame ⟨rfl, rfl, rfl⟩, fun _ => Extern.noConfusion⟩))
  | global type v =>
    refine Tries.after (Does.imp ?_ fun g s' hs => tries_pure ⟨hsame hs, fun _ => Extern.noConfusion⟩)
    refine Does.bind (does_modifyGet (Does.bind (does_modifyGet (Does.bind (does_setGlobal False.elim ?_)))))
    intro g bytes bytes' _ _ _
    exact does_pure ⟨rfl, rfl, rfl⟩

theorem mem_memories {values : List (String × Extern)} {id : MemoryId} :
    id ∈ memories values ↔ ∃ name, (name, .memory (some id)) ∈ values := by
  unfold memories
  rw [mem_filterMap]
  constructor
  · rintro ⟨⟨name, v⟩, hmem, hv⟩
    cases v with
    | memory o =>
      obtain rfl : o = some id := hv
      exact ⟨name, hmem⟩
    | func | host | foreignFunc | table | global => cases hv
  · rintro ⟨name, hmem⟩
    exact ⟨_, hmem, rfl⟩

theorem tries_makeAll (m : HostModule) {exports : List (String × HostDef)} (hexports : ∀ p ∈ exports, Grants P p.2) :
    Tries False (exports.mapM fun (name, d) => do return (name, ← m.make name d)) s
      (fun values s' => Furnishes P s s' ∧ ∀ id ∈ memories values, ∃ mem, s'.memories[id]? = some mem ∧ P mem)
      fun _ s' => Furnishes P s s' := by
  induction exports generalizing s with
  | nil => exact tries_pure ⟨.refl P s, by simp [memories]⟩
  | cons p exports ih =>
    obtain ⟨hp, hexports⟩ := forall_mem_cons.mp hexports
    rw [mapM_cons]
    refine Tries.bind (Tries.bind ((m.tries_make p.1 hp).imp ?_ fun _ _ h => h))
    rintro v s₁ ⟨hs₁, hv⟩
    refine tries_pure (Tries.bind ((ih hexports).imp ?_ fun _ _ h => hs₁.trans h))
    rintro values s₂ ⟨hs₂, hvalues⟩
    refine tries_pure ⟨hs₁.trans hs₂, fun id hid => ?_⟩
    obtain ⟨name, hmem⟩ := mem_memories.mp hid
    rcases mem_cons.mp hmem with hmem | hmem
    · obtain ⟨mem, hget, hP⟩ := hv id (Prod.mk.inj hmem).2.symm
      exact ⟨mem, hs₂.kept id mem hget, hP⟩
    · exact hvalues id (mem_memories.mpr ⟨name, hmem⟩)

theorem tries_registerAll (module : String) (values : List (String × Extern)) {E : Error → Store → Prop} :
    Tries False (values.forM fun (name, v) => (Store.register module name v : Action Unit)) s
      (fun _ s' => ∃ names, s' = { s with names } ∧
        ∀ n, names.has n = (n == module && !values.isEmpty || s.names.has n)) E := by
  induction values generalizing s with
  | nil => exact tries_pure ⟨s.names, rfl, by simp⟩
  | cons p values ih =>
    refine Tries.bind (tries_lift (does_modify (ih.imp ?_ fun _ _ h => h)))
    rintro - _ ⟨names, rfl, hnames⟩
    refine ⟨names, rfl, fun n => ?_⟩
    rw [hnames, Namespace.has_register]
    cases n == module <;> simp

/-- A module of the host may have been registered, and memories with a property have been made for it. -/
structure Hosts (P : Memory InstanceId → Prop) (module : String) (e e' : Embedding) : Prop where
  config : e'.config = e.config
  modules : e'.modules = e.modules
  instances : e'.store.instances = e.store.instances
  kept : Keeps e.store.memories e'.store.memories
  added : ∀ (k : MemoryId) mem, e.store.memories.size ≤ k → e'.store.memories[k]? = some mem → P mem
  names : ∀ n, e.store.names.has n = true → e'.store.names.has n = true
  others : ∀ n, n ≠ module → e'.store.names.has n = e.store.names.has n
  hostMemory : ∀ id ∈ e'.hostMemories, id ∈ e.hostMemories ∨ ∃ mem, e'.store.memories[id]? = some mem ∧ P mem

theorem Furnishes.hosts (h : Furnishes P e.store s) (module : String) : Hosts P module e { e with store := s } where
  config := rfl
  modules := rfl
  instances := h.instances
  kept := h.kept
  added := h.added
  names n hn := h.names ▸ hn
  others n _ := by rw [h.names]
  hostMemory _ hid := .inl hid

theorem Hosts.stays {module : String} (h : Hosts P module e e') : e.Stays e' where
  store := ⟨by rw [h.instances], h.kept.size_le, h.names⟩
  modules := h.modules
  hostMemory id hid := by
    refine (h.hostMemory id hid).imp_right ?_
    rintro ⟨mem, hmem, -⟩
    exact lt_size hmem

theorem tries_instantiate (m : HostModule) (hexports : ∀ p ∈ m.exports, Grants P p.2) :
    Tries False m.instantiate e (fun _ e' => Hosts P m.name e e') fun _ e' => Hosts P m.name e e' := by
  have hrefl : Hosts P m.name e e := (Furnishes.refl P e.store).hosts m.name
  unfold instantiate
  split
  · exact tries_throw hrefl
  · refine Tries.bind (tries_get ?_)
    split
    · exact tries_throw hrefl
    · refine Tries.bind (tries_onStoreAction ((m.tries_makeAll hexports).imp ?_ ?_))
      · rintro values s₁ ⟨hs₁, hvalues⟩
        refine Tries.bind (tries_onStoreAction ((tries_registerAll m.name values).imp ?_ fun _ _ h => h))
        rintro - _ ⟨names, rfl, hnames⟩
        refine tries_modify { hs₁.hosts m.name with names := ?_, others := ?_, hostMemory := ?_ }
        · intro n hn
          change names.has n = true
          rw [hnames, hs₁.names, hn, Bool.or_true]
        · intro n hn
          change names.has n = _
          rw [hnames, hs₁.names, beq_false_of_ne hn, Bool.false_and, Bool.false_or]
        · intro id hid
          exact (mem_append.mp hid).imp_right (hvalues id)
      · intro _ s₁ hs₁
        exact hs₁.hosts m.name

end HostModule

namespace Embedding

variable {safe : Prop} {e e' : Embedding} {i : InstanceId} {name : String} {s : Store} {x : Instance}
  {α : Type}

/-! ## Instantiation -/

theorem mem_assign {κ : Type} [BEq κ] {k : κ} {a : α} {xs : List (κ × α)} {p : κ × α} (h : p ∈ assign k a xs) :
    p ∈ xs ∨ p = (k, a) := by
  induction xs with
  | nil => exact .inr (mem_singleton.mp h)
  | cons x xs ih =>
    unfold assign at h
    split at h
    · exact (mem_cons.mp h).symm.imp_left (mem_cons_of_mem _)
    · rcases mem_cons.mp h with rfl | h
      · exact .inl mem_cons_self
      · exact (ih h).imp_left (mem_cons_of_mem _)

theorem bears_added (ha : Store.Added e.store e'.store x) :
    e'.Bears i name ↔ e.Bears i name ∨ i = e.store.instances.size ∧ x.closed = false ∧ x.name = name := by
  constructor
  · rintro ⟨y, hy, hopen, hname⟩
    rcases ha.exists_before hy with ⟨rfl, rfl⟩ | ⟨y₀, hy₀, hshape⟩
    · exact .inr ⟨rfl, hopen, hname⟩
    · exact .inl ⟨y₀, hy₀, (congrArg Instance.closed hshape.symm :).trans hopen,
        (congrArg Instance.name hshape.symm :).trans hname⟩
  · rintro (⟨y₀, hy₀, hopen, hname⟩ | ⟨rfl, hopen, hname⟩)
    · obtain ⟨y, hy, hshape⟩ := ha.kept i y₀ hy₀
      exact ⟨y, hy, (congrArg Instance.closed hshape :).trans hopen, (congrArg Instance.name hshape :).trans hname⟩
    · exact ⟨x, ha.stored, hopen, hname⟩

theorem Tidy.added (h : e.Tidy) (ha : Store.Added e.store e'.store x)
    (hnames : ∀ n, e.store.names.has n = true → e'.store.names.has n = true)
    (hfree : x.closed = false → ∀ j, ¬ e.Bears j x.name)
    (hused : x.closed = false → x.exports ≠ [] → e'.store.names.has x.name = true)
    (hfound : ∀ n, e'.module? n = if x.closed = false ∧ n = x.name then some e.store.instances.size else e.module? n)
    (hlisted : ∀ p ∈ e'.modules, p ∈ e.modules ∨ p.2 = e.store.instances.size)
    (hhost : e'.hostMemories = e.hostMemories) : e'.Tidy where
  unique i j n hi hj := by
    rcases bears_added ha |>.mp hi with hi | ⟨rfl, hopen, rfl⟩
    · rcases bears_added ha |>.mp hj with hj | ⟨rfl, hopen, rfl⟩
      · exact h.unique i j n hi hj
      · exact absurd hi (hfree hopen i)
    · rcases bears_added ha |>.mp hj with hj | ⟨rfl, -, -⟩
      · exact absurd hj (hfree hopen j)
      · rfl
  found n i := by
    rw [hfound, bears_added ha]
    by_cases hnew : x.closed = false ∧ n = x.name
    · obtain ⟨hopen, rfl⟩ := hnew
      rw [if_pos ⟨hopen, rfl⟩]
      constructor
      · rintro ⟨⟩
        exact .inr ⟨rfl, hopen, rfl⟩
      · rintro (hi | ⟨rfl, -⟩)
        · exact absurd hi (hfree hopen i)
        · rfl
    · rw [if_neg hnew, h.found]
      constructor
      · exact .inl
      · rintro (hi | ⟨-, hopen, hn⟩)
        · exact hi
        · exact absurd ⟨hopen, hn.symm⟩ hnew
  used i y hy hopen hexports := by
    rcases ha.exists_before hy with ⟨rfl, rfl⟩ | ⟨y₀, hy₀, hshape⟩
    · exact hused hopen hexports
    · have hname : y.name = y₀.name := (congrArg Instance.name hshape :)
      rw [hname]
      refine hnames _ (h.used i y₀ hy₀ ((congrArg Instance.closed hshape.symm :).trans hopen) ?_)
      have hsame : y.exports = y₀.exports := (congrArg Instance.exports hshape :)
      exact hsame ▸ hexports
  listed p hp := by
    rw [ha.count]
    rcases hlisted p hp with hp | hp
    · exact Nat.lt_succ_of_lt (h.listed p hp)
    · exact hp ▸ Nat.lt_succ_self _
  memory i y id hy hid := by
    rcases ha.exists_before hy with ⟨rfl, rfl⟩ | ⟨y₀, hy₀, hshape⟩
    · exact ha.memory id hid
    · have hmemory : y₀.memory = y.memory := (congrArg Instance.memory hshape.symm :)
      exact Nat.lt_of_lt_of_le (h.memory i y₀ id hy₀ (hmemory.trans hid)) ha.memories
  hostMemory id hid := Nat.lt_of_lt_of_le (h.hostMemory id (hhost ▸ hid)) ha.memories

/-- A name that nothing is registered under is that of no open instance, if such an instance exports something. -/
theorem Tidy.not_bears (h : e.Tidy) (hname : e.Guards name) (hunused : e.store.names.has name = false) :
    ∀ j, ¬ e.Bears j name := by
  rintro j ⟨y, hy, hopen, rfl⟩
  have hused := h.used j y hy hopen (hname j y hy hopen rfl)
  rw [hunused] at hused
  cases hused

theorem Tidy.tries_instantiate (h : e.Tidy) {c : CompiledHandle} {source : List UInt8} {limit : Nat}
    {seen : List Section} (hb : c.module.Built source limit seen) (config : ModuleConfig) (canceled : Bool)
    (hname : e.Guards (config.name.getD defaultName)) :
    Tries False (instantiate (some c) config canceled) e (fun _ e' => e'.Tidy) fun _ e' => e'.Tidy := by
  unfold instantiate
  refine Tries.bind (tries_get ?_)
  split
  · exact tries_throw h
  · rename_i hunused
    have hfree := h.not_bears hname (by simpa [Namespace.requireUnused] using hunused)
    refine Tries.bind (tries_onStoreAction ((Store.tries_instantiate_added hb _ _).imp ?_ ?_))
    · rintro _ s ⟨rfl, x, hx⟩
      have hhas (n : String) : (x.publishAll x.exports e.store.names).has n = _ :=
        Instance.has_publishAll hx.exports.exported n
      refine Tries.bind (tries_modify (tries_pure (h.added hx.toAdded ?_ ?_ ?_ ?_ ?_ rfl)))
      · intro n hn
        change s.names.has n = true
        rw [hx.names, Instance.publish, hhas, hn, Bool.or_true]
      · rw [hx.name]
        exact fun _ => hfree
      · intro _ hexports
        change s.names.has x.name = true
        rw [hx.names, Instance.publish, hhas]
        simp [hexports]
      · intro n
        rw [module?, lookup_assign, hx.name]
        simp [hx.opened, module?]
      · intro p hp
        exact (mem_assign hp).imp_right (congrArg Prod.snd)
    · rintro _ s ⟨x, hx⟩
      refine h.added hx.toAdded (fun n hn => ?_) ?_ ?_ ?_ (fun p hp => .inl hp) rfl
      · change s.names.has n = true
        rw [hx.names]
        exact hn
      · simp [hx.closed]
      · simp [hx.closed]
      · simp [hx.closed, module?]

/-! ## Closing -/

structure Shuts (i : InstanceId) (s s' : Store) : Prop where
  count : s'.instances.size = s.instances.size
  memories : s'.memories.size = s.memories.size
  exists_before : ∀ (k : InstanceId) y', s'.instances[k]? = some y' → ∃ y, s.instances[k]? = some y ∧
    y'.name = y.name ∧ y'.exports = y.exports ∧ y'.memory = y.memory ∧ y'.closed = (y.closed || k == i)

theorem shuts_shut (i : InstanceId) (s : Store) : Shuts i s (s.shut i) where
  count := Array.size_modify
  memories := rfl
  exists_before k y' hy' := by
    change (s.instances.modify i _)[k]? = some y' at hy'
    rw [Array.getElem?_modify] at hy'
    split at hy'
    · rename_i hk
      subst hk
      obtain ⟨y, hy, rfl⟩ := Option.map_eq_some_iff.mp hy'
      exact ⟨y, hy, rfl, rfl, rfl, by simp⟩
    · rename_i hk
      have hne : (k == i) = false := by simpa using fun h => hk h.symm
      exact ⟨y', hy', rfl, rfl, rfl, by rw [hne, Bool.or_false]⟩

theorem does_closeInstance (hx : s.instances[i]? = some x)
    (hmemory : safe → ∀ id, x.memory = some id → id < s.memories.size) :
    Does safe (Store.closeInstance i) s fun _ s' => Shuts i s s' ∧ s'.names = s.names := by
  refine Does.bind (does_getInstance (fun _ => ⟨x, hx⟩) (forall_of_eq_some hx ?_))
  split
  · rename_i hclosed
    refine does_pure ⟨⟨rfl, rfl, fun k y hy => ⟨y, hy, rfl, rfl, rfl, ?_⟩⟩, rfl⟩
    by_cases hk : k = i
    · subst hk
      cases hx.symm.trans hy
      rw [hclosed]
      rfl
    · simp [hk]
  · have hshut := shuts_shut i s
    refine Store.does_release hx hmemory (fun _ => ⟨hshut, rfl⟩) fun id mem _ _ => ⟨?_, rfl⟩
    exact { hshut with memories := Array.size_setIfInBounds, exists_before := hshut.exists_before }

theorem does_close (hx : e.store.instances[i]? = some x)
    (hmemory : safe → ∀ id, x.memory = some id → id < e.store.memories.size) :
    Does safe (close i) e fun _ e' =>
      Shuts i e.store e'.store ∧ e'.store.names = e.store.names.remove x.name ∧
      e'.modules = (e.modules.filter fun p => p.1 != x.name) ∧ e'.hostMemories = e.hostMemories := by
  refine Does.bind (does_onStore (does_getInstance (fun _ => ⟨x, hx⟩) (forall_of_eq_some hx ?_)))
  have hclose : Does safe (Store.closeInstance i) { e.store with names := e.store.names.remove x.name } _ :=
    does_closeInstance hx hmemory
  refine Does.bind (does_modify (does_onStore (hclose.imp ?_)))
  rintro - s ⟨hs, hnames⟩
  exact ⟨⟨hs.count, hs.memories, hs.exists_before⟩, hnames, rfl, rfl⟩

theorem Shuts.bears (h : Shuts i e.store e'.store) {k : InstanceId} : e'.Bears k name ↔ e.Bears k name ∧ k ≠ i := by
  constructor
  · rintro ⟨y', hy', hopen, hname⟩
    obtain ⟨y, hy, hname', -, -, hclosed⟩ := h.exists_before k y' hy'
    rw [hclosed, Bool.or_eq_false_iff] at hopen
    exact ⟨⟨y, hy, hopen.1, hname'.symm.trans hname⟩, by simpa using hopen.2⟩
  · rintro ⟨⟨y, hy, hopen, hname⟩, hk⟩
    have hlt := lt_size hy
    rw [← h.count] at hlt
    have hy' := Array.getElem?_eq_getElem hlt
    obtain ⟨y₀, hy₀, hname', -, -, hclosed⟩ := h.exists_before k _ hy'
    cases hy.symm.trans hy₀
    exact ⟨_, hy', by rw [hclosed, hopen]; simpa using hk, hname'.trans hname⟩

theorem Tidy.does_close (h : e.Tidy) (hi : e.Bears i name) :
    Does False (close i) e fun _ e' => e'.Tidy := by
  obtain ⟨x, hx, hopen, rfl⟩ := hi
  refine (Embedding.does_close hx False.elim).imp ?_
  rintro - e' ⟨hs, hnames, hmodules, hhost⟩
  -- no other open instance has the name that is freed
  have hother : ∀ k n, e'.Bears k n → n ≠ x.name := by
    rintro k _ hk rfl
    obtain ⟨hk, hne⟩ := hs.bears.mp hk
    exact hne (h.unique k i x.name hk ⟨x, hx, hopen, rfl⟩)
  exact {
    unique := fun j k n hj hk => h.unique j k n (hs.bears.mp hj).1 (hs.bears.mp hk).1
    found := by
      intro n k
      rw [module?, hmodules, lookup_filter_ne]
      split
      · rename_i hn
        rw [beq_iff_eq] at hn
        exact ⟨nofun, fun hk => absurd hn (hother k n hk)⟩
      · rename_i hn
        rw [hs.bears, ← h.found, module?]
        refine ⟨fun hk => ⟨hk, ?_⟩, And.left⟩
        rintro rfl
        obtain ⟨y, hy, -, hname⟩ := (h.found n k).mp hk
        cases hx.symm.trans hy
        exact hn (beq_iff_eq.mpr hname.symm)
    used := by
      intro k y' hy' hopen' hexports
      obtain ⟨y, hy, hname, hexports', -, hclosed⟩ := hs.exists_before k y' hy'
      have hne := hother k y'.name ⟨y', hy', hopen', rfl⟩
      rw [hclosed, Bool.or_eq_false_iff] at hopen'
      have hused := h.used k y hy hopen'.1 (hexports' ▸ hexports)
      rw [hnames, Namespace.has_remove, hname, hused, Bool.and_true, bne_iff_ne, ← hname]
      exact hne
    listed := by
      intro p hp
      rw [hmodules] at hp
      rw [hs.count]
      exact h.listed p (mem_filter.mp hp).1
    memory := by
      intro k y' id hy' hid
      obtain ⟨y, hy, -, -, hmemory, -⟩ := hs.exists_before k y' hy'
      rw [hs.memories]
      exact h.memory k y id hy (hmemory ▸ hid)
    hostMemory := by
      rw [hhost, hs.memories]
      exact h.hostMemory }

/-! ## All steps -/

theorem Step.tidy (hs : e.Step e') (h : e.Tidy) : e'.Tidy := by
  have hstays {α : Type} {a : EmbeddingAction α} {r : Except Error α}
      (ha : Tries False a e (fun _ e' => e.Stays e') fun _ e' => e.Stays e') (hr : a e = .ok (r, e')) : e'.Tidy := by
    cases r with
    | ok x => exact h.stays (ha.of_ok hr)
    | error err => exact h.stays (ha.of_error hr)
  have hlives {s : Store} (hs : e.store.Lives s) : e.Stays { e with store := s } :=
    ⟨.ofLives hs, rfl, fun _ hid => .inl hid⟩
  cases hs with
  | compile hr => exact hstays ((tries_compile _ _).imp (fun _ _ hc => hc.1.stays) fun _ _ he => he.stays) hr
  | closeCompiled hr =>
    cases hr
    exact h.stays ⟨⟨rfl, Nat.le_refl _, fun _ hn => hn⟩, rfl, fun _ hid => .inl hid⟩
  | @host m r e₁ hr =>
    have hhost := m.tries_instantiate (P := fun _ => True) (e := e) fun _ _ _ _ _ _ _ _ => trivial
    exact hstays (hhost.imp (fun _ _ hs => hs.stays) fun _ _ hs => hs.stays) hr
  | @instantiate c config canceled r e₁ hc hname hr =>
    obtain ⟨source, maxPages, hm⟩ := hc
    obtain ⟨seen, hb, -⟩ := Module.built_decode hm
    have hi := h.tries_instantiate hb config canceled hname
    cases r with
    | ok i => exact hi.of_ok hr
    | error err => exact hi.of_error hr
  | @call f params canceled r e₁ hr =>
    have hcall := does_onStore ((Store.livesOn_call f params canceled e.store).imp fun _ _ hs => hlives hs.lives)
    exact h.stays (hcall.of_eq hr)
  | @growMemory k delta r e₁ hr =>
    have hgrow := does_onStore (((Store.livesThrough_growMemory k delta).run e.store).imp fun _ _ hs => hlives hs.lives)
    exact h.stays (hgrow.of_eq hr)
  | close hk hr => exact (h.does_close hk).of_eq hr

theorem Reachable.tidy (h : Reachable e) : e.Tidy := by
  induction h with
  | create h => exact tidy_create h
  | step _ hs ih => exact hs.tidy ih

/-! ## The end of an embedding -/

theorem does_closeEach {ps : List (String × InstanceId)} (hps : ∀ p ∈ ps, p.2 < e.store.instances.size)
    (hmemory : ∀ (k : InstanceId) y id, e.store.instances[k]? = some y → y.memory = some id →
      id < e.store.memories.size) : Does True (ps.forM fun (_, i) => close i) e fun _ e' =>
      e'.store.memories.size = e.store.memories.size ∧
      ∀ k n, e'.Bears k n → e.Bears k n ∧ ∀ p ∈ ps, p.2 ≠ k := by
  induction ps generalizing e with
  | nil => exact does_pure ⟨rfl, fun k n hk => ⟨hk, fun p hp => nomatch hp⟩⟩
  | cons p ps ih =>
    obtain ⟨hp, hps⟩ := forall_mem_cons.mp hps
    have hx := Array.getElem?_eq_getElem hp
    refine Does.bind ((does_close hx fun _ id hid => hmemory p.2 _ id hx hid).imp ?_)
    rintro - e₁ ⟨hs, -⟩
    have hps₁ : ∀ p ∈ ps, p.2 < e₁.store.instances.size := by
      rw [hs.count]
      exact hps
    have hmemory₁ : ∀ (k : InstanceId) y id, e₁.store.instances[k]? = some y → y.memory = some id →
        id < e₁.store.memories.size := by
      intro k y' id hy' hid
      obtain ⟨y, hy, -, -, hsame, -⟩ := hs.exists_before k y' hy'
      rw [hs.memories]
      exact hmemory k y id hy (hsame ▸ hid)
    refine (ih hps₁ hmemory₁).imp ?_
    rintro - e₂ ⟨hsize, hbears⟩
    refine ⟨hsize.trans hs.memories, fun k n hk => ?_⟩
    obtain ⟨hk₁, hnot⟩ := hbears k n hk
    obtain ⟨hk₀, hne⟩ := hs.bears.mp hk₁
    exact ⟨hk₀, forall_mem_cons.mpr ⟨fun h => hne h.symm, hnot⟩⟩

theorem does_closeMemories {ids : List MemoryId} (hids : ∀ id ∈ ids, id < e.store.memories.size) :
    Does True (ids.forM fun m => onStore do Store.setMemory m (← Store.getMemory m).close) e fun _ e' =>
      e'.store.instances = e.store.instances := by
  induction ids generalizing e with
  | nil => exact does_pure rfl
  | cons id ids ih =>
    obtain ⟨hid, hids⟩ := forall_mem_cons.mp hids
    refine Does.bind (does_onStore (Does.bind (does_getMemory (fun _ => ⟨_, Array.getElem?_eq_getElem hid⟩) ?_)))
    intro mem _
    refine does_modify (ih ?_)
    exact fun k hk => Nat.lt_of_lt_of_eq (hids k hk) Array.size_setIfInBounds.symm

theorem does_deleteEach (keys : List ModuleKey) :
    Does True (keys.forM fun key => onStore (Store.deleteCompiled key)) e fun _ e' =>
      e'.store.instances = e.store.instances := by
  induction keys generalizing e with
  | nil => exact does_pure rfl
  | cons key keys ih => exact Does.bind (does_onStore (does_modify ih))

theorem Tidy.does_closeAll (h : e.Tidy) : Does True closeAll e fun _ e' => ∀ k n, ¬ e'.Bears k n := by
  refine Does.bind (does_get (Does.bind (does_modify ?_)))
  have hclose : Does True (e.modules.forM fun (_, i) => close i) { e with compiled := [], hostMemories := [] } _ :=
    does_closeEach h.listed h.memory
  refine Does.bind (hclose.imp ?_)
  rintro - e₁ ⟨hsize, hbears⟩
  have hnone : ∀ k n, ¬ e₁.Bears k n := by
    intro k n hk
    obtain ⟨hk, hnot⟩ := hbears k n hk
    obtain ⟨before, after, hlist, -⟩ := lookup_eq_some_iff.mp ((h.found n k).mpr hk)
    exact hnot (n, k) (by simp [hlist]) rfl
  have hids : ∀ id ∈ e.hostMemories, id < e₁.store.memories.size := by
    rw [hsize]
    exact h.hostMemory
  refine Does.bind ((does_closeMemories hids).imp ?_)
  intro _ e₂ h₂
  refine (does_deleteEach e.compiled).imp ?_
  intro _ e₃ h₃ k n hk
  refine hnone k n ?_
  unfold Bears at hk ⊢
  rwa [h₃, h₂] at hk

/-! ## Names -/

/-- The name of an instance that exports something cannot be used again. -/
theorem Tidy.instantiate_eq (h : e.Tidy) (hx : e.store.instances[i]? = some x) (hopen : x.closed = false)
    (hexports : x.exports ≠ []) (c : CompiledHandle) {config : ModuleConfig}
    (hname : config.name.getD defaultName = x.name) (canceled : Bool) :
    instantiate (some c) config canceled e = .ok (.error (.because (.moduleInUse x.name)), e) := by
  have hrequire : e.store.names.requireUnused x.name = .error (.because (.moduleInUse x.name)) :=
    if_pos (h.used i x hx hopen hexports)
  have htries : Tries True (instantiate (some c) config canceled) e (fun _ _ => False)
      fun err e' => err = .because (.moduleInUse x.name) ∧ e' = e := by
    refine Tries.bind (tries_get ?_)
    rw [hname, hrequire]
    exact tries_throw ⟨rfl, rfl⟩
  obtain ⟨r, e', hr⟩ := Does.not_defect htries trivial
  cases r with
  | ok k => exact (htries.of_ok hr).elim
  | error err =>
    obtain ⟨rfl, rfl⟩ := htries.of_error hr
    exact hr

/-- Unless a module is instantiated under the name of an open instance that exports nothing, no two open instances have
a name in common, an instance is found under its name exactly while it is open, the name of an instance that exports
something cannot be used again, and all instances are closed in the end. -/
theorem Reachable.names_unique (h : Reachable e) :
    (∀ i j name, e.Bears i name → e.Bears j name → i = j) ∧
    (∀ name i, e.module? name = some i ↔ e.Bears i name) ∧
    (∀ (i : InstanceId) x, e.store.instances[i]? = some x → x.closed = false → x.exports ≠ [] →
      ∀ c config canceled, config.name.getD defaultName = x.name →
        instantiate (some c) config canceled e = .ok (.error (.because (.moduleInUse x.name)), e)) ∧
    ∃ e', closeAll e = .ok ((), e') ∧ ∀ i name, ¬ e'.Bears i name := by
  have ht := h.tidy
  refine ⟨ht.unique, ht.found, fun i x hx hopen hexports c config canceled hname => ?_, ?_⟩
  · exact ht.instantiate_eq hx hopen hexports c hname canceled
  · have hclose := ht.does_closeAll
    obtain ⟨_, e', hr⟩ := Does.not_defect hclose trivial
    exact ⟨e', hr, hclose.of_eq hr⟩

instance (e : Embedding) (i : InstanceId) (name : String) : Decidable (e.Bears i name) :=
  decidable_of_iff (e.store.instances[i]?.any fun x => !x.closed && x.name == name) (by
    unfold Bears
    cases e.store.instances[i]? <;> simp)

instance (e : Embedding) (name : String) : Decidable (e.Guards name) :=
  decidable_of_iff (∀ x ∈ e.store.instances.toList, x.closed = false → x.name = name → x.exports.isEmpty = false) (by
    simp only [Guards, Array.mem_toList_iff, Array.mem_iff_getElem?, forall_exists_index, isEmpty_eq_false_iff]
    exact forall_comm)

def given {α : Type} : Except Defect (Except Error α × Embedding) → Option (α × Embedding)
  | .ok (.ok x, e) => some (x, e)
  | _ => none

theorem given_eq_some {r : Except Defect (Except Error α × Embedding)} {a : α} :
    given r = some (a, e) ↔ r = .ok (.ok a, e) := by
  unfold given
  split
  · simp
  · rename_i h
    exact ⟨nofun, fun hr => absurd hr (h a e)⟩

def storing : List UInt8 :=
  Module.header ++
    Module.encodeSection "memory" (Module.encodeMemory ⟨1, 2, true, false⟩)

/-- A module is instantiated, its instance is closed, and it is instantiated under the same name again. -/
def reused : Option Embedding := do
  let e ← (create {} false).toOption
  let (c, e) ← given (compile (some storing) false e)
  let e ← Option.guard (fun e => e.Guards "a") e
  let (i, e) ← given (instantiate (some c) { name := some "a" } false e)
  let e ← Option.guard (fun e => e.Bears i "a") e
  let (_, e) ← (close i e).toOption
  let e ← Option.guard (fun e => e.Guards "a") e
  let (_, e) ← given (instantiate (some c) { name := some "a" } false e)
  return e

theorem reachable_reused (h : reused = some e) : Reachable e := by
  simp only [reused, Option.bind_eq_bind, Option.bind_eq_some_iff, Option.pure_def, Prod.exists, given_eq_some,
    Option.guard_eq_some_iff, decide_eq_true_eq, Option.some.injEq] at h
  obtain ⟨e₀, hcreate, c, e₁, hcompile, _, ⟨rfl, hfree⟩, i, e₂, hfirst, _, ⟨rfl, hbears⟩, _, e₃, hclose, _,
    ⟨rfl, hfree'⟩, _, _, hsecond, rfl⟩ := h
  obtain ⟨-, source, hm⟩ := (tries_compile _ _).of_ok hcompile
  have hdecoded : ∃ source maxPages, Module.decode source maxPages = .ok c.module := ⟨source, _, hm⟩
  have h₀ : Reachable e₀ := .create (toOption_eq_some.mp hcreate)
  have h₂ : Reachable e₂ := by
    refine (h₀.step (.compile hcompile)).step (.instantiate hdecoded ?_ hfirst)
    exact hfree
  have h₃ : Reachable e₃ := h₂.step (.close hbears (toOption_eq_some.mp hclose))
  refine h₃.step (.instantiate hdecoded ?_ hsecond)
  exact hfree'

theorem names_unique_reused : ∃ e, Reachable e ∧ e.Bears 1 "a" ∧ e.module? "a" = some 1 ∧
      (∀ c canceled, instantiate (some c) { name := some "a" } canceled e =
        .ok (.error (.because (.moduleInUse "a")), e)) ∧
      ∃ e', closeAll e = .ok ((), e') ∧ ∀ i name, ¬ e'.Bears i name := by
  have hok : reused.map (fun e => e.store.instances.toList.map fun x => (x.name, x.closed, x.exports.isEmpty)) =
      some [("a", true, false), ("a", false, false)] := by decide +kernel
  obtain ⟨e, he, hinstances⟩ := Option.map_eq_some_iff.mp hok
  have hr := reachable_reused he
  obtain ⟨-, hfound, hrefused, hclosed⟩ := hr.names_unique
  obtain ⟨x, hx, hname⟩ : ∃ x, e.store.instances[1]? = some x ∧
      (x.name, x.closed, x.exports.isEmpty) = ("a", false, false) := by
    have hsecond := congrArg (·[1]?) hinstances
    simpa [getElem?_map, Option.map_eq_some_iff] using hsecond
  simp only [Prod.mk.injEq, isEmpty_eq_false_iff] at hname
  obtain ⟨hname, hopen, hexports⟩ := hname
  have hbears : e.Bears 1 "a" := ⟨x, hx, hopen, hname⟩
  refine ⟨e, hr, hbears, (hfound "a" 1).mpr hbears, fun c canceled => ?_, hclosed⟩
  exact hname ▸ hrefused 1 x hx hopen hexports c { name := some "a" } canceled hname.symm

/-- A module that exports nothing is instantiated under one name twice. -/
def doubled : Option Embedding := do
  let e ← (create {} false).toOption
  let (c, e) ← given (compile (some Module.header) false e)
  let (_, e) ← given (instantiate (some c) { name := some "a" } false e)
  let (_, e) ← given (instantiate (some c) { name := some "a" } false e)
  return e

/-- The name of an instance that exports nothing can be used again while the instance is open. -/
theorem doubled_bears : ∃ e, doubled = some e ∧ e.Bears 0 "a" ∧ e.Bears 1 "a" ∧ e.module? "a" = some 1 := by
  have hok : doubled.map (fun e => (decide (e.Bears 0 "a"), decide (e.Bears 1 "a"), e.module? "a")) =
      some (true, true, some 1) := by decide +kernel
  obtain ⟨e, he, hbears⟩ := Option.map_eq_some_iff.mp hok
  simp only [Prod.mk.injEq, decide_eq_true_eq] at hbears
  exact ⟨e, he, hbears⟩

end Embedding

end ProtoWasm
