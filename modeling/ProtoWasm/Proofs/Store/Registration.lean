import ProtoWasm.Proofs.Store.Changes

/-! # What an instantiation leaves behind

A module that was instantiated has one more open instance, and its exports can be found under its name. If it could
not be instantiated, the new instance is closed and no name was registered.
-/
namespace ProtoWasm

namespace Namespace

variable {α : Type} {ns : Namespace α} {name module field : String}

theorem has_register (a : α) : (ns.register module field a).has name = (name == module || ns.has name) := by
  rw [has, has, entries?, register, lookup_assign]
  cases name == module <;> rfl

theorem has_remove : (ns.remove module).has name = (name != module && ns.has name) := by
  have hlookup : (ns.remove module).entries? name = if name == module then none else ns.entries? name :=
    lookup_filter_ne module name ns.modules
  rw [has, has, hlookup, bne]
  cases name == module <;> rfl

end Namespace

namespace Instance

variable {x : Instance} {names : Namespace Extern} {es : List Export}

theorem has_publishAll (hes : ∀ e ∈ es, (x.exported? e.name).isSome = true) (name : String) :
    (x.publishAll es names).has name = (name == x.name && !es.isEmpty || names.has name) := by
  induction es generalizing names with
  | nil => simp [publishAll]
  | cons e es ih =>
    obtain ⟨he, hes⟩ := List.forall_mem_cons.mp hes
    obtain ⟨v, hv⟩ := Option.isSome_iff_exists.mp he
    rw [publishAll, ih hes, hv, Namespace.has_register]
    cases name == x.name <;> simp

end Instance

namespace Store

open StoreM

variable {s s' s'' s₀ : Store} {m : Module} {name : String} {x : Instance} {key : ModuleKey}
  {source : List UInt8} {limit : Nat} {seen : List Section} {E : Error → Store → Prop}

/-- Instances that were there are as they were, apart from what their code embeds of memories. -/
def KeepsInstances (s s' : Store) : Prop :=
  ∀ (k : InstanceId) x, s.instances[k]? = some x →
    ∃ x', s'.instances[k]? = some x' ∧ instanceShape x' = instanceShape x

theorem KeepsInstances.trans (h : s.KeepsInstances s') (h' : s'.KeepsInstances s'') : s.KeepsInstances s'' := by
  intro k x hx
  obtain ⟨x', hx', hshape⟩ := h k x hx
  obtain ⟨x'', hx'', hshape'⟩ := h' k x' hx'
  exact ⟨x'', hx'', hshape'.trans hshape⟩

theorem SameFrames.size_le {ms ms' : Array (Memory InstanceId)} (h : SameFrames ms ms') : ms.size ≤ ms'.size := by
  by_contra hlt
  obtain ⟨mem, hmem, -⟩ := h.exists (Array.getElem?_eq_getElem (Nat.lt_of_not_le hlt))
  exact Nat.lt_irrefl _ (lt_size hmem)

theorem size_attach (i : InstanceId) (memory : Option MemoryId) (ms : Array (Memory InstanceId)) :
    (attach i memory ms).size = ms.size := by
  cases memory with
  | none => rfl
  | some id => exact Array.size_modify

/-- There is one more instance, and its memory is one of the store. -/
structure Added (s₀ s : Store) (x : Instance) : Prop where
  kept : s₀.KeepsInstances s
  count : s.instances.size = s₀.instances.size + 1
  stored : s.instances[s₀.instances.size]? = some x
  memories : s₀.memories.size ≤ s.memories.size
  memory : ∀ id, x.memory = some id → id < s.memories.size

theorem Added.put (h : Added s₀ s x) {f : Instance → Instance} (hf : (f x).memory = x.memory) :
    Added s₀ { s with instances := s.instances.modify s₀.instances.size f } (f x) where
  kept := by
    intro k y hy
    obtain ⟨y', hy', hshape⟩ := h.kept k y hy
    have hk : s₀.instances.size ≠ k := Nat.ne_of_gt (lt_size hy)
    refine ⟨y', ?_, hshape⟩
    rw [Array.getElem?_modify, if_neg hk, hy']
  count := Array.size_modify.trans h.count
  stored := by rw [Array.getElem?_modify, if_pos rfl, h.stored, Option.map_some]
  memories := h.memories
  memory := hf ▸ h.memory

theorem Added.exists_before (h : Added s₀ s x) {k : InstanceId} {y : Instance} (hy : s.instances[k]? = some y) :
    (k = s₀.instances.size ∧ y = x) ∨
      ∃ y₀, s₀.instances[k]? = some y₀ ∧ instanceShape y = instanceShape y₀ := by
  have hlt := lt_size hy
  rw [h.count] at hlt
  by_cases hk : k = s₀.instances.size
  · subst hk
    exact .inl ⟨rfl, Option.some.inj (hy.symm.trans h.stored)⟩
  · have hold := Array.getElem?_eq_getElem (Nat.lt_of_le_of_ne (Nat.le_of_lt_succ hlt) hk)
    obtain ⟨y', hy', hshape⟩ := h.kept k _ hold
    cases hy.symm.trans hy'
    exact .inr ⟨_, hold, hshape⟩

theorem Added.lives (h : Added s₀ s x) (hs : s.Lives s') :
    ∃ x', Added s₀ s' x' ∧ instanceShape x' = instanceShape x := by
  obtain ⟨x', hx', hshape⟩ := hs.instance h.stored
  have hmemory : x'.memory = x.memory := (congrArg Instance.memory hshape :)
  have hsize := size_of_map_eq hs.memories
  exact ⟨x', {
    kept := h.kept.trans fun _ _ => hs.instance
    count := (size_of_map_eq hs.instances).trans h.count
    stored := hx'
    memories := hsize ▸ h.memories
    memory := by
      rw [hmemory, hsize]
      exact h.memory }, hshape⟩

theorem Pending.added (h : Pending s₀ m s x) (hx : s.instances[s₀.instances.size]? = some x) : Added s₀ s x where
  kept k y hy := ⟨y, h.kept.instances k y hy, rfl⟩
  count := h.count
  stored := hx
  memories := h.kept.memories.size_le
  memory := h.memory

theorem Added.does_release (h : Added s₀ s x) : Does False (release s₀.instances.size) s fun _ s' =>
      s'.names = s.names ∧ ∃ x', Added s₀ s' x' ∧ x'.closed = true := by
  have hput := h.put (f := fun x => { x with closed := true, code := x.code.map LinkedCode.close }) rfl
  refine Store.does_release h.stored (fun _ => h.memory) ?_ ?_
  · exact fun _ => ⟨rfl, _, hput, rfl⟩
  · intro id mem _ _
    have hsize : (s.memories.setIfInBounds id (leave s₀.instances.size x mem)).size = s.memories.size :=
      Array.size_setIfInBounds
    refine ⟨rfl, { x with closed := true, code := x.code.map LinkedCode.close }, ?_, rfl⟩
    exact { hput with
      kept := hput.kept
      memories := Nat.le_trans h.memories (Nat.le_of_eq hsize.symm)
      memory := fun id hid => Nat.lt_of_lt_of_eq (h.memory id hid) hsize.symm }

structure Installed (s₀ : Store) (m : Module) (name : String) (s : Store) (x : Instance) : Prop
    extends Added s₀ s x where
  opened : x.closed = false
  name : x.name = name
  module : x.module = m

structure Opened (s₀ : Store) (m : Module) (name : String) (s : Store) (x : Instance) : Prop
    extends Installed s₀ m name s x where
  exports : Exports m x
  names : s.names = x.publish s₀.names

/-- The new instance has been closed, and nothing was registered. -/
structure Abandoned (s₀ s : Store) (x : Instance) : Prop extends Added s₀ s x where
  closed : x.closed = true
  names : s.names = s₀.names

theorem Activated.installed {s₁ : Store} {x₁ : Instance} (ha : Activated s₀.instances.size key s x s₁ x₁)
    (hc : Complete s₀ m name s x) : Installed s₀ m name s₁ x₁ := by
  obtain ⟨code, -, rfl⟩ := ha.linked
  obtain ⟨tables, memories, hs₁⟩ := ha.eq_with
  have hd := hc.drafted.2
  have hput := (hd.toPending.added hc.drafted.1).put (f := fun _ => { x with code := some code }) rfl
  have hsize : s.memories.size ≤ s₁.memories.size := size_attach _ _ _ ▸ ha.attached.size_le
  refine ⟨?_, hd.opened, hd.name, hd.module⟩
  rw [hs₁] at hsize ⊢
  exact {
    kept := hput.kept
    count := hput.count
    stored := hput.stored
    memories := Nat.le_trans hput.memories hsize
    memory := fun id hid => Nat.lt_of_lt_of_le (hput.memory id hid) hsize }

theorem Installed.lives (h : Installed s₀ m name s x) (hs : s.Lives s') : ∃ x', Installed s₀ m name s' x' := by
  obtain ⟨x', h', hshape⟩ := h.toAdded.lives hs
  exact ⟨x', {
    toAdded := h'
    opened := (congrArg Instance.closed hshape :).trans h.opened
    name := (congrArg Instance.name hshape :).trans h.name
    module := (congrArg Instance.module hshape :).trans h.module }⟩

theorem tries_prepare_added (hb : m.Built source limit seen) :
    Tries False (prepare s₀.instances.size key) (s₀.withInstance name m)
      (fun x s => s.names = s₀.names ∧ Installed s₀ m name s x) fun _ s => s.names = s₀.names ∧ ∃ x, Added s₀ s x := by
  refine (tries_prepare hb False.elim False.elim False.elim).imp ?_ ?_
  · rintro x₁ s₁ ⟨hprepared, x, s, hx, ha⟩
    exact ⟨hprepared.names, ha.installed hx⟩
  · rintro e s ⟨-, x, hx, h⟩
    exact ⟨h.kept.names, x, h.added hx⟩

/-- Nothing but an instance and its exports comes from an instantiation. -/
theorem tries_instantiate_added (hb : m.Built source limit seen) (startDisabled canceled : Bool) :
    Tries False (instantiate key m name startDisabled canceled) s₀
      (fun i s' => i = s₀.instances.size ∧ ∃ x, Opened s₀ m name s' x) fun _ s' => ∃ x, Abandoned s₀ s' x := by
  refine (tries_instantiate_steps (tries_prepare_added hb) startDisabled canceled).imp ?_ ?_
  · rintro _ _ ⟨rfl, x, s₁, ⟨hnames, h₁⟩, s₂, y, exports, exported, metrics, he, -, hy, hexports, rfl⟩
    obtain ⟨y', h₂⟩ := h₁.lives he.lives
    cases hy.symm.trans h₂.stored
    have hput := h₂.put (f := fun _ => { y with exports, exported }) rfl
    refine ⟨rfl, _, { h₂ with
      toAdded := { hput with kept := hput.kept }, exports := h₂.module ▸ hexports, names := ?_ }⟩
    exact congrArg _ (he.lives.names.trans hnames)
  · rintro e _ ⟨s₁, s₂, metrics, h₁, hr, rfl⟩
    have hadded : s₁.names = s₀.names ∧ ∃ x, Added s₀ s₁ x := by
      rcases h₁ with h₁ | ⟨-, x, s, ⟨hnames, h⟩, he⟩
      · exact h₁
      · obtain ⟨x₁, h₁⟩ := h.lives he.lives
        exact ⟨he.lives.names.trans hnames, x₁, h₁.toAdded⟩
    obtain ⟨hnames, x, h⟩ := hadded
    obtain ⟨hnames₂, x₂, h₂, hclosed⟩ := h.does_release.of_eq hr
    exact ⟨x₂, { h₂ with kept := h₂.kept, closed := hclosed, names := hnames₂.trans hnames }⟩

end Store

end ProtoWasm
