import ProtoWasm.Proofs.Store.Running

/-! # Sound stores

In a sound store everything that is referred to by its number is there. What an action does to a store is
said by relations: a store may be extended by new things, it may live on with the things that it has, or,
which holds in both cases, come later than another.
-/
namespace ProtoWasm

section Arrays

variable {α : Type} {xs : Array α} {j k : Nat} {a b c : α}

theorem lt_size (h : xs[k]? = some a) : k < xs.size := (Array.getElem?_eq_some_iff.mp h).1

theorem none_beyond {P : Prop} (hk : xs.size ≤ k) (h : xs[k]? = some a) : P := absurd (lt_size h) (Nat.not_lt.mpr hk)

theorem getElem?_put (h : xs[k]? = some a) : (xs.setIfInBounds k b)[k]? = some b :=
  Array.getElem?_setIfInBounds_self_of_lt (lt_size h)

theorem of_getElem?_put (h : (xs.setIfInBounds k b)[j]? = some c) : k = j ∧ b = c ∨ k ≠ j ∧ xs[j]? = some c := by
  by_cases hj : k = j
  · subst hj
    have hlt := lt_size h
    rw [Array.size_setIfInBounds] at hlt
    exact .inl ⟨rfl, Option.some.inj ((Array.getElem?_setIfInBounds_self_of_lt hlt).symm.trans h)⟩
  · exact .inr ⟨hj, (Array.getElem?_setIfInBounds_ne hj).symm.trans h⟩

theorem exists_getElem?_put {R : α → α → Prop} (hk : xs[k]? = some a) (hput : R a b) (hrefl : ∀ c, R c c)
    (h : xs[j]? = some c) : ∃ c', (xs.setIfInBounds k b)[j]? = some c' ∧ R c c' := by
  by_cases hj : k = j
  · subst hj
    cases hk.symm.trans h
    exact ⟨b, getElem?_put hk, hput⟩
  · exact ⟨c, (Array.getElem?_setIfInBounds_ne hj).trans h, hrefl c⟩

end Arrays

def Keeps {α : Type} (xs ys : Array α) : Prop := ∀ (k : Nat) a, xs[k]? = some a → ys[k]? = some a

namespace Keeps

variable {α : Type} {xs ys zs : Array α} {k : Nat}

theorem refl (xs : Array α) : Keeps xs xs := fun _ _ h => h

theorem trans (h : Keeps xs ys) (h' : Keeps ys zs) : Keeps xs zs := fun k a ha => h' k a (h k a ha)

theorem size_le (h : Keeps xs ys) : xs.size ≤ ys.size := by
  apply Nat.le_of_not_lt
  intro hlt
  have hy := h _ _ (Array.getElem?_eq_getElem hlt)
  rw [Array.getElem?_eq_none (Nat.le_refl _)] at hy
  cases hy

theorem push (h : Keeps xs ys) (a : α) : Keeps xs (ys.push a) := by
  intro k b hb
  have hk := h k b hb
  have hlt := lt_size hk
  rw [Array.getElem?_push, if_neg (by omega)]
  exact hk

theorem modify_of_le (h : Keeps xs ys) (hk : xs.size ≤ k) (f : α → α) : Keeps xs (ys.modify k f) := by
  intro j a ha
  have hj := lt_size ha
  rw [Array.getElem?_modify, if_neg (by omega)]
  exact h j a ha

theorem set_of_le (h : Keeps xs ys) (hk : xs.size ≤ k) (a : α) :
    Keeps xs (ys.setIfInBounds k a) := by
  intro j b hb
  have hj := lt_size hb
  rw [Array.getElem?_setIfInBounds_ne (by omega)]
  exact h j b hb

end Keeps

theorem setIfInBounds_self {α : Type} {xs : Array α} {k : Nat} {a : α} (h : xs[k]? = some a) :
    xs.setIfInBounds k a = xs := by
  apply Array.ext_getElem?
  intro j
  by_cases hj : k = j
  · subst hj
    rw [h, getElem?_put h]
  · rw [Array.getElem?_setIfInBounds_ne hj]

namespace Store

/-- What can be imported is in the store. A memory that is exported is one. -/
def Has (s : Store) : Extern → Prop
  | .func f => f < s.functions.size
  | .host _ => True
  | .foreignFunc _ => True
  | .table t => t < s.tables.size
  | .memory none => False
  | .memory (some m) => m < s.memories.size
  | .global g => g < s.globals.size

/-- Everything that is referred to is in the store. -/
structure Sound (s : Store) : Prop where
  owners : ∀ (k : FunctionId) f, s.functions[k]? = some f → f.owner < s.instances.size
  views : ∀ (k : GlobalId) g, s.globals[k]? = some g → g.type.valType.isValue = true ∧
    ∃ bytes, s.storages[g.storage]? = some bytes ∧ g.offset + g.type.valType.size ≤ bytes.length
  resolved : ∀ module field v, s.names.resolve? module field = some v → s.Has v
  dependents : ∀ (k : MemoryId) m, s.memories[k]? = some m → ∀ i ∈ m.dependents, i < s.instances.size

/-- There may be new things in the store. Those that were there are unchanged. -/
structure Extends (s s' : Store) : Prop where
  config : s'.config = s.config
  cache : s'.cache = s.cache
  names : s'.names = s.names
  functions : Keeps s.functions s'.functions
  tables : Keeps s.tables s'.tables
  memories : Keeps s.memories s'.memories
  storages : Keeps s.storages s'.storages
  globals : Keeps s.globals s'.globals
  instances : Keeps s.instances s'.instances

/-- What is known of a table whatever is written to it. -/
def tableShape (t : Table FunctionId) : Nat × Nat × Nat := (t.size, t.min, t.max)

/-- What is known of a memory whatever is written to it and however it grows. -/
def memoryShape (m : Memory InstanceId) : Nat × Nat × List InstanceId := (m.min, m.max, m.dependents)

def codeShape (c : LinkedCode) : LinkedCode := { c with memorySites := [] }

def instanceShape (x : Instance) : Instance := { x with code := x.code.map codeShape }

def MemoriesGrow (xs ys : Array (Memory InstanceId)) : Prop :=
  ∀ (k : MemoryId) m m', xs[k]? = some m → ys[k]? = some m' → m.size ≤ m'.size

/-- The same things are in the store. Tables, memories and globals may have been written, and memories may
have grown. -/
structure Lives (s s' : Store) : Prop where
  config : s'.config = s.config
  cache : s'.cache = s.cache
  names : s'.names = s.names
  functions : s'.functions = s.functions
  globals : s'.globals = s.globals
  tables : s'.tables.map tableShape = s.tables.map tableShape
  memories : s'.memories.map memoryShape = s.memories.map memoryShape
  grown : MemoriesGrow s.memories s'.memories
  storages : ∀ (k : StorageId) b, s.storages[k]? = some b →
    ∃ b', s'.storages[k]? = some b' ∧ b.length ≤ b'.length
  instances : s'.instances.map instanceShape = s.instances.map instanceShape

/-- What instances rely on: functions and globals stay, tables keep their sizes, and memories and storages
only grow. -/
structure Later (s s' : Store) : Prop where
  functions : Keeps s.functions s'.functions
  globals : Keeps s.globals s'.globals
  storages : ∀ (k : StorageId) b, s.storages[k]? = some b →
    ∃ b', s'.storages[k]? = some b' ∧ b.length ≤ b'.length
  tables : ∀ (k : TableId) t, s.tables[k]? = some t →
    ∃ t', s'.tables[k]? = some t' ∧ t'.size = t.size ∧ t'.max = t.max
  memories : ∀ (k : MemoryId) m, s.memories[k]? = some m →
    ∃ m', s'.memories[k]? = some m' ∧ m.size ≤ m'.size ∧ m'.max = m.max

variable {s s' s'' : Store}

theorem Extends.refl (s : Store) : s.Extends s :=
  ⟨rfl, rfl, rfl, .refl _, .refl _, .refl _, .refl _, .refl _, .refl _⟩

theorem Extends.trans (h : s.Extends s') (h' : s'.Extends s'') : s.Extends s'' where
  config := h'.config.trans h.config
  cache := h'.cache.trans h.cache
  names := h'.names.trans h.names
  functions := h.functions.trans h'.functions
  tables := h.tables.trans h'.tables
  memories := h.memories.trans h'.memories
  storages := h.storages.trans h'.storages
  globals := h.globals.trans h'.globals
  instances := h.instances.trans h'.instances

theorem Extends.later (h : s.Extends s') : s.Later s' where
  functions := h.functions
  globals := h.globals
  storages k b hb := ⟨b, h.storages k b hb, Nat.le_refl _⟩
  tables k t ht := ⟨t, h.tables k t ht, rfl, rfl⟩
  memories k m hm := ⟨m, h.memories k m hm, Nat.le_refl _, rfl⟩

theorem Later.refl (s : Store) : s.Later s := (Extends.refl s).later

theorem Later.trans (h : s.Later s') (h' : s'.Later s'') : s.Later s'' where
  functions := h.functions.trans h'.functions
  globals := h.globals.trans h'.globals
  storages := by
    intro k b hb
    obtain ⟨b', hb', hlen⟩ := h.storages k b hb
    obtain ⟨b'', hb'', hlen'⟩ := h'.storages k b' hb'
    exact ⟨b'', hb'', Nat.le_trans hlen hlen'⟩
  tables := by
    intro k t ht
    obtain ⟨t', ht', hsize, hmax⟩ := h.tables k t ht
    obtain ⟨t'', ht'', hsize', hmax'⟩ := h'.tables k t' ht'
    exact ⟨t'', ht'', hsize'.trans hsize, hmax'.trans hmax⟩
  memories := by
    intro k m hm
    obtain ⟨m', hm', hsize, hmax⟩ := h.memories k m hm
    obtain ⟨m'', hm'', hsize', hmax'⟩ := h'.memories k m' hm'
    exact ⟨m'', hm'', Nat.le_trans hsize hsize', hmax'.trans hmax⟩

theorem getElem?_of_map_eq {α β : Type} {f : α → β} {xs ys : Array α} (h : ys.map f = xs.map f) {k : Nat}
    {a : α} (ha : xs[k]? = some a) : ∃ b, ys[k]? = some b ∧ f b = f a := by
  have hk : (ys.map f)[k]? = (xs.map f)[k]? := by rw [h]
  rw [Array.getElem?_map, Array.getElem?_map, ha] at hk
  exact Option.map_eq_some_iff.mp hk

theorem size_of_map_eq {α β : Type} {f : α → β} {xs ys : Array α} (h : ys.map f = xs.map f) :
    ys.size = xs.size := by
  have := congrArg Array.size h
  rwa [Array.size_map, Array.size_map] at this

theorem Lives.refl (s : Store) : s.Lives s where
  config := rfl
  cache := rfl
  names := rfl
  functions := rfl
  globals := rfl
  tables := rfl
  memories := rfl
  grown := by
    intro k m m' hm hm'
    rw [hm] at hm'
    cases hm'
    exact Nat.le_refl _
  storages k b hb := ⟨b, hb, Nat.le_refl _⟩
  instances := rfl

theorem Lives.trans (h : s.Lives s') (h' : s'.Lives s'') : s.Lives s'' where
  config := h'.config.trans h.config
  cache := h'.cache.trans h.cache
  names := h'.names.trans h.names
  functions := h'.functions.trans h.functions
  globals := h'.globals.trans h.globals
  tables := h'.tables.trans h.tables
  memories := h'.memories.trans h.memories
  grown := by
    intro k m m'' hm hm''
    obtain ⟨m', hm', -⟩ := getElem?_of_map_eq h.memories hm
    exact Nat.le_trans (h.grown k m m' hm hm') (h'.grown k m' m'' hm' hm'')
  storages := by
    intro k b hb
    obtain ⟨b', hb', hlen⟩ := h.storages k b hb
    obtain ⟨b'', hb'', hlen'⟩ := h'.storages k b' hb'
    exact ⟨b'', hb'', Nat.le_trans hlen hlen'⟩
  instances := h'.instances.trans h.instances

theorem Lives.memory (h : s.Lives s') {k : MemoryId} {m : Memory InstanceId} (hm : s.memories[k]? = some m) :
    ∃ m', s'.memories[k]? = some m' ∧ m.size ≤ m'.size ∧ m'.max = m.max ∧ m'.dependents = m.dependents := by
  obtain ⟨m', hm', hshape⟩ := getElem?_of_map_eq h.memories hm
  simp only [memoryShape, Prod.mk.injEq] at hshape
  exact ⟨m', hm', h.grown k m m' hm hm', hshape.2.1, hshape.2.2⟩

theorem Lives.instance (h : s.Lives s') {k : InstanceId} {x : Instance} (hx : s.instances[k]? = some x) :
    ∃ x', s'.instances[k]? = some x' ∧ instanceShape x' = instanceShape x :=
  getElem?_of_map_eq h.instances hx

theorem Lives.later (h : s.Lives s') : s.Later s' where
  functions := by
    rw [h.functions]
    exact .refl _
  globals := by
    rw [h.globals]
    exact .refl _
  storages := h.storages
  tables := by
    intro k t ht
    obtain ⟨t', ht', hshape⟩ := getElem?_of_map_eq h.tables ht
    simp only [tableShape, Prod.mk.injEq] at hshape
    exact ⟨t', ht', hshape.1, hshape.2.2⟩
  memories := by
    intro k m hm
    obtain ⟨m', hm', hsize, hmax, -⟩ := h.memory hm
    exact ⟨m', hm', hsize, hmax⟩

theorem Has.mono {v : Extern} (h : s.Has v) (hf : s.functions.size ≤ s'.functions.size)
    (ht : s.tables.size ≤ s'.tables.size) (hm : s.memories.size ≤ s'.memories.size)
    (hg : s.globals.size ≤ s'.globals.size) : s'.Has v := by
  cases v with
  | func f => exact Nat.lt_of_lt_of_le h hf
  | host f => trivial
  | foreignFunc n => trivial
  | table t => exact Nat.lt_of_lt_of_le h ht
  | memory m =>
    cases m with
    | none => exact h
    | some m => exact Nat.lt_of_lt_of_le h hm
  | global g => exact Nat.lt_of_lt_of_le h hg

theorem Sound.lives (hs : s.Sound) (h : s.Lives s') : s'.Sound where
  owners := by
    rw [h.functions, size_of_map_eq h.instances]
    exact hs.owners
  views := by
    intro k g hg
    rw [h.globals] at hg
    obtain ⟨hvalue, bytes, hbytes, hlen⟩ := hs.views k g hg
    obtain ⟨bytes', hbytes', hlonger⟩ := h.storages _ bytes hbytes
    exact ⟨hvalue, bytes', hbytes', Nat.le_trans hlen hlonger⟩
  resolved := by
    intro module field v hv
    rw [h.names] at hv
    apply (hs.resolved module field v hv).mono
    · exact Nat.le_of_eq (by rw [h.functions])
    · exact Nat.le_of_eq (size_of_map_eq h.tables).symm
    · exact Nat.le_of_eq (size_of_map_eq h.memories).symm
    · exact Nat.le_of_eq (by rw [h.globals])
  dependents := by
    intro k m' hm' i hi
    obtain ⟨m, hm, hshape⟩ := getElem?_of_map_eq h.memories.symm hm'
    simp only [memoryShape, Prod.mk.injEq] at hshape
    rw [size_of_map_eq h.instances]
    apply hs.dependents k m hm
    rwa [hshape.2.2]

end Store

end ProtoWasm
