import ProtoWasm.Proofs.Module.Declarations
import ProtoWasm.Proofs.Store.Sound

/-! # Instances that are being made

While an instance is made, the store gets new things, and what was there before is not touched. What the
instance has at its indices must fit what its module declares there, and what it imports must be the values
that were found under the names.
-/
namespace ProtoWasm

open List

namespace Instance

def slot? (x : Instance) : ExternKind → Nat → Option Nat
  | .func, k => x.functions[k]?.join
  | .table, k => x.tables[k]?.join
  | .memory, k => if k = 0 then x.memory else none
  | .global, k => x.globals[k]?.join
  | .unknown _, _ => none

/-- The instances have the same everywhere else. -/
def SameBut (slots : List (ExternKind × Nat)) (x x' : Instance) : Prop :=
  ∀ kind k, (kind, k) ∉ slots → x'.slot? kind k = x.slot? kind k

theorem SameBut.trans {xs ys : List (ExternKind × Nat)} {x x' x'' : Instance} (h : x.SameBut xs x')
    (h' : x'.SameBut ys x'') : x.SameBut (xs ++ ys) x'' := by
  intro kind k hk
  rw [mem_append, not_or] at hk
  exact (h' kind k hk.2).trans (h kind k hk.1)

theorem join_set {α : Type} {xs : List (Option α)} {k : Nat} (a : α) (hk : k < xs.length) :
    (xs.set k (some a))[k]?.join = some a := by
  rw [getElem?_set_self hk]
  rfl

theorem join_set_ne {α : Type} {xs : List (Option α)} {j k : Nat} (a : α) (h : k ≠ j) :
    (xs.set k (some a))[j]?.join = xs[j]?.join := by
  rw [getElem?_set_ne h]

variable (x : Instance) (k id : Nat)

theorem sameBut_functions :
    x.SameBut [(.func, k)] { x with functions := x.functions.set k (some id) } := by
  intro kind j hj
  cases kind with
  | func =>
    apply join_set_ne
    rintro rfl
    exact hj (mem_singleton_self _)
  | table | memory | global | unknown b => rfl

theorem sameBut_tables : x.SameBut [(.table, k)] { x with tables := x.tables.set k (some id) } := by
  intro kind j hj
  cases kind with
  | table =>
    apply join_set_ne
    rintro rfl
    exact hj (mem_singleton_self _)
  | func | memory | global | unknown b => rfl

theorem sameBut_globals : x.SameBut [(.global, k)] { x with globals := x.globals.set k (some id) } := by
  intro kind j hj
  cases kind with
  | global =>
    apply join_set_ne
    rintro rfl
    exact hj (mem_singleton_self _)
  | func | table | memory | unknown b => rfl

theorem sameBut_memory : x.SameBut [(.memory, 0)] { x with memory := some id } := by
  intro kind j hj
  cases kind with
  | memory =>
    have hzero : j ≠ 0 := by
      rintro rfl
      exact hj (mem_singleton_self _)
    rw [slot?, slot?, if_neg hzero, if_neg hzero]
  | func | table | global | unknown b => rfl

end Instance

namespace Store

/-- What the store has under a number is what a declaration asks for. -/
def Fits (s : Store) (signatures : List FuncType) (id : Nat) : ImportDesc → Prop
  | .func t => ∃ f, s.functions[id]? = some f ∧ signatures[t]? = some f.type
  | .table t => ∃ table, s.tables[id]? = some table ∧ t.min ≤ table.size ∧ table.max ≤ t.max
  | .memory t => ∃ mem, s.memories[id]? = some mem ∧ t.min ≤ mem.pages ∧ mem.max ≤ t.max
  | .global t => ∃ g, s.globals[id]? = some g ∧ g.type = t
  | .unknown _ => False

/-- The value is what the store has under the number. A function of the host has been given one. -/
def Stands (s : Store) (id : Nat) : Extern → Prop
  | .func f => id = f
  | .host h => ∃ f, s.functions[id]? = some f ∧ f.host = some h
  | .foreignFunc _ => False
  | .table t => id = t
  | .memory m => m = some id
  | .global g => id = g

/-- An instance has the value at the place of the import, and it is what the import asks for. -/
def Bound (s : Store) (x : Instance) (i : Import) (v : Extern) : Prop :=
  v.kind = i.desc.kind ∧
    ∃ id, x.slot? i.desc.kind i.indexPerType = some id ∧ s.Stands id v ∧
      s.Fits x.module.signatures id i.desc

/-- What an instance has at an index is what the module declares there, if it declares anything. -/
def FitsAt (s : Store) (m : Module) (x : Instance) (kind : ExternKind) (k : Nat) : Prop :=
  ∀ d, m.declaration? kind k = some d → ∃ id, x.slot? kind k = some id ∧ s.Fits m.signatures id d

variable {s s' s₀ : Store} {x x' : Instance} {id : Nat} {v : Extern} {α : Type} {f : FunctionInstance}
  {g : GlobalInstance}

theorem Fits.later {signatures : List FuncType} {d : ImportDesc} (h : s.Fits signatures id d)
    (hs : s.Later s') : s'.Fits signatures id d := by
  cases d with
  | func t =>
    obtain ⟨f, hf, ht⟩ := h
    exact ⟨f, hs.functions id f hf, ht⟩
  | table t =>
    obtain ⟨table, htable, hmin, hmax⟩ := h
    obtain ⟨table', htable', hsize, hmax'⟩ := hs.tables id table htable
    exact ⟨table', htable', hsize ▸ hmin, hmax' ▸ hmax⟩
  | memory t =>
    obtain ⟨mem, hmem, hmin, hmax⟩ := h
    obtain ⟨mem', hmem', hsize, hmax'⟩ := hs.memories id mem hmem
    exact ⟨mem', hmem', Nat.le_trans hmin (Nat.div_le_div_right hsize), hmax' ▸ hmax⟩
  | global t =>
    obtain ⟨g, hg, ht⟩ := h
    exact ⟨g, hs.globals id g hg, ht⟩
  | unknown b => exact h.elim

theorem FitsAt.later {m : Module} {kind : ExternKind} {k : Nat} (h : s.FitsAt m x kind k) (hs : s.Later s')
    (hslot : x'.slot? kind k = x.slot? kind k) : s'.FitsAt m x' kind k := by
  intro d hd
  obtain ⟨id, hid, hfits⟩ := h d hd
  exact ⟨id, hslot.trans hid, hfits.later hs⟩

theorem Stands.later (h : s.Stands id v) (hs : s.Later s') : s'.Stands id v := by
  cases v with
  | host f =>
    obtain ⟨g, hg, hhost⟩ := h
    exact ⟨g, hs.functions id g hg, hhost⟩
  | func f | foreignFunc n | table t | memory m | global g => exact h

theorem Bound.later {i : Import} (h : s.Bound x i v) (hs : s.Later s')
    (hslot : x'.slot? i.desc.kind i.indexPerType = x.slot? i.desc.kind i.indexPerType)
    (hm : x'.module = x.module) : s'.Bound x' i v := by
  obtain ⟨hkind, id, hid, hstands, hfits⟩ := h
  refine ⟨hkind, id, hslot.trans hid, hstands.later hs, ?_⟩
  rw [hm]
  exact hfits.later hs

theorem Extends.addFunction (s : Store) (f : FunctionInstance) :
    s.Extends { s with functions := s.functions.push f } :=
  { Extends.refl s with functions := (Keeps.refl _).push f }

theorem Extends.addTable (s : Store) (t : Table FunctionId) :
    s.Extends { s with tables := s.tables.push t } :=
  { Extends.refl s with tables := (Keeps.refl _).push t }

theorem Extends.addMemory (s : Store) (m : Memory InstanceId) :
    s.Extends { s with memories := s.memories.push m } :=
  { Extends.refl s with memories := (Keeps.refl _).push m }

theorem Extends.addStorage (s : Store) (b : List UInt8) :
    s.Extends { s with storages := s.storages.push b } :=
  { Extends.refl s with storages := (Keeps.refl _).push b }

theorem Extends.addGlobal (s : Store) (g : GlobalInstance) :
    s.Extends { s with globals := s.globals.push g } :=
  { Extends.refl s with globals := (Keeps.refl _).push g }

theorem Extends.addInstance (s : Store) (x : Instance) :
    s.Extends { s with instances := s.instances.push x } :=
  { Extends.refl s with instances := (Keeps.refl _).push x }

theorem forall_push {xs : Array α} {a : α} {P : α → Prop}
    (h : ∀ (k : Nat) b, xs[k]? = some b → P b) (ha : P a) :
    ∀ (k : Nat) b, (xs.push a)[k]? = some b → P b := by
  intro k b hb
  rw [Array.getElem?_push] at hb
  split at hb
  · cases hb
    exact ha
  · exact h k b hb

theorem Sound.addFunction (h : s.Sound) (hf : f.owner < s.instances.size) :
    Sound { s with functions := s.functions.push f } :=
  { h with
    owners := forall_push h.owners hf
    resolved := fun module field v hv => (h.resolved module field v hv).mono
      (Extends.addFunction s f).functions.size_le (Nat.le_refl _) (Nat.le_refl _) (Nat.le_refl _) }

theorem Sound.addTable (h : s.Sound) (t : Table FunctionId) :
    Sound { s with tables := s.tables.push t } :=
  { h with
    resolved := fun module field v hv => (h.resolved module field v hv).mono (Nat.le_refl _)
      (Extends.addTable s t).tables.size_le (Nat.le_refl _) (Nat.le_refl _) }

theorem Sound.addMemory (h : s.Sound) {m : Memory InstanceId} (hm : ∀ i ∈ m.dependents, i < s.instances.size) :
    Sound { s with memories := s.memories.push m } :=
  { h with
    dependents := forall_push h.dependents hm
    resolved := fun module field v hv => (h.resolved module field v hv).mono (Nat.le_refl _) (Nat.le_refl _)
      (Extends.addMemory s m).memories.size_le (Nat.le_refl _) }

theorem Sound.addStorage (h : s.Sound) (b : List UInt8) :
    Sound { s with storages := s.storages.push b } :=
  { h with
    views := by
      intro k g hg
      obtain ⟨hvalue, bytes, hbytes, hlen⟩ := h.views k g hg
      exact ⟨hvalue, bytes, (Extends.addStorage s b).storages _ _ hbytes, hlen⟩ }

theorem Sound.addGlobal (h : s.Sound) (hvalue : g.type.valType.isValue = true)
    (hview : ∃ bytes, s.storages[g.storage]? = some bytes ∧ g.offset + g.type.valType.size ≤ bytes.length) :
    Sound { s with globals := s.globals.push g } :=
  { h with
    views := forall_push h.views ⟨hvalue, hview⟩
    resolved := fun module field v hv => (h.resolved module field v hv).mono (Nat.le_refl _) (Nat.le_refl _)
      (Nat.le_refl _) (Extends.addGlobal s g).globals.size_le }

theorem Sound.addInstance (h : s.Sound) (x : Instance) :
    Sound { s with instances := s.instances.push x } :=
  have hle := (Extends.addInstance s x).instances.size_le
  { h with
    owners := fun k f hf => Nat.lt_of_lt_of_le (h.owners k f hf) hle
    dependents := fun k m hm i hi => Nat.lt_of_lt_of_le (h.dependents k m hm i hi) hle }

theorem Sound.modifyInstances (h : s.Sound) (k : InstanceId) (f : Instance → Instance) :
    Sound { s with instances := s.instances.modify k f } :=
  { h with
    owners := by
      rw [Array.size_modify]
      exact h.owners
    dependents := by
      rw [Array.size_modify]
      exact h.dependents }

def Registered (s : Store) (h : HostFunction) : Prop := ∃ module field, s.names.resolve? module field = some (.host h)

/-- The store with a new instance of a module, which has nothing yet. -/
abbrev withInstance (s : Store) (name : String) (m : Module) : Store :=
  { s with instances := s.instances.push (.ofModule name m) }

/-- The store has one more instance than before, which is to be one of the module, and whatever else is new. -/
structure Grown (s₀ : Store) (m : Module) (s : Store) : Prop where
  kept : s₀.Extends s
  count : s.instances.size = s₀.instances.size + 1
  sound : s₀.Sound → s.Sound
  /-- No memory has the new instance among its dependents. -/
  free : s₀.Sound → ∀ (k : MemoryId) mem, s.memories[k]? = some mem → ∀ i ∈ mem.dependents, i < s₀.instances.size
  numbered : s₀.signatures <+: s.signatures ∧ (s₀.signatures.Nodup → s.signatures.Nodup)
  /-- The new functions belong to the new instance, and have the numbers of their signatures. -/
  newFunctions : ∀ (k : FunctionId) f, s₀.functions.size ≤ k → s.functions[k]? = some f →
    f.owner = s₀.instances.size ∧ f.index < m.functions.length ∧ f.type ∈ m.signatures ∧
      s.signatures[f.typeId]? = some f.type.text
  newHosts : ∀ (k : FunctionId) f, s₀.functions.size ≤ k → s.functions[k]? = some f →
    ∀ h, f.host = some h → s₀.Registered h
  /-- Nothing was written to the new tables. -/
  newTables : ∀ (k : TableId) t, s₀.tables.size ≤ k → s.tables[k]? = some t → t = .create t.min t.max
  /-- Nothing depends on the new memories, and nothing was written to them. -/
  newMemories : ∀ (k : MemoryId) mem, s₀.memories.size ≤ k → s.memories[k]? = some mem →
    mem.dependents = [] ∧ ∀ a, mem.buffer.get a = 0
  /-- The new memories are what the module declares. -/
  declared : ∀ (k : MemoryId) mem, s₀.memories.size ≤ k → s.memories[k]? = some mem →
    ∃ t, m.memory = some t ∧ mem.pages = t.min ∧ mem.max = t.max

theorem forall_push_of_le {xs : Array α} {a : α} {n : Nat} {P : α → Prop}
    (h : ∀ (k : Nat) b, n ≤ k → xs[k]? = some b → P b) (ha : P a) :
    ∀ (k : Nat) b, n ≤ k → (xs.push a)[k]? = some b → P b := by
  intro k b hk hb
  rw [Array.getElem?_push] at hb
  split at hb
  · cases hb
    exact ha
  · exact h k b hk hb

namespace Grown

variable {m : Module}

theorem new (s₀ : Store) (m : Module) (x : Instance) :
    Grown s₀ m { s₀ with instances := s₀.instances.push x } where
  kept := .addInstance s₀ x
  count := Array.size_push x
  sound h := h.addInstance x
  free h := h.dependents
  numbered := ⟨prefix_refl _, id⟩
  newFunctions _ _ := none_beyond
  newHosts _ _ := none_beyond
  newTables _ _ := none_beyond
  newMemories _ _ := none_beyond
  declared _ _ := none_beyond

section

variable (h : Grown s₀ m s)
include h

theorem addSignatures {signatures : List String} (hfirst : s.signatures <+: signatures)
    (hnodup : s.signatures.Nodup → signatures.Nodup) : Grown s₀ m { s with signatures } :=
  { h with
    kept := { h.kept with }
    sound := fun h₀ => { h.sound h₀ with }
    numbered := ⟨h.numbered.1.trans hfirst, fun h₀ => hnodup (h.numbered.2 h₀)⟩
    newFunctions := by
      intro k f hk hf
      obtain ⟨howner, hindex, htype, hnumber⟩ := h.newFunctions k f hk hf
      obtain ⟨rest, rfl⟩ := hfirst
      refine ⟨howner, hindex, htype, ?_⟩
      rw [getElem?_append_left (List.getElem?_eq_some_iff.mp hnumber).1]
      exact hnumber }

theorem addFunction (howner : f.owner = s₀.instances.size)
    (hindex : f.index < m.functions.length) (htype : f.type ∈ m.signatures)
    (hnumber : s.signatures[f.typeId]? = some f.type.text) (hhost : ∀ h, f.host = some h → s₀.Registered h) :
    Grown s₀ m { s with functions := s.functions.push f } :=
  { h with
    kept := h.kept.trans (.addFunction s f)
    sound := by
      intro h₀
      apply (h.sound h₀).addFunction
      rw [howner, h.count]
      exact Nat.lt_succ_self _
    newFunctions := forall_push_of_le h.newFunctions ⟨howner, hindex, htype, hnumber⟩
    newHosts := forall_push_of_le h.newHosts hhost }

theorem addTable (min max : Nat) : Grown s₀ m { s with tables := s.tables.push (.create min max) } :=
  { h with
    kept := h.kept.trans (.addTable s _)
    sound := fun h₀ => (h.sound h₀).addTable _
    newTables := forall_push_of_le h.newTables rfl }

theorem addMemory {mem : Memory InstanceId} (hmem : mem.dependents = [] ∧ ∀ a, mem.buffer.get a = 0)
    (hdeclared : ∃ t, m.memory = some t ∧ mem.pages = t.min ∧ mem.max = t.max) :
    Grown s₀ m { s with memories := s.memories.push mem } :=
  { h with
    kept := h.kept.trans (.addMemory s mem)
    sound := fun h₀ => (h.sound h₀).addMemory (by simp [hmem.1])
    free := fun h₀ => forall_push (h.free h₀) (by simp [hmem.1])
    newMemories := forall_push_of_le h.newMemories hmem
    declared := forall_push_of_le h.declared hdeclared }

theorem addStorage (b : List UInt8) : Grown s₀ m { s with storages := s.storages.push b } :=
  { h with
    kept := h.kept.trans (.addStorage s b)
    sound := fun h₀ => (h.sound h₀).addStorage b }

theorem addGlobal (hvalue : g.type.valType.isValue = true)
    (hview : ∃ bytes, s.storages[g.storage]? = some bytes ∧ g.offset + g.type.valType.size ≤ bytes.length) :
    Grown s₀ m { s with globals := s.globals.push g } :=
  { h with
    kept := h.kept.trans (.addGlobal s g)
    sound := fun h₀ => (h.sound h₀).addGlobal hvalue hview }

theorem put (f : Instance → Instance) :
    Grown s₀ m { s with instances := s.instances.modify s₀.instances.size f } :=
  { h with
    kept := { h.kept with instances := h.kept.instances.modify_of_le (Nat.le_refl _) f }
    count := by rw [Array.size_modify, h.count]
    sound := fun h₀ => (h.sound h₀).modifyInstances _ f }

theorem stored_put (x : Instance) :
    (s.instances.modify s₀.instances.size fun _ => x)[s₀.instances.size]? = some x := by
  have hlt : s₀.instances.size < s.instances.size := h.count ▸ Nat.lt_succ_self _
  rw [Array.getElem?_modify, if_pos rfl, Array.getElem?_eq_getElem hlt]
  rfl

end

end Grown

structure Pending (s₀ : Store) (m : Module) (s : Store) (x : Instance) : Prop extends Grown s₀ m s where
  code : x.code = none
  opened : x.closed = false
  memory : ∀ id, x.memory = some id → id < s.memories.size
  owned : x.ownsMemory = true → ∀ id, x.memory = some id → s₀.memories.size ≤ id

structure Begun (s₀ : Store) (m : Module) (name : String) (s : Store) (x : Instance) : Prop
    extends Pending s₀ m s x where
  name : x.name = name
  module : x.module = m
  functions : x.functions.length = m.functions.length
  tables : x.tables.length = m.tables.length
  globals : x.globals.length = m.globals.length
  owner : x.ownsMemory = true → ∃ t, m.memory = some t ∧ t.imported = false
  own : ∀ t, m.memory = some t → t.imported = false →
    ∃ id, x.memory = some id ∧ s.Fits m.signatures id (.memory t)

structure Draft (s₀ : Store) (m : Module) (name : String) (s : Store) (x : Instance) : Prop
    extends Begun s₀ m name s x where
  storage : s₀.storages.size ≤ x.storage ∧
    ∃ bytes, s.storages[x.storage]? = some bytes ∧ m.globalsSize ≤ bytes.length

variable {m : Module} {name : String}

theorem Begun.step (h : Begun s₀ m name s x) (hg : Grown s₀ m s') (hl : s.Later s') : Begun s₀ m name s' x :=
  { h with
    toGrown := hg
    memory := by
      intro id hid
      obtain ⟨mem, hmem, -⟩ := hl.memories id _ (Array.getElem?_eq_getElem (h.memory id hid))
      exact lt_size hmem
    own := by
      intro t ht himp
      obtain ⟨id, hid, hfits⟩ := h.own t ht himp
      exact ⟨id, hid, hfits.later hl⟩ }

theorem Draft.step (h : Draft s₀ m name s x) (hg : Grown s₀ m s') (hl : s.Later s') : Draft s₀ m name s' x :=
  { h.toBegun.step hg hl with
    storage := by
      obtain ⟨hle, bytes, hbytes, hlen⟩ := h.storage
      obtain ⟨bytes', hbytes', hlonger⟩ := hl.storages _ _ hbytes
      exact ⟨hle, bytes', hbytes', Nat.le_trans hlen hlonger⟩ }

theorem Begun.addStorage (h : Begun s₀ m name s x) {b : List UInt8} (hb : m.globalsSize ≤ b.length) :
    Draft s₀ m name { s with storages := s.storages.push b } { x with storage := s.storages.size } :=
  have hstep := h.step (h.toGrown.addStorage b) (Extends.addStorage s b).later
  { hstep with
    storage := ⟨h.kept.storages.size_le, b, Array.getElem?_push_size, hb⟩ }

end Store

end ProtoWasm
