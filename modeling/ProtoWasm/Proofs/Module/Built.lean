import ProtoWasm.Proofs.Module.Reading

/-! # Modules while their sections are read

What holds of a module of which some sections have been read, in any order that is allowed. A section
that has not been read has left nothing behind, and what refers to an index space stays in range while
the space grows.
-/
namespace ProtoWasm

open List

/-- What signatures and imports say of a function. -/
def Function.head (f : Function) : Function :=
  { typeIndex := f.typeIndex, type := f.type, imported := f.imported, importIndex := f.importIndex }

def Function.hide (f : Function) : Function := { f with exported := false }

def Global.unplaced (g : Global) : Global := { g with offset := 0 }

/-- The imports of a kind, each with its position among all of them. -/
def Import.ofKind (kind : ExternKind) (imports : List Import) : List (Import × Nat) :=
  imports.zipIdx.filter fun x => x.1.desc.kind = kind

/-- Every import tells how many imports of its kind there are before it. -/
def Import.Numbered (imports : List Import) : Prop :=
  ∀ k i, imports[k]? = some i → i.indexPerType = (Import.ofKind i.desc.kind (imports.take k)).length

/-- The functions that are flagged are the ones that exports refer to. -/
def Export.Flags (exports : List Export) (flags : List Bool) : Prop :=
  ∀ k b, flags[k]? = some b → (b = true ↔ ∃ e ∈ exports, e.kind = .func ∧ e.index = k)

theorem Import.ofKind_same {kind : ExternKind} {imports : List Import} {i : Import}
    (h : i.desc.kind = kind) :
    Import.ofKind kind (imports ++ [i]) = Import.ofKind kind imports ++ [(i, imports.length)] := by
  simp [Import.ofKind, zipIdx_append, h]

theorem Import.ofKind_other {kind : ExternKind} {imports : List Import} {i : Import}
    (h : i.desc.kind ≠ kind) : Import.ofKind kind (imports ++ [i]) = Import.ofKind kind imports := by
  simp [Import.ofKind, zipIdx_append, h]

theorem Import.Numbered.concat {imports : List Import} {i : Import} (h : Import.Numbered imports)
    (hi : i.indexPerType = (Import.ofKind i.desc.kind imports).length) :
    Import.Numbered (imports ++ [i]) := by
  intro k x hx
  rw [getElem?_append] at hx
  split at hx
  · rename_i hk
    rw [take_append_of_le_length (Nat.le_of_lt hk)]
    exact h k x hx
  · rename_i hk
    obtain ⟨hl, rfl⟩ := List.getElem?_eq_some_iff.mp hx
    have hk' : k = imports.length := by
      rw [length_singleton] at hl
      omega
    subst hk'
    simpa using hi

theorem Export.Flags.append {exports : List Export} {flags new : List Bool}
    (h : Export.Flags exports flags) (hnew : ∀ b ∈ new, b = false)
    (hin : ∀ e ∈ exports, e.kind = .func → e.index < flags.length) :
    Export.Flags exports (flags ++ new) := by
  intro k b hb
  rw [getElem?_append] at hb
  split at hb
  · exact h k b hb
  · rename_i hk
    rw [hnew b (mem_of_getElem? hb)]
    constructor
    · intro hf
      cases hf
    · rintro ⟨e, he, hkind, rfl⟩
      exact absurd (hin e he hkind) hk

theorem ConstExpr.Initializes.append {imported more : List GlobalType} {e : ConstExpr} {t : ValType}
    (h : e.Initializes imported t) : e.Initializes (imported ++ more) t := by
  cases h with
  | i32 h => exact .i32 h
  | i64 h => exact .i64 h
  | f32 h => exact .f32 h
  | f64 h => exact .f64 h
  | getGlobal h hg =>
    refine .getGlobal h ?_
    rwa [getElem?_append_left (List.getElem?_eq_some_iff.mp hg).1]

namespace Module

/-! ## Index spaces that grow -/

/-- No index space gets smaller, and the imported globals keep their types. -/
structure Grows (m m' : Module) : Prop where
  functions : m.functions.length ≤ m'.functions.length
  tables : m.tables.length ≤ m'.tables.length
  memory : m.memory.isSome = true → m'.memory.isSome = true
  globals : m.globals.length ≤ m'.globals.length
  types : m.importedGlobalTypes <+: m'.importedGlobalTypes

/-- What the module refers to is in its index spaces. -/
structure Refers (m : Module) : Prop where
  exports : ∀ e ∈ m.exports, ∃ n, m.spaceSize e.kind = some n ∧ e.index < n
  elements : ∀ e ∈ m.elements, m.Placed e
  data : ∀ d ∈ m.data, m.memory.isSome = true ∧
    ∃ x, d.offset = some x ∧ x.Initializes m.importedGlobalTypes .i32

namespace Grows

variable {m m' : Module}

theorem initializes (h : Grows m m') {e : ConstExpr} {t : ValType}
    (he : e.Initializes m.importedGlobalTypes t) : e.Initializes m'.importedGlobalTypes t := by
  obtain ⟨more, hmore⟩ := h.types
  rw [← hmore]
  exact he.append

theorem inSpace (h : Grows m m') {kind : ExternKind} {k : Nat}
    (hk : ∃ n, m.spaceSize kind = some n ∧ k < n) : ∃ n, m'.spaceSize kind = some n ∧ k < n := by
  obtain ⟨n, hn, hlt⟩ := hk
  cases kind with
  | func =>
    cases hn
    exact ⟨_, rfl, Nat.lt_of_lt_of_le hlt h.functions⟩
  | table =>
    cases hn
    exact ⟨_, rfl, Nat.lt_of_lt_of_le hlt h.tables⟩
  | memory =>
    cases hn
    by_cases hm : m.memory.isSome = true
    · refine ⟨_, rfl, ?_⟩
      rw [if_pos (h.memory hm)]
      rwa [if_pos hm] at hlt
    · rw [if_neg hm] at hlt
      exact absurd hlt (Nat.not_lt_zero k)
  | global =>
    cases hn
    exact ⟨_, rfl, Nat.lt_of_lt_of_le hlt h.globals⟩
  | unknown b => cases hn

theorem placed (h : Grows m m') {e : ElementSegment} (he : m.Placed e) : m'.Placed e := by
  obtain ⟨ht, hf, x, hx, hi⟩ := he
  refine ⟨Nat.lt_of_lt_of_le ht h.tables, ?_, x, hx, h.initializes hi⟩
  intro f hmem
  exact Nat.lt_of_lt_of_le (hf f hmem) h.functions

theorem defines (h : Grows m m') {g : Global} (hg : m.Defines g) : m'.Defines g := by
  obtain ⟨hv, hi, e, he, hx⟩ := hg
  exact ⟨hv, hi, e, he, h.initializes hx⟩

theorem refers (h : Grows m m') (hm : m.Refers) (hexports : m'.exports = m.exports)
    (helements : m'.elements = m.elements) (hdata : m'.data = m.data) : m'.Refers where
  exports := by
    rw [hexports]
    exact fun e he => h.inSpace (hm.exports e he)
  elements := by
    rw [helements]
    exact fun e he => h.placed (hm.elements e he)
  data := by
    rw [hdata]
    intro d hd
    obtain ⟨hmemory, x, hx, hi⟩ := hm.data d hd
    exact ⟨h.memory hmemory, x, hx, h.initializes hi⟩

end Grows

/-! ## The places of globals -/

theorem layoutGlobals_append_of_imported {xs : List Global} (h : ∀ g ∈ xs, g.imported = true) (n : Nat)
    (ys : List Global) :
    layoutGlobals n (xs ++ ys) = (xs ++ (layoutGlobals n ys).1, (layoutGlobals n ys).2) := by
  induction xs with
  | nil => rfl
  | cons g xs ih =>
    obtain ⟨hg, hxs⟩ := forall_mem_cons.mp h
    simp [layoutGlobals, hg, ih hxs]

theorem layoutGlobals_of_imported {xs : List Global} (h : ∀ g ∈ xs, g.imported = true) (n : Nat) :
    layoutGlobals n xs = (xs, n) := by
  have := layoutGlobals_append_of_imported h n []
  simpa [layoutGlobals] using this

theorem unplaced_layoutGlobals (n : Nat) (xs : List Global) :
    (layoutGlobals n xs).1.map Global.unplaced = xs.map Global.unplaced := by
  induction xs generalizing n with
  | nil => rfl
  | cons g xs ih =>
    by_cases hg : g.imported
    · simp [layoutGlobals, hg, ih]
    · simp [layoutGlobals, hg, ih, Global.unplaced]

/-- Where globals end that stand one after the other from a place on, each at a multiple of its size. -/
def extent : Nat → List Global → Nat
  | n, [] => n
  | n, g :: gs =>
    let size := g.type.valType.size
    extent (if g.imported then n else (n + size - 1) / size * size + size) gs

/-- How many bytes the globals of a module take, with those that are left free between them. -/
def globalBytes (m : Module) : Nat := extent 0 m.globals

theorem extent_append (n : Nat) (xs ys : List Global) : extent n (xs ++ ys) = extent (extent n xs) ys := by
  induction xs generalizing n with
  | nil => rfl
  | cons g xs ih => exact ih _

theorem extent_of_imported {xs : List Global} (h : ∀ g ∈ xs, g.imported = true) (n : Nat) : extent n xs = n := by
  induction xs with
  | nil => rfl
  | cons g xs ih =>
    obtain ⟨hg, hxs⟩ := forall_mem_cons.mp h
    simp only [extent, if_pos hg, ih hxs]

theorem extent_unplaced (n : Nat) (xs : List Global) : extent n (xs.map Global.unplaced) = extent n xs := by
  induction xs generalizing n with
  | nil => rfl
  | cons g xs ih => exact ih _

theorem alignUp_spec (n k : Nat) {t : ValType} (h : t.isValue = true) {place : Nat}
    (hp : (n + t.size - 1) / t.size * t.size = place) : n ≤ place ∧ t.size ∣ place ∧
      (n ≤ 8 * k → place + t.size ≤ 8 * (k + 1)) ∧ (place + t.size < 2 ^ 32 → alignUp n t.size = place) := by
  have hsize : t.size = 4 ∨ t.size = 8 := by
    cases t with
    | i32 | i64 | f32 | f64 => decide
    | void | unreachable | unknown b => cases h
  subst hp
  unfold alignUp
  refine ⟨?_, Nat.dvd_mul_left _ _, ?_, ?_⟩ <;> rcases hsize with h | h <;> rw [h] <;> omega

section

variable {gs : List Global} (h : ∀ g ∈ gs, g.imported = false → g.type.valType.isValue = true)
include h

theorem extent_spec (n k : Nat) : n ≤ extent n gs ∧ (n ≤ 8 * k → extent n gs ≤ 8 * (k + gs.length)) := by
  induction gs generalizing n k with
  | nil => exact ⟨Nat.le_refl n, id⟩
  | cons g gs ih =>
    obtain ⟨hg, hgs⟩ := forall_mem_cons.mp h
    dsimp only [extent]
    by_cases himp : g.imported = true
    · obtain ⟨hle, hfew⟩ := ih hgs n k
      rw [if_pos himp]
      exact ⟨hle, fun hk => Nat.le_trans (hfew hk) (by simp)⟩
    · rw [if_neg himp]
      generalize hp : (n + g.type.valType.size - 1) / g.type.valType.size * g.type.valType.size = place
      obtain ⟨hplace, -, hroom, -⟩ := alignUp_spec n k (hg (Bool.eq_false_iff.mpr himp)) hp
      obtain ⟨hle, hfew⟩ := ih hgs (place + g.type.valType.size) (k + 1)
      refine ⟨by omega, fun hk => Nat.le_trans (hfew (hroom hk)) ?_⟩
      rw [length_cons]
      omega

/-- If they end below 2^32, the globals that a module defines get places one after the other, each at a multiple of
its size. -/
theorem layoutGlobals_spec (n : Nat) (hfit : extent n gs < 2 ^ 32) :
    (layoutGlobals n gs).2 = extent n gs ∧
    (∀ g ∈ (layoutGlobals n gs).1, g.imported = false → n ≤ g.offset ∧ g.type.valType.size ∣ g.offset ∧
      g.offset + g.type.valType.size ≤ (layoutGlobals n gs).2) ∧
    (layoutGlobals n gs).1.Pairwise fun g g' => g.imported = false → g'.imported = false →
      g.offset + g.type.valType.size ≤ g'.offset := by
  induction gs generalizing n with
  | nil => exact ⟨rfl, forall_mem_nil _, .nil⟩
  | cons g gs ih =>
    obtain ⟨hg, hgs⟩ := forall_mem_cons.mp h
    dsimp only [extent] at hfit ⊢
    by_cases himp : g.imported = true
    · rw [if_pos himp] at hfit ⊢
      obtain ⟨heq, hall, hpairs⟩ := ih hgs n hfit
      have hno : ¬g.imported = false := by simp [himp]
      simp only [layoutGlobals, if_pos himp]
      refine ⟨heq, forall_mem_cons.mpr ⟨(absurd · hno), hall⟩, ?_⟩
      exact pairwise_cons.mpr ⟨fun _ _ => (absurd · hno), hpairs⟩
    · rw [if_neg himp] at hfit ⊢
      generalize hp : (n + g.type.valType.size - 1) / g.type.valType.size * g.type.valType.size = place at hfit ⊢
      obtain ⟨hplace, hdvd, -, hword⟩ := alignUp_spec n 0 (hg (Bool.eq_false_iff.mpr himp)) hp
      have hle := (extent_spec hgs (place + g.type.valType.size) 0).1
      have hlt := Nat.lt_of_le_of_lt hle hfit
      obtain ⟨heq, hall, hpairs⟩ := ih hgs _ hfit
      simp only [layoutGlobals, if_neg himp, hword hlt, Nat.mod_eq_of_lt hlt]
      refine ⟨heq, forall_mem_cons.mpr ⟨fun _ => ⟨hplace, hdvd, heq ▸ hle⟩, fun g' hg' hi => ?_⟩,
        pairwise_cons.mpr ⟨fun g' hg' _ hi => (hall g' hg' hi).1, hpairs⟩⟩
      have := (hall g' hg' hi).1
      exact ⟨by omega, (hall g' hg' hi).2⟩

end

/-! ## Linked imports -/

/-- A link with a thing of one kind leaves the imports of the other kinds as they are. -/
theorem map_ofKind_link {α : Type} {m : Module} {d : ImportDesc} {kind : ExternKind} {f : Import × Nat → α}
    {l : List α} {module name : String} (h : d.kind ≠ kind) (hm : (Import.ofKind kind m.imports).map f = l) :
    (Import.ofKind kind (m.link module name d).imports).map f = l := by
  cases d with
  | func t | table t | memory t | global t => exact (congrArg _ (Import.ofKind_other h)).trans hm
  | unknown b => exact hm

/-! ## Functions that get names -/

def rename (fs : List Function) (names : List String) : List Function :=
  ((fs.zip names).map fun x => { x.1 with name := x.2 }) ++ fs.drop names.length

theorem nameFunctions_eq (m : Module) (names : List String) : m.nameFunctions names =
      { m with functions := m.functions.take m.importedFunctions ++ rename m.definedFunctions names } := by
  rw [nameFunctions, append_assoc]
  rfl

theorem map_eq_of_forall₂ {α β γ : Type} {v : α → γ} {w : β → γ} {R : α → β → Prop}
    (hR : ∀ x y, R x y → w y = v x) {xs : List α} {ys : List β} (h : List.Forall₂ R xs ys) :
    ys.map w = xs.map v := by
  induction h with
  | nil => rfl
  | cons hr _ ih => rw [map_cons, map_cons, hR _ _ hr, ih]

/-! ## The invariant -/

def heads (m : Module) : List Function := m.functions.map Function.head

/-- What holds of a module of which these sections have been read. -/
structure Built (source : List UInt8) (limit : Nat) (seen : List Section) (m : Module) : Prop extends m.Refers where
  signatures : ∀ t ∈ m.signatures, t.Declared
  heads : ∀ f ∈ m.heads, m.signatures[f.typeIndex]? = some f.type
  imports : ∀ i ∈ m.imports, i.desc.Declared limit m.signatures
  numbered : Import.Numbered m.imports
  -- the index spaces start with the imports
  functionImports : (Import.ofKind .func m.imports).map (fun x => (x.1.indexPerType, x.2, x.1.desc)) =
    (m.heads.take m.importedFunctions).mapIdx fun k f => (k, f.importIndex, .func f.typeIndex)
  tableImports : (Import.ofKind .table m.imports).map (fun x => (x.1.indexPerType, x.1.desc)) =
    (m.tables.take m.importedTables).mapIdx fun k t => (k, .table t)
  memoryImports : (Import.ofKind .memory m.imports).map (fun x => x.1.desc) =
    (m.memory.filter MemoryType.imported).toList.map .memory
  globalImports : (Import.ofKind .global m.imports).map (fun x => (x.1.indexPerType, x.1.desc)) =
    (m.globals.take m.importedGlobals).mapIdx fun k g => (k, .global g.type)
  functionCount : m.importedFunctions ≤ m.functions.length
  tableCount : m.importedTables ≤ m.tables.length
  globalCount : m.importedGlobals ≤ m.globals.length
  functionFlags : ∀ k f, m.heads[k]? = some f → (f.imported = true ↔ k < m.importedFunctions)
  definedHeads : ∀ f ∈ m.heads.drop m.importedFunctions, f = { typeIndex := f.typeIndex, type := f.type }
  tableFlags : ∀ k t, m.tables[k]? = some t → (t.imported = true ↔ k < m.importedTables)
  -- tables, memory and globals
  tables : ∀ t ∈ m.tables, t.Within maxTableSize
  oneTable : m.tables.length ≤ 1
  memory : ∀ t, m.memory = some t → t.Within limit ∧ t.max < 2 ^ 32
  importedGlobals : ∀ g ∈ m.globals.take m.importedGlobals,
    g.type.valType.isValue = true ∧ g = { type := g.type, imported := true }
  definedGlobals : ∀ g ∈ m.globals.drop m.importedGlobals, m.Defines g
  layout : layoutGlobals 0 (m.globals.map Global.unplaced) = (m.globals, m.globalsSize)
  small : m.globalBytes ≤ 2 * source.length
  -- exports and the start function
  exportNames : (m.exports.map Export.name).Nodup
  exportFlags : Export.Flags m.exports (m.functions.map Function.exported)
  start : ∀ n, m.start = some n → m.heads[n]?.map Function.type = some {}
  -- functions
  plain : ∀ f ∈ m.functions.take m.importedFunctions, f.hide = f.head
  bodies : .functionBodies ∈ seen → .functionSignatures ∈ seen ∧
    ∀ f ∈ m.definedFunctions, f.Defined source
  -- what has not been read
  noSignatures : .signatures ∉ seen → m.signatures = []
  noFunctions : .functionSignatures ∉ seen → m.functions.length = m.importedFunctions
  noTables : .table ∉ seen → m.tables.length = m.importedTables
  noMemory : .memory ∉ seen → ∀ t, m.memory = some t → t.imported = true
  noGlobals : .globals ∉ seen → m.globals.length = m.importedGlobals

namespace Built

variable {source : List UInt8} {limit : Nat} {seen : List Section} {m : Module} {fs gs : List Function}
  {e : Export} {s : Section} {t : MemoryType} {P : Function → Prop} {exports : List Export}

theorem empty : Built source limit [] {} where
  signatures := by simp
  heads := by simp [Module.heads]
  imports := by simp
  numbered := by simp [Import.Numbered]
  functionImports := rfl
  tableImports := rfl
  memoryImports := rfl
  globalImports := rfl
  functionCount := Nat.le_refl 0
  tableCount := Nat.le_refl 0
  globalCount := Nat.le_refl 0
  functionFlags := by simp [Module.heads]
  definedHeads := by simp [Module.heads]
  tableFlags := by simp
  tables := by simp
  oneTable := Nat.zero_le 1
  memory := by simp
  importedGlobals := by simp
  definedGlobals := by simp
  layout := rfl
  small := Nat.zero_le _
  exports := by simp
  exportNames := .nil
  exportFlags := by simp [Export.Flags]
  start := by simp
  elements := by simp
  data := by simp
  plain := by simp
  bodies := by simp
  noSignatures := fun _ => rfl
  noFunctions := fun _ => rfl
  noTables := fun _ => rfl
  noMemory := by simp
  noGlobals := fun _ => rfl

theorem see (h : Built source limit seen m)
    (hs : s = .functionBodies → .functionSignatures ∈ seen ∧ ∀ f ∈ m.definedFunctions, f.Defined source) :
    Built source limit (seen ++ [s]) m :=
  have hnot : ∀ {t}, t ∉ seen ++ [s] → t ∉ seen := fun ht hm => ht (mem_append_left _ hm)
  { h with
    bodies := by
      intro hb
      have hall : .functionSignatures ∈ seen ∧ ∀ f ∈ m.definedFunctions, f.Defined source := by
        rcases mem_append.mp hb with hb | hb
        · exact h.bodies hb
        · exact hs (mem_singleton.mp hb).symm
      exact ⟨mem_append_left _ hall.1, hall.2⟩
    noSignatures := fun ht => h.noSignatures (hnot ht)
    noFunctions := fun ht => h.noFunctions (hnot ht)
    noTables := fun ht => h.noTables (hnot ht)
    noMemory := fun ht => h.noMemory (hnot ht)
    noGlobals := fun ht => h.noGlobals (hnot ht) }

theorem signaturesRead (h : Built source limit seen m) (hs : .signatures ∉ seen) {ts : List FuncType}
    (hts : ∀ t ∈ ts, t.Declared) :
    Built source limit (seen ++ [.signatures]) { m with signatures := ts } :=
  have hnil := h.noSignatures hs
  have hno : ∀ n : Nat, m.signatures[n]? = none := by simp [hnil]
  { h.see (s := .signatures) (by simp) with
    signatures := hts
    heads := by
      intro f hf
      have := h.heads f hf
      rw [hno] at this
      cases this
    imports := by
      intro i hi
      have := h.imports i hi
      cases hd : i.desc with
      | func t =>
        rw [hd, hnil] at this
        exact absurd this (Nat.not_lt_zero t)
      | table t | memory t | global t | unknown b =>
        rw [hd] at this
        exact this
    noSignatures := fun hn => absurd (mem_append_right _ (mem_singleton.mpr rfl)) hn }

theorem mem_seen : s ∈ seen ++ [s] := mem_append_right _ (mem_singleton.mpr rfl)

section

variable (h : Built source limit seen m)
include h

theorem export_lt :
    ∀ e ∈ m.exports, e.kind = .func → e.index < (m.functions.map Function.exported).length := by
  intro e he hk
  obtain ⟨n, hn, hlt⟩ := h.exports e he
  rw [hk] at hn
  cases hn
  rwa [length_map]

theorem no_bodies (hs : .functionSignatures ∉ seen) :
    .functionBodies ∉ seen := fun hb => hs (h.bodies hb).1

theorem functionsRead (hs : .functionSignatures ∉ seen)
    (hfs : ∀ f ∈ fs, m.signatures[f.typeIndex]? = some f.type ∧
      f = { typeIndex := f.typeIndex, type := f.type }) :
    Built source limit (seen ++ [.functionSignatures]) { m with functions := m.functions ++ fs } := by
  have hlen := h.noFunctions hs
  have hgrows : Grows m { m with functions := m.functions ++ fs } :=
    ⟨by simp, Nat.le_refl _, id, Nat.le_refl _, prefix_refl _⟩
  have hheads : Module.heads { m with functions := m.functions ++ fs } = m.heads ++ fs.map Function.head :=
    map_append
  have hlen' : m.heads.length = m.importedFunctions := by rw [Module.heads, length_map, hlen]
  exact { h.see (s := .functionSignatures) (by simp) with
    heads := by
      intro f hf
      rw [hheads] at hf
      rcases mem_append.mp hf with hf | hf
      · exact h.heads f hf
      · obtain ⟨g, hg, rfl⟩ := mem_map.mp hf
        exact (hfs g hg).1
    functionImports := by
      rw [hheads, take_append_of_le_length (Nat.le_of_eq hlen'.symm)]
      exact h.functionImports
    functionCount := Nat.le_trans h.functionCount hgrows.functions
    functionFlags := by
      intro k f hf
      rw [hheads, getElem?_append] at hf
      split at hf
      · exact h.functionFlags k f hf
      · rename_i hk
        obtain ⟨g, hg, rfl⟩ := mem_map.mp (mem_of_getElem? hf)
        have hg' := (hfs g hg).2
        constructor
        · intro hi
          rw [hg'] at hi
          cases hi
        · intro hlt
          exact absurd (hlen'.symm ▸ hlt) hk
    definedHeads := by
      rw [hheads, drop_left' hlen']
      intro f hf
      obtain ⟨g, hg, rfl⟩ := mem_map.mp hf
      rw [(hfs g hg).2]
      rfl
    toRefers := hgrows.refers h.toRefers rfl rfl rfl
    exportFlags := by
      have hnew : ∀ b ∈ fs.map Function.exported, b = false := by
        intro b hb
        obtain ⟨g, hg, rfl⟩ := mem_map.mp hb
        rw [(hfs g hg).2]
      have := h.exportFlags.append hnew h.export_lt
      rwa [← map_append] at this
    start := by
      intro n hn
      have := h.start n hn
      obtain ⟨f, hf, ht⟩ := Option.map_eq_some_iff.mp this
      rw [hheads, getElem?_append_left (List.getElem?_eq_some_iff.mp hf).1]
      exact this
    plain := by
      rw [take_append_of_le_length (Nat.le_of_eq hlen.symm)]
      exact h.plain
    bodies := by
      intro hb
      rcases mem_append.mp hb with hb | hb
      · exact absurd hb (h.no_bodies hs)
      · cases mem_singleton.mp hb
    noFunctions := fun hn => absurd mem_seen hn }

theorem tableRead (hs : .table ∉ seen) {ts : List TableType} (hone : (m.tables ++ ts).length ≤ 1)
    (hts : ∀ t ∈ ts, t.Within maxTableSize ∧ t.imported = false) :
    Built source limit (seen ++ [.table]) { m with tables := m.tables ++ ts } := by
  have hlen := h.noTables hs
  have hgrows : Grows m { m with tables := m.tables ++ ts } :=
    ⟨Nat.le_refl _, by simp, id, Nat.le_refl _, prefix_refl _⟩
  exact { h.see (s := .table) (by simp) with
    tableImports := by
      rw [take_append_of_le_length (Nat.le_of_eq hlen.symm)]
      exact h.tableImports
    tableCount := Nat.le_trans h.tableCount hgrows.tables
    tableFlags := by
      intro k t ht
      rw [getElem?_append] at ht
      split at ht
      · exact h.tableFlags k t ht
      · rename_i hk
        rw [(hts t (mem_of_getElem? ht)).2]
        constructor
        · intro hi
          cases hi
        · intro hlt
          exact absurd (hlen.symm ▸ hlt) hk
    tables := forall_mem_append.mpr ⟨h.tables, fun t ht => (hts t ht).1⟩
    oneTable := hone
    toRefers := hgrows.refers h.toRefers rfl rfl rfl
    noTables := fun hn => absurd mem_seen hn }

theorem memoryRead (hm : m.memory = none)
    (ht : t.Within limit ∧ t.max < 2 ^ 32) (hi : t.imported = false) :
    Built source limit (seen ++ [.memory]) { m with memory := some t } := by
  have hgrows : Grows m { m with memory := some t } :=
    ⟨Nat.le_refl _, Nat.le_refl _, fun _ => rfl, Nat.le_refl _, prefix_refl _⟩
  exact { h.see (s := .memory) (by simp) with
    memoryImports := by
      have := h.memoryImports
      rw [hm] at this
      rw [this, Option.filter_some, if_neg (by simp [hi])]
      rfl
    memory := by
      intro u hu
      cases hu
      exact ht
    toRefers := hgrows.refers h.toRefers rfl rfl rfl
    noMemory := fun hn => absurd mem_seen hn }

/-- Where no section has defined globals, all of them are imported and they have no places. -/
theorem all_imported (hs : .globals ∉ seen) :
    (∀ g ∈ m.globals, g.imported = true) ∧ m.globals.map Global.unplaced = m.globals ∧
      m.globalsSize = 0 := by
  have himp : ∀ g ∈ m.globals, g = { type := g.type, imported := true } := by
    intro g hg
    rw [← take_length (l := m.globals), h.noGlobals hs] at hg
    exact (h.importedGlobals g hg).2
  have hflag : ∀ g ∈ m.globals, g.imported = true := by
    intro g hg
    rw [himp g hg]
  have hsame : m.globals.map Global.unplaced = m.globals := by
    conv_rhs => rw [← map_id m.globals]
    apply map_congr_left
    intro g hg
    rw [himp g hg]
    rfl
  have hl := h.layout
  rw [hsame, layoutGlobals_of_imported hflag] at hl
  exact ⟨hflag, hsame, (congrArg Prod.snd hl).symm⟩

theorem globalsRead (hs : .globals ∉ seen) {gs : List Global}
    (hgs : ∀ g ∈ gs, m.Defines g ∧ g.offset = 0) (hfew : 4 * gs.length ≤ source.length) :
    Built source limit (seen ++ [.globals]) { m with
      globals := (layoutGlobals 0 (m.globals ++ gs)).1
      globalsSize := (layoutGlobals 0 (m.globals ++ gs)).2 } := by
  obtain ⟨himp, hsame, -⟩ := h.all_imported hs
  have hlen := h.noGlobals hs
  have hout := layoutGlobals_append_of_imported himp 0 gs
  have htake : (layoutGlobals 0 (m.globals ++ gs)).1.take m.importedGlobals = m.globals := by
    rw [hout, ← hlen]
    exact take_left
  have hdrop : (layoutGlobals 0 (m.globals ++ gs)).1.drop m.importedGlobals = (layoutGlobals 0 gs).1 := by
    rw [hout, ← hlen]
    exact drop_left
  have hgs' : gs.map Global.unplaced = gs := by
    conv_rhs => rw [← map_id gs]
    apply map_congr_left
    intro g hg
    simp [Global.unplaced, ← (hgs g hg).2]
  have hall : m.globals.take m.importedGlobals = m.globals := by
    rw [← hlen]
    exact take_length
  have hgrows : Grows m { m with
      globals := (layoutGlobals 0 (m.globals ++ gs)).1
      globalsSize := (layoutGlobals 0 (m.globals ++ gs)).2 } := by
    refine ⟨Nat.le_refl _, Nat.le_refl _, id, ?_, ?_⟩
    · rw [hout, length_append]
      exact Nat.le_add_right _ _
    · simpa only [importedGlobalTypes, htake, hall] using prefix_refl _
  exact { h.see (s := .globals) (by simp) with
    globalImports := by
      rw [htake, ← hall]
      exact h.globalImports
    globalCount := Nat.le_trans h.globalCount hgrows.globals
    importedGlobals := by
      rw [htake, ← hall]
      exact h.importedGlobals
    definedGlobals := by
      intro g hg
      rw [hdrop] at hg
      have hmem : g.unplaced ∈ gs := by
        rw [← hgs', ← unplaced_layoutGlobals 0 gs]
        exact mem_map_of_mem hg
      have hd := hgrows.defines (hgs _ hmem).1
      exact hd
    layout := by
      rw [unplaced_layoutGlobals, map_append, hsame, hgs']
    small := by
      have hsize := (extent_spec (fun g hg _ => (hgs g hg).1.1) 0 0).2 (Nat.le_refl _)
      rw [globalBytes, hout, extent_append, extent_of_imported himp, ← extent_unplaced, unplaced_layoutGlobals,
        extent_unplaced]
      exact Nat.le_trans hsize (by omega)
    toRefers := hgrows.refers h.toRefers rfl rfl rfl
    noGlobals := fun hn => absurd mem_seen hn }

end

/-! ## Imports -/

section

variable (h : Built source limit seen m)
include h

/-- How many imports of a kind there are is how many entries of its index space are imported. -/
theorem count_functions : (Import.ofKind .func m.imports).length = m.importedFunctions := by
  have := congrArg List.length h.functionImports
  rw [length_map, length_mapIdx, length_take, Module.heads, length_map,
    Nat.min_eq_left h.functionCount] at this
  exact this

theorem count_tables : (Import.ofKind .table m.imports).length = m.importedTables := by
  have := congrArg List.length h.tableImports
  rwa [length_map, length_mapIdx, length_take, Nat.min_eq_left h.tableCount] at this

theorem count_globals : (Import.ofKind .global m.imports).length = m.importedGlobals := by
  have := congrArg List.length h.globalImports
  rwa [length_map, length_mapIdx, length_take, Nat.min_eq_left h.globalCount] at this

theorem count_memories (hm : m.memory = none) : (Import.ofKind .memory m.imports).length = 0 := by
  have := congrArg List.length h.memoryImports
  rw [hm] at this
  simpa using this

theorem imports_concat {i : Import} (hi : i.desc.Declared limit m.signatures) :
    ∀ x ∈ m.imports ++ [i], x.desc.Declared limit m.signatures :=
  forall_mem_append.mpr ⟨h.imports, forall_mem_singleton.mpr hi⟩

theorem linkFunction (hs : .functionSignatures ∉ seen) {t : Nat}
    (ht : t < m.signatures.length) (module name : String) :
    Built source limit seen (m.link module name (.func t)) := by
  have hlen := h.noFunctions hs
  have hgrows : Grows m (m.link module name (.func t)) :=
    ⟨by simp [link], Nat.le_refl _, id, Nat.le_refl _, prefix_refl _⟩
  have hheads : (m.link module name (.func t)).heads = m.heads ++ [m.importedFunction t] :=
    map_append
  have hlen' : m.heads.length = m.importedFunctions := by rw [Module.heads, length_map, hlen]
  have hcount : (m.functions ++ [m.importedFunction t]).length = m.importedFunctions + 1 := by
    rw [length_append, hlen, length_singleton]
  have htake : m.heads.take m.importedFunctions = m.heads := by
    rw [← hlen']
    exact take_length
  have hself : Import.ofKind .func (m.link module name (.func t)).imports = Import.ofKind .func m.imports ++
      [(⟨module, name, .func t, m.importedFunctions⟩, m.imports.length)] := Import.ofKind_same rfl
  exact { h with
    heads := by
      rw [hheads]
      exact forall_mem_append.mpr ⟨h.heads, forall_mem_singleton.mpr (by simp [importedFunction, link, ht])⟩
    imports := h.imports_concat ht
    numbered := h.numbered.concat h.count_functions.symm
    functionImports := by
      have hf := h.functionImports
      rw [htake] at hf
      rw [hself, hheads, map_append, hf, take_of_length_le, mapIdx_append, hlen']
      · simp [importedFunction]
      · rw [length_append, hlen']
        exact Nat.le_refl _
    tableImports := map_ofKind_link ExternKind.noConfusion h.tableImports
    memoryImports := map_ofKind_link ExternKind.noConfusion h.memoryImports
    globalImports := map_ofKind_link ExternKind.noConfusion h.globalImports
    functionCount := Nat.le_of_eq hcount.symm
    functionFlags := by
      intro k f hf
      rw [hheads, getElem?_append] at hf
      show f.imported = true ↔ k < m.importedFunctions + 1
      split at hf
      · rename_i hk
        rw [h.functionFlags k f hf, ← hlen']
        omega
      · rename_i hk
        obtain ⟨hk', rfl⟩ := List.getElem?_eq_some_iff.mp hf
        rw [length_singleton] at hk'
        rw [getElem_singleton]
        constructor
        · omega
        · intro _
          rfl
    definedHeads := by
      have hnil : (m.link module name (.func t)).heads.drop
          (m.link module name (.func t)).importedFunctions = [] := by
        apply drop_of_length_le
        rw [Module.heads, length_map]
        exact Nat.le_of_eq hcount
      simp [hnil]
    toRefers := hgrows.refers h.toRefers rfl rfl rfl
    exportFlags := by
      have hnew : ∀ b ∈ [(m.importedFunction t).exported], b = false := forall_mem_singleton.mpr rfl
      have hall := h.exportFlags.append hnew h.export_lt
      rwa [← map_singleton, ← map_append] at hall
    start := by
      intro n hn
      have := h.start n hn
      obtain ⟨f, hf, _⟩ := Option.map_eq_some_iff.mp this
      rw [hheads, getElem?_append_left (List.getElem?_eq_some_iff.mp hf).1]
      exact this
    plain := by
      intro f hf
      rcases mem_append.mp (mem_of_mem_take hf) with hf | hf
      · rw [← take_length (l := m.functions), hlen] at hf
        exact h.plain f hf
      · rw [mem_singleton.mp hf]
        rfl
    bodies := fun hb => absurd hb (h.no_bodies hs)
    noFunctions := fun _ => hcount }

theorem linkTable (hs : .table ∉ seen) {t : TableType}
    (ht : t.Within maxTableSize ∧ t.imported = true) (hnil : m.tables = []) (module name : String) :
    Built source limit seen (m.link module name (.table t)) := by
  have hzero : m.importedTables = 0 := by
    rw [← h.noTables hs, hnil, length_nil]
  have htables : (m.link module name (.table t)).tables = [t] := by
    simp [link, hnil]
  have hone : (m.link module name (.table t)).importedTables = 1 := by
    simp [link, hzero]
  have hgrows : Grows m (m.link module name (.table t)) :=
    ⟨Nat.le_refl _, by simp [link], id, Nat.le_refl _, prefix_refl _⟩
  have hzero' : (Import.ofKind .table m.imports).length = 0 := by rw [h.count_tables, hzero]
  have hself : Import.ofKind .table (m.link module name (.table t)).imports = Import.ofKind .table m.imports ++
      [(⟨module, name, .table t, 0⟩, m.imports.length)] := Import.ofKind_same rfl
  exact { h with
    imports := h.imports_concat ht
    numbered := h.numbered.concat hzero'.symm
    functionImports := map_ofKind_link ExternKind.noConfusion h.functionImports
    tableImports := by
      rw [hself, htables, hone, eq_nil_of_length_eq_zero hzero']
      rfl
    memoryImports := map_ofKind_link ExternKind.noConfusion h.memoryImports
    globalImports := map_ofKind_link ExternKind.noConfusion h.globalImports
    tableCount := by
      rw [htables, hone]
      exact Nat.le_refl 1
    tableFlags := by
      intro k u hu
      rw [htables] at hu
      rw [hone]
      obtain ⟨hk, rfl⟩ := List.getElem?_eq_some_iff.mp hu
      rw [getElem_singleton]
      exact ⟨fun _ => hk, fun _ => ht.2⟩
    tables := by
      rw [htables]
      exact forall_mem_singleton.mpr ht.1
    oneTable := by
      rw [htables]
      exact Nat.le_refl 1
    toRefers := hgrows.refers h.toRefers rfl rfl rfl
    noTables := by
      intro _
      rw [htables, hone]
      rfl }

theorem linkMemory
    (ht : t.Within limit ∧ t.max < 2 ^ 32 ∧ t = ⟨t.min, t.max, false, true⟩) (hnone : m.memory = none)
    (module name : String) : Built source limit seen (m.link module name (.memory t)) := by
  have himp : t.imported = true := by rw [ht.2.2]
  have hgrows : Grows m (m.link module name (.memory t)) :=
    ⟨Nat.le_refl _, Nat.le_refl _, fun _ => rfl, Nat.le_refl _, prefix_refl _⟩
  have hzero := h.count_memories hnone
  have hself : Import.ofKind .memory (m.link module name (.memory t)).imports = Import.ofKind .memory m.imports ++
      [(⟨module, name, .memory t, 0⟩, m.imports.length)] := Import.ofKind_same rfl
  exact { h with
    imports := h.imports_concat ht
    numbered := h.numbered.concat hzero.symm
    functionImports := map_ofKind_link ExternKind.noConfusion h.functionImports
    tableImports := map_ofKind_link ExternKind.noConfusion h.tableImports
    memoryImports := by
      rw [hself, eq_nil_of_length_eq_zero hzero]
      show [ImportDesc.memory t] = ((some t).filter MemoryType.imported).toList.map ImportDesc.memory
      rw [Option.filter_some, if_pos himp]
      rfl
    globalImports := map_ofKind_link ExternKind.noConfusion h.globalImports
    memory := by
      intro u hu
      cases hu
      exact ⟨ht.1, ht.2.1⟩
    toRefers := hgrows.refers h.toRefers rfl rfl rfl
    noMemory := by
      intro _ u hu
      cases hu
      exact himp }

theorem linkGlobal (hs : .globals ∉ seen) {t : GlobalType}
    (ht : t.valType.isValue = true) (module name : String) :
    Built source limit seen (m.link module name (.global t)) := by
  have hlen := h.noGlobals hs
  obtain ⟨himp, hsame, hsize⟩ := h.all_imported hs
  have hcount : (m.globals ++ [({ type := t, imported := true } : Global)]).length = m.importedGlobals + 1 := by
    rw [length_append, hlen, length_singleton]
  have hall : m.globals.take m.importedGlobals = m.globals := by
    rw [← hlen]
    exact take_length
  have htake : (m.link module name (.global t)).globals.take (m.link module name (.global t)).importedGlobals =
      m.globals ++ [{ type := t, imported := true }] :=
    take_of_length_le (Nat.le_of_eq hcount)
  have hgrows : Grows m (m.link module name (.global t)) := by
    refine ⟨Nat.le_refl _, Nat.le_refl _, id, by simp [link], ?_⟩
    rw [importedGlobalTypes, importedGlobalTypes, htake, hall, map_append]
    exact prefix_append _ _
  have hself : Import.ofKind .global (m.link module name (.global t)).imports = Import.ofKind .global m.imports ++
      [(⟨module, name, .global t, m.importedGlobals⟩, m.imports.length)] := Import.ofKind_same rfl
  exact { h with
    imports := h.imports_concat ht
    numbered := h.numbered.concat h.count_globals.symm
    functionImports := map_ofKind_link ExternKind.noConfusion h.functionImports
    tableImports := map_ofKind_link ExternKind.noConfusion h.tableImports
    memoryImports := map_ofKind_link ExternKind.noConfusion h.memoryImports
    globalImports := by
      have hg := h.globalImports
      rw [hall] at hg
      rw [hself, htake, map_append, hg, mapIdx_append, hlen]
      simp
    globalCount := Nat.le_of_eq hcount.symm
    importedGlobals := by
      rw [htake]
      intro g hg
      rcases mem_append.mp hg with hg | hg
      · rw [← hall] at hg
        exact h.importedGlobals g hg
      · rw [mem_singleton.mp hg]
        exact ⟨ht, rfl⟩
    definedGlobals := by
      intro g hg
      have hnil : (m.link module name (.global t)).globals.drop
          (m.link module name (.global t)).importedGlobals = [] :=
        drop_of_length_le (Nat.le_of_eq hcount)
      rw [hnil] at hg
      cases hg
    layout := by
      have hmap : (m.globals ++ [({ type := t, imported := true } : Global)]).map Global.unplaced =
          m.globals ++ [{ type := t, imported := true }] := by
        rw [map_append, hsame]
        rfl
      have hnew : ∀ g ∈ m.globals ++ [({ type := t, imported := true } : Global)], g.imported = true :=
        forall_mem_append.mpr ⟨himp, forall_mem_singleton.mpr rfl⟩
      show layoutGlobals 0 ((m.globals ++ [_]).map Global.unplaced) = (m.globals ++ [_], m.globalsSize)
      rw [hmap, layoutGlobals_of_imported hnew, hsize]
    small := by
      show extent 0 (m.globals ++ [_]) ≤ _
      rw [extent_append]
      exact h.small
    toRefers := hgrows.refers h.toRefers rfl rfl rfl
    noGlobals := fun _ => hcount }

theorem link {d : ImportDesc} (hd : d.Declared limit m.signatures)
    (ha : m.Admits d) (hs : ∀ s ∈ Section.importTable.precedes, s ∉ seen) (module name : String) :
    Built source limit seen (m.link module name d) := by
  cases d with
  | func t => exact h.linkFunction (hs _ (by decide)) hd module name
  | table t => exact h.linkTable (hs _ (by decide)) hd ha module name
  | memory t => exact h.linkMemory hd ha module name
  | global t => exact h.linkGlobal (hs _ (by decide)) hd module name
  | unknown b => exact hd.elim

end

/-! ## Functions that are extended -/

/-- What is not about bodies, names and marks of exports only sees the heads of functions. -/
theorem refunction (h : Built source limit seen m) {es : List Export} (hheads : fs.map Function.head = m.heads)
    (hexports : ∀ e ∈ es, ∃ n, m.spaceSize e.kind = some n ∧ e.index < n)
    (hnames : (es.map Export.name).Nodup) (hflags : Export.Flags es (fs.map Function.exported))
    (hplain : ∀ f ∈ fs.take m.importedFunctions, f.hide = f.head)
    (hbodies : .functionBodies ∈ seen → .functionSignatures ∈ seen ∧
      ∀ f ∈ fs.drop m.importedFunctions, f.Defined source) :
    Built source limit seen { m with functions := fs, exports := es } := by
  have hlen : fs.length = m.functions.length := by
    have := congrArg List.length hheads
    rwa [Module.heads, length_map, length_map] at this
  have hgrows : Grows m { m with functions := fs, exports := es } :=
    ⟨Nat.le_of_eq hlen.symm, Nat.le_refl _, id, Nat.le_refl _, prefix_refl _⟩
  have hsame : Module.heads { m with functions := fs, exports := es } = m.heads := hheads
  exact { h with
    heads := by
      rw [hsame]
      exact h.heads
    functionImports := by
      rw [hsame]
      exact h.functionImports
    functionCount := Nat.le_trans h.functionCount hgrows.functions
    functionFlags := by
      rw [hsame]
      exact h.functionFlags
    definedHeads := by
      rw [hsame]
      exact h.definedHeads
    exports := fun e he => hgrows.inSpace (hexports e he)
    exportNames := hnames
    exportFlags := hflags
    start := by
      rw [hsame]
      exact h.start
    elements := fun e he => hgrows.placed (h.elements e he)
    plain := hplain
    bodies := hbodies
    noFunctions := by
      intro hs
      rw [← h.noFunctions hs]
      exact hlen }

/-- Views of functions that agree carry over what they determine. -/
theorem forall_mem_of_map_eq {v : Function → Function}
    (hv : ∀ f g, v f = v g → P f → P g) (h : gs.map v = fs.map v) (hP : ∀ f ∈ fs, P f) :
    ∀ g ∈ gs, P g := by
  intro g hg
  have hmem : v g ∈ fs.map v := by
    rw [← h]
    exact mem_map_of_mem hg
  obtain ⟨f, hf, he⟩ := mem_map.mp hmem
  exact hv f g he (hP f hf)

theorem map_hide_modify (fs : List Function) (n : Nat) :
    (fs.modify n fun f => { f with exported := true }).map Function.hide = fs.map Function.hide := by
  apply ext_getElem?
  intro k
  rw [getElem?_map, getElem?_map, getElem?_modify]
  cases fs[k]? with
  | none => rfl
  | some f =>
    by_cases hk : n = k
    · simp [hk, Function.hide]
    · simp [hk]

theorem exists_mem_concat {P : Export → Prop} (he : ¬P e) :
    (∃ x ∈ exports, P x) ↔ ∃ x ∈ exports ++ [e], P x := by
  constructor
  · rintro ⟨x, hx, hxk⟩
    exact ⟨x, mem_append_left _ hx, hxk⟩
  · rintro ⟨x, hx, hxk⟩
    rcases mem_append.mp hx with hx | hx
    · exact ⟨x, hx, hxk⟩
    · rw [mem_singleton.mp hx] at hxk
      exact absurd hxk he

theorem flags_other {flags : List Bool}
    (h : Export.Flags exports flags) (he : e.kind ≠ .func) : Export.Flags (exports ++ [e]) flags := by
  intro k b hb
  rw [h k b hb]
  exact exists_mem_concat fun hk => he hk.1

theorem flags_modify (h : Export.Flags exports (fs.map Function.exported)) (he : e.kind = .func) :
    Export.Flags (exports ++ [e])
      ((fs.modify e.index fun f => { f with exported := true }).map Function.exported) := by
  intro k b hb
  rw [getElem?_map, getElem?_modify] at hb
  obtain ⟨g, hg, rfl⟩ := Option.map_eq_some_iff.mp hb
  obtain ⟨f, hf, rfl⟩ := Option.map_eq_some_iff.mp hg
  by_cases hk : e.index = k
  · simp only [hk, if_true, true_iff]
    exact ⟨e, mem_append_right _ (mem_singleton.mpr rfl), he, hk⟩
  · simp only [hk, if_false]
    rw [h k f.exported (by rw [getElem?_map, hf]; rfl)]
    exact exists_mem_concat fun hx => hk hx.2

section

variable (h : Built source limit seen m)
include h

theorem exposed (hname : e.name ∉ m.exports.map Export.name) (hin : ∃ n, m.spaceSize e.kind = some n ∧ e.index < n) :
    Built source limit seen (m.expose e) := by
  have hexports : ∀ x ∈ m.exports ++ [e], ∃ n, m.spaceSize x.kind = some n ∧ x.index < n :=
    forall_mem_append.mpr ⟨h.exports, forall_mem_singleton.mpr hin⟩
  have hnames : ((m.exports ++ [e]).map Export.name).Nodup := by
    rw [map_append, nodup_append]
    refine ⟨h.exportNames, by simp, ?_⟩
    rintro a ha b hb rfl
    rw [mem_singleton.mp hb] at ha
    exact hname ha
  by_cases hk : e.kind = .func
  · have hhide := map_hide_modify m.functions e.index
    have hout : m.expose e = { m with
        functions := m.functions.modify e.index fun f => { f with exported := true }
        exports := m.exports ++ [e] } := by
      rw [expose, if_pos hk]
      rfl
    rw [hout]
    apply h.refunction _ hexports hnames (flags_modify h.exportFlags hk)
    · apply forall_mem_of_map_eq _ _ h.plain
      · exact Function.hide
      · intro f g hfg hf
        have hh : f.hide.head = g.hide.head := congrArg Function.head hfg
        rw [← hfg, hf]
        exact hh
      · rw [map_take, hhide, map_take]
    · intro hb
      refine ⟨(h.bodies hb).1, ?_⟩
      apply forall_mem_of_map_eq _ _ (h.bodies hb).2
      · exact Function.hide
      · intro f g hfg hf
        have hd : f.hide.Defined source := ⟨hf.body, hf.locals, hf.few⟩
        rw [hfg] at hd
        exact ⟨hd.body, hd.locals, hd.few⟩
      · rw [definedFunctions, map_drop, hhide, map_drop]
    · have := congrArg (List.map Function.head) hhide
      rwa [map_map, map_map] at this
  · have hout : m.expose e = { m with exports := m.exports ++ [e] } := by
      rw [expose, if_neg hk]
    rw [hout]
    exact h.refunction rfl hexports hnames (flags_other h.exportFlags hk) h.plain h.bodies

theorem startRead {n : Nat} (hn : m.functionType? n = some {}) :
    Built source limit (seen ++ [.startFunction]) { m with start := some n } :=
  { h.see (s := .startFunction) (by simp) with
    start := by
      intro k hk
      cases hk
      rw [Module.heads, getElem?_map, Option.map_map]
      exact hn }

theorem elementsRead {es : List ElementSegment} (hes : ∀ e ∈ es, m.Placed e) :
    Built source limit (seen ++ [.elements]) { m with elements := es } :=
  { h.see (s := .elements) (by simp) with elements := hes }

theorem dataRead (hm : m.memory.isSome = true) {ds : List DataSegment}
    (hds : ∀ d ∈ ds, ∃ x, d.offset = some x ∧ x.Initializes m.importedGlobalTypes .i32) :
    Built source limit (seen ++ [.dataSegments]) { m with data := ds } :=
  { h.see (s := .dataSegments) (by simp) with data := fun d hd => ⟨hm, hds d hd⟩ }

end

theorem forall_of_forall₂_right {R : Function → Function → Prop}
    (hR : ∀ f g, R f g → P g) (h : List.Forall₂ R fs gs) : ∀ g ∈ gs, P g := by
  induction h with
  | nil => simp
  | cons hr _ ih => exact forall_mem_cons.mpr ⟨hR _ _ hr, ih⟩

theorem bodiesRead (h : Built source limit seen m) (hs : .functionSignatures ∈ seen)
    (hno : .functionBodies ∉ seen)
    (hfs : List.Forall₂ (fun f g => f.SameOutline g ∧ g.Defined source) m.definedFunctions fs) :
    Built source limit (seen ++ [.functionBodies])
      { m with functions := m.functions.take m.importedFunctions ++ fs } := by
  have hlen : (m.functions.take m.importedFunctions).length = m.importedFunctions := by
    rw [length_take, Nat.min_eq_left h.functionCount]
  -- the outline of a function is all but its body
  have hmap : ∀ {α : Type} (v : Function → α), (∀ f g : Function, f.SameOutline g → v g = v f) →
      (m.functions.take m.importedFunctions ++ fs).map v = m.functions.map v := by
    intro α v hv
    rw [map_append, map_eq_of_forall₂ (fun f g hfg => hv f g hfg.1) hfs, ← map_append,
      definedFunctions, take_append_drop]
  have hdrop : (m.functions.take m.importedFunctions ++ fs).drop m.importedFunctions = fs :=
    drop_left' hlen
  have hbuilt : Built source limit seen
      { m with functions := m.functions.take m.importedFunctions ++ fs, exports := m.exports } := by
    apply h.refunction _ h.exports h.exportNames
    · rw [hmap Function.exported (fun f g hfg => by rw [hfg])]
      exact h.exportFlags
    · rw [take_left' hlen]
      exact h.plain
    · exact fun hb => absurd hb hno
    · exact hmap Function.head (fun f g hfg => by rw [hfg]; rfl)
  refine hbuilt.see fun _ => ⟨hs, ?_⟩
  intro f hf
  rw [definedFunctions, hdrop] at hf
  exact forall_of_forall₂_right (fun _ _ hfg => hfg.2) hfs f hf

theorem map_rename {α : Type} {v : Function → α} (hv : ∀ (f : Function) n, v { f with name := n } = v f)
    (fs : List Function) (names : List String) : (rename fs names).map v = fs.map v := by
  induction fs generalizing names with
  | nil => simp [rename]
  | cons f fs ih =>
    cases names with
    | nil => simp [rename]
    | cons n names =>
      have := ih names
      simp only [rename] at this
      simp [rename, hv, this]

theorem named (h : Built source limit seen m) (names : List String) :
    Built source limit seen (m.nameFunctions names) := by
  have hlen : (m.functions.take m.importedFunctions).length = m.importedFunctions := by
    rw [length_take, Nat.min_eq_left h.functionCount]
  have hmap : ∀ {α : Type} (v : Function → α), (∀ (f : Function) n, v { f with name := n } = v f) →
      (m.functions.take m.importedFunctions ++ rename m.definedFunctions names).map v =
        m.functions.map v := by
    intro α v hv
    rw [map_append, map_rename hv, ← map_append, definedFunctions, take_append_drop]
  rw [nameFunctions_eq]
  apply h.refunction _ h.exports h.exportNames
  · rw [hmap Function.exported fun _ _ => rfl]
    exact h.exportFlags
  · rw [take_left' hlen]
    exact h.plain
  · intro hb
    refine ⟨(h.bodies hb).1, ?_⟩
    rw [drop_left' hlen]
    apply forall_mem_of_map_eq _ _ (h.bodies hb).2
    · exact fun f => { f with name := "" }
    · intro f g hfg hf
      have hd : Function.Defined source { f with name := "" } := ⟨hf.body, hf.locals, hf.few⟩
      rw [hfg] at hd
      exact ⟨hd.body, hd.locals, hd.few⟩
    · exact map_rename (fun _ _ => rfl) _ _
  · exact hmap Function.head fun _ _ => rfl

end Built

end Module

end ProtoWasm
