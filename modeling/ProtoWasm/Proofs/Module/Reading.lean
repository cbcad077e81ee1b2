import ProtoWasm.Module.Decode
import ProtoWasm.Proofs.Binary.Reading

/-! # What the sections of a module tell

Each reader of a section, when it succeeds, has passed its own checks. The lemmas here say what those
checks are and how the module has changed, so that nothing later has to open a reader.
-/
namespace ProtoWasm

open List

/-- An initializer has a value of the type, where the imported globals have types of their own. -/
inductive ConstExpr.Initializes (imported : List GlobalType) : ConstExpr → ValType → Prop
  | i32 {data : List UInt8} {v : Int} : Leb128.decodeSigned .w32 data = .ok (v, data.length) →
      Initializes imported ⟨.i32Const, data⟩ .i32
  | i64 {data : List UInt8} {v : Int} : Leb128.decodeSigned .w64 data = .ok (v, data.length) →
      Initializes imported ⟨.i64Const, data⟩ .i64
  | f32 {data : List UInt8} : data.length = 4 → Initializes imported ⟨.f32Const, data⟩ .f32
  | f64 {data : List UInt8} : data.length = 8 → Initializes imported ⟨.f64Const, data⟩ .f64
  | getGlobal {data : List UInt8} {i : Nat} {g : GlobalType} :
      Leb128.decodeUnsigned .w32 data = .ok (i, data.length) → imported[i]? = some g →
      Initializes imported ⟨.getGlobal, data⟩ g.valType

def TableType.Within (limit : Nat) (t : TableType) : Prop := t.min ≤ t.max ∧ t.max ≤ limit

def MemoryType.Within (limit : Nat) (t : MemoryType) : Prop := t.min ≤ t.max ∧ t.max ≤ limit

/-- What an import may ask for, where the module has these signatures. -/
def ImportDesc.Declared (limit : Nat) (signatures : List FuncType) : ImportDesc → Prop
  | .func t => t < signatures.length
  | .table t => t.Within Module.maxTableSize ∧ t.imported = true
  | .memory t => t.Within limit ∧ t.max < 2 ^ 32 ∧ t = ⟨t.min, t.max, false, true⟩
  | .global t => t.valType.isValue = true
  | .unknown _ => False

def FuncType.Declared (t : FuncType) : Prop := t.isValue = true ∧ t.results.length ≤ 1

/-- The body is a part of the source. An offset is the word of a position there. -/
def Function.CutFrom (source : List UInt8) (f : Function) : Prop :=
  ∃ before after, source = before ++ f.body ++ after ∧
    f.bodyOffset = Function.offsetWord before.length

/-- A function with a body from the source. Where it has locals, they are few enough. -/
structure Function.Defined (source : List UInt8) (f : Function) : Prop where
  body : f.CutFrom source
  locals : ∀ t ∈ f.locals, t.isValue = true
  few : f.locals ≠ [] → f.type.params.length + f.locals.length ≤ Module.maxLocals

/-- The functions differ only in what the body of a function declares. -/
def Function.SameOutline (f g : Function) : Prop :=
  g = { f with locals := g.locals, body := g.body, bodyOffset := g.bodyOffset }

namespace Module

open Reader

variable {m m' : Module} {i j : Input} {limit k : Nat} {source : List UInt8} {t : ValType}

theorem readValType_ok {what : String} (h : readValType what i = .ok (t, j)) :
    t.isValue = true ∧ j.remaining + 1 ≤ i.remaining := by
  simp only [readValType, bind_eq_ok, offset_eq_ok, refuse_eq_ok, pure_eq_ok] at h
  obtain ⟨_, _, ⟨-, rfl⟩, b, _, hb, _, _, ⟨hv, rfl⟩, rfl, rfl⟩ := h
  exact ⟨by simpa using hv, Nat.le_of_eq (remaining_byte hb).symm⟩

theorem readSignatureIndex_ok {t : Nat × FuncType} (h : readSignatureIndex m i = .ok (t, j)) :
    m.signatures[t.1]? = some t.2 := by
  simp only [readSignatureIndex, bind_eq_ok, offset_eq_ok] at h
  obtain ⟨_, _, _, n, _, _, h⟩ := h
  cases ht : m.signatures[n]? with
  | none =>
    rw [ht] at h
    exact (failAt_eq_ok.mp h).elim
  | some τ =>
    rw [ht] at h
    obtain ⟨rfl, _⟩ := pure_eq_ok.mp h
    exact ht

theorem readSignature_ok {t : FuncType} (h : readSignature k i = .ok (t, j)) : t.Declared := by
  simp only [readSignature, bind_eq_ok, offset_eq_ok, refuse_eq_ok, pure_eq_ok] at h
  obtain ⟨_, _, _, n, _, _, r, _, _, _, _, ⟨hr, _⟩, ps, _, hps, rs, _, hrs, rfl, _⟩ := h
  have hv := forall_of_times (fun _ _ _ _ h => (readValType_ok h).1) hps
  have hw := forall_of_times (fun _ _ _ _ h => (readValType_ok h).1) hrs
  constructor
  · simpa [FuncType.isValue] using ⟨hv, hw⟩
  · rw [length_of_times hrs]
    omega

theorem readSignatures_ok (h : readSignatures m i = .ok (m', j)) :
    ∃ ts, m' = { m with signatures := ts } ∧ ∀ t ∈ ts, t.Declared := by
  simp only [readSignatures, bind_eq_ok, pure_eq_ok] at h
  obtain ⟨_, _, _, ts, _, hts, rfl, _⟩ := h
  exact ⟨ts, rfl, forall_of_times (fun _ _ _ _ => readSignature_ok) hts⟩

theorem readTableType_ok {t : TableType} (h : readTableType i = .ok (t, j)) :
    t.Within maxTableSize ∧ t.imported = false := by
  simp only [readTableType, bind_eq_ok, offset_eq_ok, refuse_eq_ok, pure_eq_ok] at h
  obtain ⟨_, _, _, lo, _, _, hi, _, _, _, _, ⟨ho, _⟩, _, _, ⟨hl, _⟩, rfl, _⟩ := h
  exact ⟨⟨Nat.le_of_not_lt ho, Nat.le_of_not_lt hl⟩, rfl⟩

theorem readMemoryType_ok {t : MemoryType} (h : readMemoryType limit i = .ok (t, j)) :
    t.Within limit ∧ t.max < 2 ^ 32 ∧ t = ⟨t.min, t.max, false, false⟩ := by
  simp only [readMemoryType, bind_eq_ok, offset_eq_ok, refuse_eq_ok, pure_eq_ok] at h
  obtain ⟨_, _, _, lo, _, _, hi, _, hu, _, _, ⟨hl, _⟩, _, _, ⟨ho, _⟩, rfl, _⟩ := h
  exact ⟨⟨Nat.le_of_not_lt ho, Nat.le_of_not_lt hl⟩, u32_lt hu, rfl⟩

theorem readGlobalType_ok {t : GlobalType} (h : readGlobalType i = .ok (t, j)) :
    t.valType.isValue = true ∧ j.remaining + 2 ≤ i.remaining := by
  simp only [readGlobalType, bind_eq_ok, offset_eq_ok, refuse_eq_ok, pure_eq_ok] at h
  obtain ⟨t, _, ht, _, _, ⟨-, rfl⟩, _, _, hb, _, _, ⟨-, rfl⟩, rfl, rfl⟩ := h
  obtain ⟨hvalue, hless⟩ := readValType_ok ht
  rw [remaining_byte hb] at hless
  exact ⟨hvalue, hless⟩

def importedGlobalTypes (m : Module) : List GlobalType :=
  (m.globals.take m.importedGlobals).map Global.type

theorem importedGlobalTypes_getElem? {n : Nat} {g : Global}
    (h : (if n < m.importedGlobals then m.globals[n]? else none) = some g) :
    m.importedGlobalTypes[n]? = some g.type := by
  split at h
  · rename_i hn
    rw [importedGlobalTypes, getElem?_map, getElem?_take_of_lt hn, h]
    rfl
  · cases h

theorem advances_readInitializerOperand (m : Module) (o : Int) (op : Opcode) :
    Advances (readInitializerOperand m o op) := by
  unfold readInitializerOperand
  split
  · exact (advances_signed _ _).bind fun _ => advances_pure _
  · exact (advances_signed _ _).bind fun _ => advances_pure _
  · exact (advances_word _ _).bind fun _ => advances_pure _
  · exact (advances_word _ _).bind fun _ => advances_pure _
  · refine advances_offset.bind fun _ => (advances_unsigned _ _).bind fun n => ?_
    split
    · exact advances_pure _
    · exact advances_failAt _ _
  · exact advances_failAt _ _

theorem consumed_ok {α : Type} {r : Reader α} {x : α × List UInt8} (hr : Advances r)
    (h : consumed r i = .ok (x, j)) :
    r i = .ok (x.1, j) ∧ i.bytes = x.2 ++ j.bytes ∧ j.offset = i.offset + x.2.length := by
  unfold consumed at h
  split at h
  · rename_i a k hk
    cases h
    obtain ⟨used, hb, ho⟩ := hr _ _ _ hk
    have hu : i.bytes.take (i.remaining - j.remaining) = used := by
      simp [Input.remaining, hb]
    rw [hu]
    exact ⟨hk, hb, ho⟩
  · cases h

theorem readInitializerOperand_ok {o : Int} {op : Opcode} {data : List UInt8}
    (h : readInitializerOperand m o op i = .ok (t, j)) (hd : i.bytes = data ++ j.bytes) :
    ConstExpr.Initializes m.importedGlobalTypes ⟨op, data⟩ t := by
  unfold readInitializerOperand at h
  split at h
  · obtain ⟨v, i₁, hv, h⟩ := bind_eq_ok.mp h
    obtain ⟨rfl, rfl⟩ := pure_eq_ok.mp h
    exact .i32 (signed_own hv hd)
  · obtain ⟨v, i₁, hv, h⟩ := bind_eq_ok.mp h
    obtain ⟨rfl, rfl⟩ := pure_eq_ok.mp h
    exact .i64 (signed_own hv hd)
  · obtain ⟨v, i₁, hv, h⟩ := bind_eq_ok.mp h
    obtain ⟨rfl, rfl⟩ := pure_eq_ok.mp h
    exact .f32 (word_own hv hd)
  · obtain ⟨v, i₁, hv, h⟩ := bind_eq_ok.mp h
    obtain ⟨rfl, rfl⟩ := pure_eq_ok.mp h
    exact .f64 (word_own hv hd)
  · obtain ⟨o, i₁, ho, h⟩ := bind_eq_ok.mp h
    obtain ⟨-, rfl⟩ := offset_eq_ok.mp ho
    obtain ⟨n, i₂, hn, h⟩ := bind_eq_ok.mp h
    cases hg : (if n < m.importedGlobals then m.globals[n]? else none) with
    | none =>
      rw [hg] at h
      exact (failAt_eq_ok.mp h).elim
    | some g =>
      rw [hg] at h
      obtain ⟨rfl, rfl⟩ := pure_eq_ok.mp h
      exact .getGlobal (unsigned_own hn hd) (importedGlobalTypes_getElem? hg)
  · exact (failAt_eq_ok.mp h).elim

theorem readConstExpr_ok {want : ValType} {e : ConstExpr} (h : readConstExpr m want i = .ok (e, j)) :
    e.Initializes m.importedGlobalTypes want ∧ j.remaining + 2 ≤ i.remaining := by
  simp only [readConstExpr, bind_eq_ok, offset_eq_ok, refuse_eq_ok, pure_eq_ok] at h
  obtain ⟨_, _, ⟨-, rfl⟩, code, _, hc, x, _, hx, _, _, ⟨-, rfl⟩, hend⟩ := h
  obtain ⟨_, _, hb, _, _, ⟨-, rfl⟩, _, _, ⟨ht, rfl⟩, rfl, rfl⟩ := hend
  obtain ⟨hr, hd, -⟩ := consumed_ok (advances_readInitializerOperand m _ _) hx
  have hi := readInitializerOperand_ok hr hd
  have hshrinks := (advances_readInitializerOperand m _ _).shrinks _ _ _ hr
  rw [Decidable.not_not.mp ht] at hi
  rw [remaining_byte hb] at hshrinks
  rw [remaining_byte hc]
  exact ⟨hi, Nat.succ_le_succ hshrinks⟩

def importedFunction (m : Module) (t : Nat) : Function :=
  { typeIndex := t, type := m.signatures[t]?.getD {}, imported := true, importIndex := m.imports.length }

def link (m : Module) (module name : String) : ImportDesc → Module
  | .func t => { m with
      imports := m.imports ++ [⟨module, name, .func t, m.importedFunctions⟩]
      functions := m.functions ++ [m.importedFunction t]
      importedFunctions := m.importedFunctions + 1 }
  | .table t => { m with
      imports := m.imports ++ [⟨module, name, .table t, 0⟩]
      tables := m.tables ++ [t]
      importedTables := m.importedTables + 1 }
  | .memory t => { m with
      imports := m.imports ++ [⟨module, name, .memory t, 0⟩]
      memory := some t }
  | .global t => { m with
      imports := m.imports ++ [⟨module, name, .global t, m.importedGlobals⟩]
      globals := m.globals ++ [{ type := t, imported := true }]
      importedGlobals := m.importedGlobals + 1 }
  | .unknown _ => m

/-- There is no second table and no second memory. -/
def Admits (m : Module) : ImportDesc → Prop
  | .table _ => m.tables = []
  | .memory _ => m.memory = none
  | _ => True

theorem readImport_ok (h : readImport limit m k i = .ok (m', j)) :
    ∃ module name d, d.Declared limit m.signatures ∧ m.Admits d ∧ m' = m.link module name d := by
  simp only [readImport, bind_eq_ok, offset_eq_ok] at h
  obtain ⟨module, _, _, name, _, _, _, _, _, kind, _, _, h⟩ := h
  refine ⟨module, name, ?_⟩
  cases hk : ExternKind.ofByte kind with
  | func =>
    simp only [hk, bind_eq_ok, pure_eq_ok] at h
    obtain ⟨t, _, ht, rfl, _⟩ := h
    have hs := readSignatureIndex_ok ht
    refine ⟨.func t.1, (List.getElem?_eq_some_iff.mp hs).1, trivial, ?_⟩
    simp [link, importedFunction, hs]
  | table =>
    simp only [hk, bind_eq_ok, refuse_eq_ok, pure_eq_ok] at h
    obtain ⟨_, _, ⟨hn, _⟩, t, _, ht, rfl, _⟩ := h
    refine ⟨.table { t with imported := true }, ⟨(readTableType_ok ht).1, rfl⟩, ?_, rfl⟩
    simpa [Admits] using hn
  | memory =>
    simp only [hk, bind_eq_ok, refuse_eq_ok, pure_eq_ok] at h
    obtain ⟨_, _, ⟨hn, _⟩, t, _, ht, rfl, _⟩ := h
    obtain ⟨hw, hu, he⟩ := readMemoryType_ok ht
    refine ⟨.memory { t with imported := true }, ⟨hw, hu, ?_⟩, ?_, rfl⟩
    · rw [he]
    · simpa [Admits] using hn
  | global =>
    simp only [hk, bind_eq_ok, pure_eq_ok] at h
    obtain ⟨t, _, ht, rfl, _⟩ := h
    exact ⟨.global t, (readGlobalType_ok ht).1, trivial, rfl⟩
  | unknown b =>
    simp only [hk, failAt_eq_ok] at h

theorem readFunctions_ok (h : readFunctions m i = .ok (m', j)) :
    ∃ fs : List Function, m' = { m with functions := m.functions ++ fs } ∧
      ∀ f ∈ fs, m.signatures[f.typeIndex]? = some f.type ∧ f = { typeIndex := f.typeIndex, type := f.type } := by
  simp only [readFunctions, bind_eq_ok, pure_eq_ok] at h
  obtain ⟨_, _, _, fs, _, hfs, rfl, _⟩ := h
  refine ⟨fs, rfl, forall_of_times ?_ hfs⟩
  intro k i f j hf
  simp only [bind_eq_ok, pure_eq_ok] at hf
  obtain ⟨t, _, ht, rfl, _⟩ := hf
  exact ⟨readSignatureIndex_ok ht, rfl⟩

theorem readTable_ok (h : readTable m i = .ok (m', j)) :
    ∃ ts, m' = { m with tables := m.tables ++ ts } ∧ (m.tables ++ ts).length ≤ 1 ∧
      ∀ t ∈ ts, t.Within maxTableSize ∧ t.imported = false := by
  simp only [readTable, bind_eq_ok, offset_eq_ok, refuse_eq_ok, pure_eq_ok] at h
  obtain ⟨_, _, _, n, _, _, _, _, ⟨hn, _⟩, ts, _, hts, rfl, _⟩ := h
  refine ⟨ts, rfl, ?_, forall_of_times (fun _ _ _ _ => readTableType_ok) hts⟩
  rw [length_append, length_of_times hts]
  omega

theorem readMemory_ok (h : readMemory limit m i = .ok (m', j)) :
    m.memory = none ∧ ∃ t, m' = { m with memory := some t } ∧ t.Within limit ∧ t.max < 2 ^ 32 ∧
      t.imported = false := by
  simp only [readMemory, bind_eq_ok, offset_eq_ok, refuse_eq_ok, pure_eq_ok] at h
  obtain ⟨_, _, _, _, _, ⟨hn, _⟩, t, _, ht, flag, _, _, _, _, _, rfl, _⟩ := h
  obtain ⟨hw, hu, he⟩ := readMemoryType_ok ht
  refine ⟨by simpa using hn, _, rfl, hw, hu, ?_⟩
  rw [he]

def Defines (m : Module) (g : Global) : Prop :=
  g.type.valType.isValue = true ∧ g.imported = false ∧
    ∃ e, g.init = some e ∧ e.Initializes m.importedGlobalTypes g.type.valType

theorem advances_readCount (what : String) : Advances (readCount what) :=
  advances_offset.bind fun _ => (advances_unsigned _ _).bind fun _ => advances_remaining.bind fun _ =>
    (advances_refuse _ _ _).bind fun _ => advances_pure _

theorem readGlobals_ok (h : readGlobals m i = .ok (m', j)) : ∃ gs, m' = { m with
        globals := (layoutGlobals 0 (m.globals ++ gs)).1
        globalsSize := (layoutGlobals 0 (m.globals ++ gs)).2 } ∧
      (∀ g ∈ gs, m.Defines g ∧ g.offset = 0) ∧ 4 * gs.length ≤ i.remaining := by
  simp only [readGlobals, bind_eq_ok, pure_eq_ok] at h
  obtain ⟨_, i₁, hn, gs, _, hgs, rfl, _⟩ := h
  have hless := (advances_readCount _).shrinks _ _ _ hn
  refine ⟨gs, rfl, forall_of_times ?_ hgs, ?_⟩
  · intro k i g j hg
    simp only [bind_eq_ok, pure_eq_ok] at hg
    obtain ⟨t, _, ht, e, _, he, rfl, _⟩ := hg
    exact ⟨⟨(readGlobalType_ok ht).1, rfl, e, rfl, (readConstExpr_ok he).1⟩, rfl⟩
  · refine Nat.le_trans (Nat.le_of_add_left_le (remaining_of_times (fun k i g j hg => ?_) hgs)) hless
    simp only [bind_eq_ok, pure_eq_ok] at hg
    obtain ⟨t, _, ht, e, _, he, -, rfl⟩ := hg
    have htype := (readGlobalType_ok ht).2
    have hexpr := (readConstExpr_ok he).2
    omega

def expose (m : Module) (e : Export) : Module :=
  { (if e.kind = .func then m.markExported e.index else m) with exports := m.exports ++ [e] }

theorem readExport_ok (h : readExport m k i = .ok (m', j)) :
    ∃ e : Export, m' = m.expose e ∧ e.name ∉ m.exports.map Export.name ∧
      ∃ n, m.spaceSize e.kind = some n ∧ e.index < n := by
  simp only [readExport, bind_eq_ok, offset_eq_ok, refuse_eq_ok] at h
  obtain ⟨_, _, _, code, _, _, index, _, _, name, _, _, _, _, ⟨hn, _⟩, h⟩ := h
  cases hs : m.spaceSize (ExternKind.ofByte code) with
  | none =>
    rw [hs] at h
    exact (failAt_eq_ok.mp h).elim
  | some size =>
    simp only [hs, bind_eq_ok, refuse_eq_ok, pure_eq_ok] at h
    obtain ⟨_, _, ⟨hi, _⟩, rfl, _⟩ := h
    refine ⟨⟨ExternKind.ofByte code, name, index⟩, ?_, ?_, size, hs, Nat.lt_of_not_le hi⟩
    · unfold expose
      split <;> rfl
    · simpa using hn

theorem readStart_ok (h : readStart m i = .ok (m', j)) :
    ∃ n, m' = { m with start := some n } ∧ m.functionType? n = some {} := by
  simp only [readStart, bind_eq_ok, offset_eq_ok] at h
  obtain ⟨_, _, _, n, _, _, h⟩ := h
  cases ht : m.functionType? n with
  | none =>
    rw [ht] at h
    exact (failAt_eq_ok.mp h).elim
  | some t =>
    simp only [ht, bind_eq_ok, refuse_eq_ok, pure_eq_ok] at h
    obtain ⟨_, _, ⟨he, _⟩, rfl, _⟩ := h
    refine ⟨n, rfl, ?_⟩
    rw [ht]
    obtain ⟨ps, rs⟩ := t
    simp only [Bool.or_eq_true, Bool.not_eq_true', not_or, Bool.not_eq_false,
      List.isEmpty_iff] at he
    rw [he.1, he.2]

def Placed (m : Module) (e : ElementSegment) : Prop :=
  e.table < m.tables.length ∧ (∀ f ∈ e.init, f < m.functions.length) ∧
    ∃ x, e.offset = some x ∧ x.Initializes m.importedGlobalTypes .i32

theorem readElement_ok {e : ElementSegment} (h : readElement m k i = .ok (e, j)) : m.Placed e := by
  simp only [readElement, bind_eq_ok, offset_eq_ok, refuse_eq_ok, pure_eq_ok] at h
  obtain ⟨_, _, _, table, _, _, _, _, ⟨ht, _⟩, x, _, hx, n, _, _, fs, _, hfs, rfl, _⟩ := h
  refine ⟨Nat.lt_of_not_le ht, forall_of_times ?_ hfs, x, rfl, (readConstExpr_ok hx).1⟩
  intro k i f j hf
  simp only [bind_eq_ok, offset_eq_ok, refuse_eq_ok, pure_eq_ok] at hf
  obtain ⟨_, _, _, f, _, _, _, _, ⟨hl, _⟩, rfl, _⟩ := hf
  exact Nat.lt_of_not_le hl

theorem readElements_ok (h : readElements m i = .ok (m', j)) :
    ∃ es, m' = { m with elements := es } ∧ ∀ e ∈ es, m.Placed e := by
  simp only [readElements, bind_eq_ok, pure_eq_ok] at h
  obtain ⟨_, _, _, es, _, hes, rfl, _⟩ := h
  exact ⟨es, rfl, forall_of_times (fun _ _ _ _ => readElement_ok) hes⟩

theorem readData_ok (h : readData m i = .ok (m', j)) :
    m.memory.isSome = true ∧ ∃ ds, m' = { m with data := ds } ∧
      ∀ d ∈ ds, ∃ x, d.offset = some x ∧ x.Initializes m.importedGlobalTypes .i32 := by
  simp only [readData, bind_eq_ok, offset_eq_ok, refuse_eq_ok, pure_eq_ok] at h
  obtain ⟨_, _, _, _, _, ⟨hm, _⟩, _, _, _, ds, _, hds, rfl, _⟩ := h
  refine ⟨by simpa [Option.isSome_iff_ne_none] using hm, ds, rfl, forall_of_times ?_ hds⟩
  intro k i d j hd
  simp only [readDataSegment, bind_eq_ok, offset_eq_ok, pure_eq_ok] at hd
  obtain ⟨x, _, hx, _, _, _, _, _, _, _, _, _, rfl, _⟩ := hd
  exact ⟨x, rfl, (readConstExpr_ok hx).1⟩

theorem readLocals_ok {total : Nat} {ts : List ValType} (h : readLocals total k i = .ok (ts, j)) :
    (∀ t ∈ ts, t.isValue = true) ∧ (ts ≠ [] → total + ts.length ≤ maxLocals) := by
  induction k generalizing total ts i j with
  | zero =>
    obtain ⟨rfl, -⟩ := pure_eq_ok.mp h
    simp
  | succ k ih =>
    simp only [readLocals, bind_eq_ok, offset_eq_ok, refuse_eq_ok, pure_eq_ok] at h
    obtain ⟨_, _, _, n, _, _, t, _, ht, _, _, ⟨hn, _⟩, ls, _, hls, rfl, _⟩ := h
    obtain ⟨hv, hl⟩ := ih hls
    constructor
    · intro τ hτ
      rcases mem_append.mp hτ with hτ | hτ
      · rw [(mem_replicate.mp hτ).2]
        exact (readValType_ok ht).1
      · exact hv τ hτ
    · intro _
      rw [length_append, length_replicate]
      by_cases hnil : ls = []
      · rw [hnil, length_nil]
        omega
      · have := hl hnil
        omega

theorem advances_readValType (what : String) : Advances (readValType what) :=
  advances_offset.bind fun _ => (advances_byte _).bind fun _ => (advances_refuse _ _ _).bind fun _ =>
    advances_pure _

theorem advances_readLocals (total k : Nat) : Advances (readLocals total k) := by
  induction k generalizing total with
  | zero => exact advances_pure _
  | succ k ih =>
    exact advances_offset.bind fun _ => (advances_unsigned _ _).bind fun _ =>
      (advances_readValType _).bind fun _ => (advances_refuse _ _ _).bind fun _ =>
        (ih _).bind fun _ => advances_pure _

theorem readBody_ok {x : List ValType × Input} (h : readBody k i = .ok (x, j)) (hi : i.CutFrom source) :
    x.2.CutFrom source ∧ (∀ t ∈ x.1, t.isValue = true) ∧
      (x.1 ≠ [] → k + x.1.length ≤ maxLocals) := by
  obtain ⟨n, i₁, hn, h⟩ := bind_eq_ok.mp h
  obtain ⟨ls, i₂, hls, h⟩ := bind_eq_ok.mp h
  cases h
  have hc := (advances_readLocals _ _).cut hls ((advances_readCount _).cut hn hi)
  exact ⟨hc, readLocals_ok hls⟩

theorem readDefinition_ok {f g : Function} (h : readDefinition f i = .ok (g, j)) (hi : i.CutFrom source) :
    j.CutFrom source ∧ f.SameOutline g ∧ g.Defined source := by
  obtain ⟨n, i₁, hn, h⟩ := bind_eq_ok.mp h
  obtain ⟨w, i₂, hw, h⟩ := bind_eq_ok.mp h
  obtain ⟨x, i₃, hx, h⟩ := bind_eq_ok.mp h
  obtain ⟨rfl, rfl⟩ := pure_eq_ok.mp h
  have hi₁ := (advances_unsigned _ _).cut hn hi
  have hi₂ := (advances_window _ _).cut hw hi₁
  unfold inside at hx
  split at hx
  · rename_i a ha
    cases hx
    obtain ⟨⟨before, after, hs, ho⟩, hv, hl⟩ := readBody_ok ha (cut_window hw hi₁)
    refine ⟨hi₂, rfl, ⟨before, after, hs, ?_⟩, hv, hl⟩
    rw [ho, Int.toNat_natCast]
  · cases hx

theorem readBodies_ok (h : readBodies m i = .ok (m', j)) (hi : i.CutFrom source) :
    ∃ fs, m' = { m with functions := m.functions.take m.importedFunctions ++ fs } ∧
      List.Forall₂ (fun f g => f.SameOutline g ∧ g.Defined source) m.definedFunctions fs := by
  obtain ⟨_, i₁, ho, h⟩ := bind_eq_ok.mp h
  obtain ⟨-, rfl⟩ := offset_eq_ok.mp ho
  obtain ⟨n, i₂, hn, h⟩ := bind_eq_ok.mp h
  obtain ⟨_, i₃, hr, h⟩ := bind_eq_ok.mp h
  obtain ⟨-, rfl⟩ := refuse_eq_ok.mp hr
  obtain ⟨fs, i₄, hfs, h⟩ := bind_eq_ok.mp h
  obtain ⟨rfl, -⟩ := pure_eq_ok.mp h
  refine ⟨fs, rfl, ?_⟩
  have hkeep : ∀ f i g j, Input.CutFrom source i → readDefinition f i = .ok (g, j) → j.CutFrom source :=
    fun f i g j hi hg => (readDefinition_ok hg hi).1
  apply (forall₂_of_mapM hkeep hfs ((advances_readCount _).cut hn hi)).imp
  rintro f g ⟨i, j, hi, hg⟩
  exact (readDefinition_ok hg hi).2

theorem readNames_ok (h : readNames m i = .ok (m', j)) :
    ∃ names : List String, names.length ≤ m.definedCount ∧ m' = m.nameFunctions names := by
  simp only [readNames, bind_eq_ok, offset_eq_ok, refuse_eq_ok, pure_eq_ok] at h
  obtain ⟨n, _, _, _, _, _, _, _, ⟨hn, _⟩, names, _, hnames, rfl, _⟩ := h
  exact ⟨names, by rw [length_of_times hnames]; omega, rfl⟩

end Module

end ProtoWasm
