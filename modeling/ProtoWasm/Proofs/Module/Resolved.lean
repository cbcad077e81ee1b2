import ProtoWasm.Module.Encode
import ProtoWasm.Module.Validate
import ProtoWasm.Proofs.Binary.Acceptance
import ProtoWasm.Proofs.Module.Built

/-! # References of a decoded module

Sections may come in many orders, and a reference is checked against what was read before it. In a
module that is decoded all the references hold nevertheless: every index is in range, and what it refers
to is of the type that is asked for.
-/
namespace ProtoWasm

open List

theorem Section.checkOrder_eq_none {s : Section} {seen : List Section} : s.checkOrder seen = none ↔
      s ∉ seen ∧ (∀ t ∈ s.requires, t ∈ seen) ∧ ∀ t ∈ s.precedes, t ∉ seen := by
  unfold checkOrder
  by_cases hs : s ∈ seen
  · simp [hs]
  · rw [if_neg hs]
    cases hr : s.requires.find? (· ∉ seen) with
    | some t =>
      have ht := find?_some hr
      have hmem := mem_of_find?_eq_some hr
      simp only [decide_eq_true_eq] at ht
      simp only [reduceCtorEq, false_iff]
      rintro ⟨-, hall, -⟩
      exact ht (hall t hmem)
    | none =>
      have hall : ∀ t ∈ s.requires, t ∈ seen := by simpa using find?_eq_none.mp hr
      simp only [Option.map_eq_none_iff, find?_eq_none, decide_eq_true_eq]
      exact ⟨fun hp => ⟨hs, hall, hp⟩, fun hp => hp.2.2⟩

theorem Section.not_mem_precedes {seen : List Section} (h : ∀ s ∈ importTable.precedes, s ∉ seen) :
    ∀ s ∈ importTable.precedes, s ∉ seen ++ [importTable] := by
  intro s hs hmem
  rcases mem_append.mp hmem with hmem | hmem
  · exact h s hs hmem
  · rw [mem_singleton.mp hmem] at hs
    revert hs
    decide

theorem Function.CutFrom.slice {source : List UInt8} {f : Function} (h : f.CutFrom source)
    (hs : source.length < 2 ^ 32) : (source.drop f.bodyOffset).take f.body.length = f.body := by
  obtain ⟨before, after, rfl, ho⟩ := h
  have hlt : before.length < 2 ^ 32 := by
    simp only [length_append] at hs
    omega
  rw [ho, offsetWord, Nat.mod_eq_of_lt hlt, append_assoc, drop_left, take_left]

namespace Module

open Reader

variable {source : List UInt8} {limit maxPages k : Nat} {seen : List Section} {m m' : Module} {i : Input} {j : Input}
  {p : Partial} {checks : Option Checks} {n : Nat}

theorem Built.read {s : Section} (h : Built source limit seen m)
    (ho : s.checkOrder seen = none) (hi : i.CutFrom source)
    (hr : readContents limit s m i = .ok (m', j)) : Built source limit (seen ++ [s]) m' := by
  obtain ⟨hnew, hreq, hpre⟩ := Section.checkOrder_eq_none.mp ho
  cases s with
  | signatures =>
    obtain ⟨ts, rfl, hts⟩ := readSignatures_ok hr
    exact h.signaturesRead hnew hts
  | importTable =>
    obtain ⟨n, i₁, -, hr⟩ := bind_eq_ok.mp hr
    have hpre' := Section.not_mem_precedes hpre
    refine foldlM_keeps ?_ hr (h.see nofun)
    intro b k i c j hb hc
    obtain ⟨module, name, d, hd, ha, rfl⟩ := readImport_ok hc
    exact hb.link hd ha hpre' module name
  | functionSignatures =>
    obtain ⟨fs, rfl, hfs⟩ := readFunctions_ok hr
    exact h.functionsRead hnew hfs
  | table =>
    obtain ⟨ts, rfl, hone, hts⟩ := readTable_ok hr
    exact h.tableRead hnew hone hts
  | memory =>
    obtain ⟨hm, t, rfl, hw, hu, ht⟩ := readMemory_ok hr
    exact h.memoryRead hm ⟨hw, hu⟩ ht
  | globals =>
    obtain ⟨gs, rfl, hgs, hfew⟩ := readGlobals_ok hr
    exact h.globalsRead hnew hgs (Nat.le_trans hfew hi.remaining_le)
  | exportTable =>
    obtain ⟨n, i₁, -, hr⟩ := bind_eq_ok.mp hr
    refine foldlM_keeps ?_ hr (h.see nofun)
    intro b k i c j hb hc
    obtain ⟨e, rfl, hname, hin⟩ := readExport_ok hc
    exact hb.exposed hname hin
  | startFunction =>
    obtain ⟨n, rfl, hn⟩ := readStart_ok hr
    exact h.startRead hn
  | elements =>
    obtain ⟨es, rfl, hes⟩ := readElements_ok hr
    exact h.elementsRead hes
  | functionBodies =>
    obtain ⟨fs, rfl, hfs⟩ := readBodies_ok hr hi
    exact h.bodiesRead (hreq _ (by decide)) hnew hfs
  | dataSegments =>
    obtain ⟨hm, ds, rfl, hds⟩ := readData_ok hr
    exact h.dataRead hm hds
  | names =>
    obtain ⟨names, -, rfl⟩ := readNames_ok hr
    exact (h.named names).see nofun
  | finish =>
    obtain ⟨rfl, -⟩ := pure_eq_ok.mp hr
    exact h.see nofun

theorem readSection_cut {x : Int × Input} (h : readSection i = .ok (x, j))
    (hi : i.CutFrom source) : x.2.CutFrom source ∧ j.CutFrom source := by
  obtain ⟨o, i₁, ho, h⟩ := bind_eq_ok.mp h
  obtain ⟨-, rfl⟩ := offset_eq_ok.mp ho
  obtain ⟨n, i₂, hn, h⟩ := bind_eq_ok.mp h
  obtain ⟨w, i₃, hw, h⟩ := bind_eq_ok.mp h
  obtain ⟨rfl, rfl⟩ := pure_eq_ok.mp h
  have hi₂ := (advances_unsigned _ _).cut hn hi
  exact ⟨cut_window hw hi₂, (advances_window _ _).cut hw hi₂⟩

theorem built_decodeSections {p' : Partial} {o : Int}
    (h : decodeSections limit p i = .ok (p', o)) (hi : i.CutFrom source)
    (hp : Built source limit p.seen p.module) : Built source limit p'.seen p'.module := by
  fun_induction decodeSections limit p i with
  | case1 p i _ =>
    cases h
    exact hp
  | case2 | case3 | case6 | case7 | case9 => cases h
  | case4 p i _ start body rest hsec name left hname _ ih =>
    exact ih h (readSection_cut hsec hi).2 hp
  | case5 p i _ start body rest hsec name left hname _ =>
    cases h
    exact hp
  | case8 p i _ start body rest hsec name left hname s _ _ hord m end' hread _ ih =>
    obtain ⟨hbody, hrest⟩ := readSection_cut hsec hi
    have hleft := (advances_name _).cut hname hbody
    exact ih h hrest (hp.read hord hleft hread)

/-- The magic number and the version stand in front. -/
def Headed (source : List UInt8) : Prop :=
  8 ≤ source.length ∧ source.take 4 = magic ∧ LittleEndian.decode ((source.drop 4).take 4) = version

theorem readHeader_eq_ok :
    readHeader ⟨source, 0⟩ = .ok ((), i) ↔ Headed source ∧ i = ⟨source.drop 8, 8⟩ := by
  simp only [readHeader, word, bind_eq_ok, take_eq_ok, refuse_eq_ok, pure_eq_ok, Decidable.not_not,
    Input.remaining, Input.skip]
  constructor
  · rintro ⟨found, _, ⟨hlen, rfl, rfl⟩, _, _, ⟨hmagic, rfl⟩, v, _, ⟨_, _, ⟨hlen', rfl, rfl⟩, rfl, rfl⟩, hversion,
      rfl⟩
    simp only [length_drop] at hlen'
    refine ⟨⟨by omega, hmagic, hversion⟩, ?_⟩
    rw [drop_drop]
    rfl
  · rintro ⟨⟨hlen, hmagic, hversion⟩, rfl⟩
    refine ⟨_, _, ⟨by omega, rfl, rfl⟩, (), _, ⟨hmagic, rfl⟩, _, _, ⟨_, _, ⟨?_, rfl, rfl⟩, rfl, rfl⟩, hversion,
      ?_⟩
    · rw [length_drop]
      omega
    · rw [drop_drop]
      rfl

theorem decode_eq_ok : decode source maxPages = .ok m ↔ Headed source ∧ ∃ p stop,
      decodeSections (effectiveLimit maxPages) {} ⟨source.drop 8, 8⟩ = .ok (p, stop) ∧
        (.functionBodies ∉ p.seen → p.module.definedCount = 0) ∧ p.module = m := by
  unfold decode
  split
  · rename_i e he
    refine iff_of_false nofun ?_
    rintro ⟨hh, -⟩
    rw [readHeader_eq_ok.mpr ⟨hh, rfl⟩] at he
    cases he
  · rename_i u i hh
    obtain ⟨hhead, rfl⟩ := readHeader_eq_ok.mp hh
    cases hrun : decodeSections (effectiveLimit maxPages) {} ⟨source.drop 8, 8⟩ with
    | error e => simp
    | ok x =>
      obtain ⟨p, stop⟩ := x
      by_cases hb : .functionBodies ∈ p.seen
      · simp [hhead, hb]
      · by_cases hcount : p.module.definedCount = 0
        · simp [hhead, hb, hcount]
        · simp [hb, hcount, Ne.symm hcount]

theorem headed_append {head : List UInt8} (h : head.length = 8) (xs : List UInt8) :
    Headed (head ++ xs) ↔ Headed head := by
  unfold Headed
  rw [take_append_of_le_length (by omega), drop_append_of_le_length (by omega),
    take_append_of_le_length (by rw [length_drop]; omega), length_append, h]
  simp

theorem drop_header (xs : List UInt8) : (header ++ xs).drop 8 = xs := drop_left' (by decide)

theorem cut_header (xs : List UInt8) : (⟨xs, 8⟩ : Input).CutFrom (header ++ xs) :=
  ⟨header, [], (append_nil _).symm, rfl⟩

/-- What stands after the header is decoded section by section. -/
theorem decode_header {xs : List UInt8} {o : Int}
    (h : decodeSections (effectiveLimit maxPages) {} ⟨xs, 8⟩ = .ok (p, o))
    (hcount : .functionBodies ∉ p.seen → p.module.definedCount = 0) :
    decode (header ++ xs) maxPages = .ok p.module := by
  have hheaded : Headed (header ++ xs) := (headed_append (by decide) xs).mpr ⟨by decide, by decide, by decide⟩
  refine decode_eq_ok.mpr ⟨hheaded, p, o, ?_, hcount, rfl⟩
  rwa [drop_header]

theorem Headed.cut (h : Headed source) : (⟨source.drop 8, 8⟩ : Input).CutFrom source :=
  ⟨source.take 8, [], by simp, by simp [h.1]⟩

theorem length_definedFunctions (m : Module) : m.definedFunctions.length = m.definedCount := length_drop

/-- A decoded module has been built from some sections. If there are bodies, they have been read. -/
theorem built_decode (h : decode source maxPages = .ok m) :
    ∃ seen, Built source (effectiveLimit maxPages) seen m ∧ ∀ f ∈ m.definedFunctions, f.Defined source := by
  obtain ⟨hh, p, stop, hrun, hcount, rfl⟩ := decode_eq_ok.mp h
  have hb := built_decodeSections hrun hh.cut Built.empty
  refine ⟨p.seen, hb, ?_⟩
  by_cases hseen : .functionBodies ∈ p.seen
  · exact (hb.bodies hseen).2
  · have hnil := hcount hseen
    rw [← length_definedFunctions, length_eq_zero_iff] at hnil
    simp [hnil]

/-- Every reference in the module is to something that is there and is of the right type. -/
structure Resolved (source : List UInt8) (limit : Nat) (m : Module) : Prop where
  functionType : ∀ f ∈ m.functions, m.signatures[f.typeIndex]? = some f.type
  signature : ∀ t ∈ m.signatures, t.Declared
  -- an index space starts with the imports of its kind, in their order and at their places
  functionImports : m.importedFunctions ≤ m.functions.length ∧
    (Import.ofKind .func m.imports).map (fun x => (x.1.indexPerType, x.2, x.1.desc)) =
      (m.functions.take m.importedFunctions).mapIdx fun k f => (k, f.importIndex, .func f.typeIndex)
  tableImports : m.importedTables ≤ m.tables.length ∧
    (Import.ofKind .table m.imports).map (fun x => (x.1.indexPerType, x.1.desc)) =
      (m.tables.take m.importedTables).mapIdx fun k t => (k, .table t)
  globalImports : m.importedGlobals ≤ m.globals.length ∧
    (Import.ofKind .global m.imports).map (fun x => (x.1.indexPerType, x.1.desc)) =
      (m.globals.take m.importedGlobals).mapIdx fun k g => (k, .global g.type)
  importedFunction : ∀ k f, m.functions[k]? = some f → (f.imported = true ↔ k < m.importedFunctions)
  importedTable : ∀ k t, m.tables[k]? = some t → (t.imported = true ↔ k < m.importedTables)
  importedGlobal : ∀ k g, m.globals[k]? = some g → (g.imported = true ↔ k < m.importedGlobals)
  body : ∀ f ∈ m.definedFunctions, f.CutFrom source
  -- indices
  elementTable : ∀ e ∈ m.elements, e.table < m.tables.length
  elementFunction : ∀ e ∈ m.elements, ∀ f ∈ e.init, f < m.functions.length
  exportIndex : ∀ e ∈ m.exports, ∃ n, m.spaceSize e.kind = some n ∧ e.index < n
  start : ∀ n, m.start = some n → m.functionType? n = some ⟨[], []⟩
  exportNames : (m.exports.map Export.name).Nodup
  exported : ∀ k f, m.functions[k]? = some f →
    (f.exported = true ↔ ∃ e ∈ m.exports, e.kind = .func ∧ e.index = k)
  -- initializers
  globalInit : ∀ g ∈ m.globals.drop m.importedGlobals,
    ∃ e, g.init = some e ∧ e.Initializes m.importedGlobalTypes g.type.valType
  elementOffset : ∀ e ∈ m.elements, ∃ x, e.offset = some x ∧ x.Initializes m.importedGlobalTypes .i32
  dataOffset : ∀ d ∈ m.data, ∃ x, d.offset = some x ∧ x.Initializes m.importedGlobalTypes .i32
  -- limits
  table : ∀ t ∈ m.tables, t.Within maxTableSize
  memory : ∀ t, m.memory = some t → t.Within limit
  data : m.data ≠ [] → m.memory.isSome = true

theorem Built.globalFlags (h : Built source limit seen m) {g : Global}
    (hg : m.globals[k]? = some g) : g.imported = true ↔ k < m.importedGlobals := by
  by_cases hk : k < m.importedGlobals
  · have hmem : g ∈ m.globals.take m.importedGlobals := by
      apply mem_of_getElem? (i := k)
      rwa [getElem?_take_of_lt hk]
    have himp : g.imported = true := by rw [(h.importedGlobals g hmem).2]
    exact ⟨fun _ => hk, fun _ => himp⟩
  · have hmem : g ∈ m.globals.drop m.importedGlobals := by
      apply mem_of_getElem? (i := k - m.importedGlobals)
      rw [getElem?_drop, Nat.add_sub_cancel' (Nat.le_of_not_lt hk)]
      exact hg
    have himp := (h.definedGlobals g hmem).2.1
    exact ⟨fun ht => absurd (himp.symm.trans ht) Bool.false_ne_true, fun hl => absurd hl hk⟩

theorem Built.head_getElem? {f : Function} (hf : m.functions[k]? = some f) :
    m.heads[k]? = some f.head := by
  rw [Module.heads, getElem?_map, hf]
  rfl

theorem Built.resolved (h : Built source limit seen m) (hb : ∀ f ∈ m.definedFunctions, f.Defined source) :
    m.Resolved source limit where
  functionType f hf := h.heads f.head (mem_map_of_mem hf)
  signature := h.signatures
  functionImports := by
    refine ⟨h.functionCount, ?_⟩
    rw [h.functionImports, Module.heads, ← map_take]
    apply ext_getElem?
    intro k
    rw [getElem?_mapIdx, getElem?_mapIdx, getElem?_map, Option.map_map]
    rfl
  tableImports := ⟨h.tableCount, h.tableImports⟩
  globalImports := ⟨h.globalCount, h.globalImports⟩
  importedFunction k f hf := h.functionFlags k f.head (head_getElem? hf)
  importedTable := h.tableFlags
  importedGlobal _ _ := h.globalFlags
  body f hf := (hb f hf).body
  elementTable e he := (h.elements e he).1
  elementFunction e he := (h.elements e he).2.1
  exportIndex := h.exports
  start := by
    intro n hn
    have := h.start n hn
    rwa [Module.heads, getElem?_map, Option.map_map] at this
  exportNames := h.exportNames
  exported := by
    intro k f hf
    apply h.exportFlags k
    rw [getElem?_map, hf]
    rfl
  globalInit g hg := (h.definedGlobals g hg).2.2
  elementOffset e he := (h.elements e he).2.2
  dataOffset d hd := (h.data d hd).2
  table := h.tables
  memory t ht := (h.memory t ht).1
  data := by
    intro hne
    obtain ⟨d, hd⟩ := exists_mem_of_ne_nil _ hne
    exact (h.data d hd).1

section

open Leb128 (decodeUnsigned encodeUnsigned)

variable {bytes payload : List UInt8} {name : String} {w rest left : Input} {start : Int}

/-- A section as it stands in a source: its size, the length of its name, its name and the bytes after it.
Numbers may take more bytes than they need. -/
def Framed (bytes : List UInt8) (name : String) (payload : List UInt8) : Prop :=
  ∃ size length text : List UInt8, bytes = size ++ (length ++ text ++ payload) ∧
    decodeUnsigned .w32 size = .ok ((length ++ text ++ payload).length, size.length) ∧
    decodeUnsigned .w32 length = .ok (text.length, length.length) ∧
    String.fromUTF8? ⟨text.toArray⟩ = some name

/-- Bytes that are framed are read as a section of that name. -/
theorem Framed.accepts (h : Framed bytes name payload) :
    ∃ title, Accepts readSection bytes (fun x => x.2.bytes = title ++ payload) ∧
      Accepts (Reader.name "section name") title fun a => a = name := by
  obtain ⟨size, length, text, rfl, hsize, hlength, htext⟩ := h
  refine ⟨length ++ text, ?_, ?_⟩
  · refine .offset fun o => ?_
    apply (accepts_unsigned_own .w32 _ hsize).bind
    rintro _ rfl
    exact (accepts_window _ _).map fun _ hw => hw
  · refine .offset fun o => ?_
    apply (accepts_unsigned_own .w32 _ hlength).bind
    rintro _ rfl
    intro rest o'
    obtain ⟨_, hb, rfl⟩ := accepts_take "section name" text rest o'
    refine ⟨name, bind_eq_ok.mpr ⟨_, _, hb, ?_⟩, rfl⟩
    simp only [htext]
    rfl

theorem framed_encodeSection
    (h : (encodeSection name payload).length < 2 ^ 32) : Framed (encodeSection name payload) name payload := by
  simp only [encodeSection, length_append] at h
  have hnumber : ∀ n < 2 ^ 32, decodeUnsigned .w32 (encodeUnsigned n) = .ok (n, (encodeUnsigned n).length) := by
    intro n hn
    have := Leb128.readUnsigned_encodeUnsigned hn (by decide) []
    rwa [append_nil] at this
  simp only [encodeName, length_append] at h
  refine ⟨encodeUnsigned (encodeName name ++ payload).length,
    encodeUnsigned name.toUTF8.data.toList.length, name.toUTF8.data.toList, rfl, ?_, ?_, ?_⟩
  · apply hnumber
    simp only [encodeName, length_append]
    omega
  · apply hnumber
    omega
  · simp only [String.fromUTF8?, Array.toArray_toList, Option.dite_none_right_eq_some]
    exact ⟨name.isValidUTF8, rfl⟩

theorem decodeSections_eq (hsec : readSection i = .ok ((start, w), rest))
    (hname : Reader.name "section name" w = .ok (name, left)) :
    (Section.ofName? name = none → decodeSections limit p i = decodeSections limit p rest) ∧
      (Section.ofName? name = some .finish → decodeSections limit p i = .ok (p, rest.offset)) ∧
      ∀ s n j, Section.ofName? name = some s → s ≠ .finish → s.checkOrder p.seen = none →
        readContents limit s p.module left = .ok (n, j) → j.remaining = 0 →
        decodeSections limit p i = decodeSections limit ⟨n, p.seen ++ [s]⟩ rest := by
  have hne : ¬ i.remaining = 0 := by
    have := remaining_readSection_lt hsec
    omega
  rw [decodeSections, if_neg hne]
  split
  · rename_i he
    rw [hsec] at he
    cases he
  · rename_i start' w' rest' he
    rw [hsec] at he
    cases he
    refine ⟨?_, ?_, ?_⟩
    · intro hnone
      simp only [hname, hnone]
    · intro hfinish
      simp only [hname, hfinish]
    · intro s n j hs hne ho hr hj
      cases s with
      | finish => exact absurd rfl hne
      | _ => simp only [hname, hs, ho, hr, hj, if_true]

end

theorem report?_eq_none {all : Bool} {errors : List Error} : report? all errors = none ↔ errors = [] := by
  cases all with
  | false => simp [report?]
  | true =>
    match errors with
    | [] | [_] | _ :: _ :: _ => simp [report?, Error.combine?]

theorem decodeUnder_eq_ok : decodeUnder source maxPages checks = .ok m ↔
      decode source maxPages = .ok m ∧ ∀ c ∈ checks, m.errorsUnder c.validate = [] := by
  rw [decodeUnder]
  cases hd : decode source maxPages with
  | error e => simp [bind, Except.bind]
  | ok n =>
    simp only [bind, Except.bind]
    split
    · rename_i e he
      refine iff_of_false nofun ?_
      rintro ⟨h, hvalid⟩
      cases h
      obtain ⟨c, hc, he⟩ := Option.bind_eq_some_iff.mp he
      rw [report?_eq_none.mpr (hvalid c hc)] at he
      cases he
    · rename_i he
      constructor
      · intro h
        cases h
        exact ⟨rfl, fun c hc => report?_eq_none.mp (Option.bind_eq_none_iff.mp he c hc)⟩
      · rintro ⟨h, -⟩
        cases h
        rfl

theorem built_decodeUnder (h : decodeUnder source maxPages checks = .ok m) :
    ∃ seen, Built source (effectiveLimit maxPages) seen m :=
  have ⟨seen, hb, _⟩ := built_decode (decodeUnder_eq_ok.mp h).1
  ⟨seen, hb⟩

/-- In a module that is decoded every reference holds. Below 2^32 bytes the body of a function stands in the source at
its offset; else the offset is that of the body cut to 32 bits. -/
theorem decodeUnder_resolved {maxPages : Nat} {checks : Option Checks}
    (h : decodeUnder source maxPages checks = .ok m) :
    m.Resolved source (effectiveLimit maxPages) ∧ (source.length < 2 ^ 32 →
      ∀ f ∈ m.definedFunctions, (source.drop f.bodyOffset).take f.body.length = f.body) := by
  obtain ⟨seen, hbuilt, hbodies⟩ := built_decode (decodeUnder_eq_ok.mp h).1
  exact ⟨hbuilt.resolved hbodies, fun hsource f hf => (hbodies f hf).body.slice hsource⟩

def Checks.all : Checks := { reportAll := true }

/-- A module whose sections are not in the order in which modules are written. A function and a global
are imported, exports come before the last functions, and a section has an unknown name. -/
def scattered : List UInt8 :=
  header ++
    encodeSection "signatures" ([2] ++ encodeSignature ⟨[], []⟩ ++ encodeSignature ⟨[.i32], [.i32]⟩) ++
    encodeSection "names" [0] ++
    encodeSection "import_table" ([2] ++ encodeImport ⟨"env", "log", .func 1, 0⟩ ++
      encodeImport ⟨"env", "base", .global ⟨.i32, false⟩, 0⟩) ++
    encodeSection "export_table" ([1] ++ encodeExport ⟨.func, "log", 0⟩) ++
    encodeSection "notes" [1, 2, 3] ++
    encodeSection "memory" (encodeMemory ⟨1, 2, true, false⟩) ++
    encodeSection "data_segments" ([1] ++ encodeData ⟨some ⟨.getGlobal, [0]⟩, 0, [7, 8]⟩) ++
    encodeSection "globals" ([1] ++ encodeGlobal { type := ⟨.i32, true⟩, init := some ⟨.getGlobal, [0]⟩ }) ++
    encodeSection "table" ([1] ++ encodeLimits 1 2) ++
    encodeSection "function_signatures" [2, 0, 0] ++
    encodeSection "elements" ([1] ++ encodeElement ⟨0, some ⟨.i32Const, [0]⟩, [2, 0]⟩) ++
    encodeSection "function_bodies" [2, 1, 0, 1, 0] ++
    encodeSection "start_function" [1]

theorem decodeUnder_resolved_scattered :
    ∃ m, decodeUnder scattered 0 (some .all) = .ok m ∧ m.functions.length = 3 ∧
      m.Resolved scattered (effectiveLimit 0) ∧
      ∀ f ∈ m.definedFunctions, (scattered.drop f.bodyOffset).take f.body.length = f.body := by
  have hok : ((decodeUnder scattered 0 (some .all)).toOption.map (·.functions.length)) = some 3 := by
    decide +kernel
  cases hm : decodeUnder scattered 0 (some .all) with
  | error e =>
    rw [hm] at hok
    cases hok
  | ok m =>
    rw [hm] at hok
    obtain ⟨hresolved, hslices⟩ := decodeUnder_resolved hm
    exact ⟨m, rfl, Option.some.inj hok, hresolved, hslices (by decide +kernel)⟩

def lone : List UInt8 :=
  encodeSection "signatures" ([1] ++ encodeSignature ⟨[], []⟩) ++ encodeSection "function_signatures" [1, 0] ++
    encodeSection "function_bodies" [1, 2, 0, 0x15]

/-- The same after a note of so many zeros. -/
def distant (n : Nat) : List UInt8 :=
  header ++ (encodeSection "notes" (replicate n 0) ++ lone)

theorem decodeSections_note {note : List UInt8} (h : (encodeSection "notes" note).length < 2 ^ 32)
    (rest : List UInt8) (o : Int) : decodeSections limit p ⟨encodeSection "notes" note ++ rest, o⟩ =
      decodeSections limit p ⟨rest, o + (encodeSection "notes" note).length⟩ := by
  obtain ⟨title, hsection, htitle⟩ := (framed_encodeSection h).accepts
  obtain ⟨⟨start, ⟨bytes, o'⟩⟩, hsec, hw⟩ := hsection rest o
  obtain ⟨_, hread, rfl⟩ := htitle note o'
  cases hw
  exact (decodeSections_eq hsec hread).1 rfl

theorem length_note (hn : n = 2 ^ 32 - 12) :
    (encodeName "notes" ++ replicate n (0 : UInt8)).length = 2 ^ 32 - 6 ∧
      (encodeSection "notes" (replicate n 0)).length = 2 ^ 32 - 1 := by
  have hsize : (encodeName "notes" ++ replicate n (0 : UInt8)).length = 2 ^ 32 - 6 := by
    rw [length_append, length_replicate, hn]
    decide +kernel
  refine ⟨hsize, ?_⟩
  rw [encodeSection, length_append, hsize]
  decide +kernel

theorem getElem?_distant (hn : n = 2 ^ 32 - 12) : (distant n)[65]? = some 0 := by
  have hfront : distant n = (header ++
      (Leb128.encodeUnsigned (2 ^ 32 - 6) ++ encodeName "notes")) ++ (replicate n 0 ++ lone) := by
    rw [distant, encodeSection, (length_note hn).1]
    simp only [append_assoc]
  have hlength : (header ++
      (Leb128.encodeUnsigned (2 ^ 32 - 6) ++ encodeName "notes")).length = 19 := by decide +kernel
  rw [hfront, getElem?_append_right (by omega), hlength, getElem?_append_left, getElem?_replicate_of_lt]
  · omega
  · rw [length_replicate]
    omega

theorem decode_distant (hn : n = 2 ^ 32 - 12) : ∃ m f, decodeUnder (distant n) 0 (some .all) = .ok m ∧
    m.definedFunctions = [f] ∧ f.body = [0x15] ∧ f.bodyOffset = 65 := by
  have hlone : (decodeSections (effectiveLimit 0) {} ⟨lone, 2 ^ 32 + 7⟩).toOption.map (fun x =>
      (decide (.functionBodies ∈ x.1.seen), x.1.module.functionErrors.isEmpty,
        x.1.module.definedFunctions.map fun f => (f.body, f.bodyOffset))) = some (true, true, [([0x15], 65)]) := by
    decide +kernel
  cases hp : decodeSections (effectiveLimit 0) {} ⟨lone, 2 ^ 32 + 7⟩ with
  | error e =>
    rw [hp] at hlone
    cases hlone
  | ok x =>
    obtain ⟨p, stop⟩ := x
    rw [hp] at hlone
    simp only [Except.toOption, Option.map_some, Option.some.injEq, Prod.mk.injEq, decide_eq_true_eq] at hlone
    obtain ⟨hseen, hvalid, hbodies⟩ := hlone
    obtain ⟨f, hf, hbody⟩ := map_eq_singleton_iff.mp hbodies
    obtain ⟨hbody, hoffset⟩ := Prod.mk.inj hbody
    obtain ⟨-, hlength⟩ := length_note hn
    have hrun : decodeSections (effectiveLimit 0) {} ⟨encodeSection "notes" (replicate n 0) ++ lone, 8⟩ =
        .ok (p, stop) := by
      rw [decodeSections_note (hlength ▸ by decide), hlength]
      exact hp
    have hm := decode_header hrun fun hnot => absurd hseen hnot
    refine ⟨p.module, f, decodeUnder_eq_ok.mpr ⟨hm, ?_⟩, hf, hbody, hoffset⟩
    rintro _ ⟨⟩
    exact List.isEmpty_iff.mp hvalid

/-- The body stands after the first 2^32 bytes, and its offset is cut to 32 bits. -/
theorem decodeUnder_not_resolved_distant : ∃ m, decodeUnder (distant (2 ^ 32 - 12)) 0 (some .all) = .ok m ∧
    ∃ f ∈ m.definedFunctions, ((distant (2 ^ 32 - 12)).drop f.bodyOffset).take f.body.length ≠ f.body := by
  generalize hn : 2 ^ 32 - 12 = n
  obtain ⟨m, f, hm, hf, hbody, hoffset⟩ := decode_distant hn.symm
  refine ⟨m, hm, f, hf ▸ mem_singleton_self f, fun h => ?_⟩
  have hfirst := congrArg (·[0]?) h
  simp [hbody, hoffset, getElem?_distant hn.symm] at hfirst

end Module

end ProtoWasm
