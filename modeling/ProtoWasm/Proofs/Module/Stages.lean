import ProtoWasm.Proofs.Module.Pieces
import ProtoWasm.Proofs.Module.Told

/-! # Sections read back one by one -/
namespace ProtoWasm

open List

def Section.before (s : Section) : List Section := all.takeWhile (· ≠ s)

namespace Module

open Reader
open Leb128 (encodeUnsigned length_encodeUnsigned_pos)

variable {source source' : List UInt8} {limit : Nat} {seen seen' : List Section} {m cur : Module}

section

variable (h : Built source limit seen m)
include h

theorem accepts_signatures (hlen : (m.contents .signatures).length < 2 ^ 32) :
    Accepts (readSignatures cur) (m.contents .signatures) fun c => told .signatures c = told .signatures m := by
  apply accepts_encodeAll (R := fun t a => a = id t) hlen length_encodeSignature_pos
  · intro k t ht hsize
    exact accepts_signature k (h.signatures t ht) hsize
  · intro ts hts
    exact (map_of_forall₂ hts).trans (map_id _)

/-- While imports are read, no import says where it is in the index space of its kind. Their order does. -/
theorem link_imports {d : ImportDesc} (hd : d.Declared limit m.signatures)
    (ha : m.Admits d) (module name : String) : (m.link module name d).imports =
      m.imports ++ [⟨module, name, d, (Import.ofKind d.kind m.imports).length⟩] := by
  cases d with
  | func t =>
    change m.imports ++ [⟨module, name, .func t, m.importedFunctions⟩] = _
    rw [← h.count_functions]
    rfl
  | table t =>
    change m.imports ++ [⟨module, name, .table t, 0⟩] = _
    have hzero : m.importedTables = 0 := by
      have := h.tableCount
      rw [show m.tables = [] from ha] at this
      exact Nat.eq_zero_of_le_zero this
    rw [← hzero, ← h.count_tables]
    rfl
  | memory t =>
    change m.imports ++ [⟨module, name, .memory t, 0⟩] = _
    rw [← h.count_memories ha]
    rfl
  | global t =>
    change m.imports ++ [⟨module, name, .global t, m.importedGlobals⟩] = _
    rw [← h.count_globals]
    rfl
  | unknown b => exact hd.elim

theorem Built.admits {l : Module} (hl : Built source' limit seen' l)
    (hs : ∀ s ∈ Section.importTable.precedes, s ∉ seen') {i : Import} {after : List Import}
    (hm : m.imports = l.imports ++ i :: after) : l.Admits i.desc := by
  have hcount : (Import.ofKind i.desc.kind l.imports).length <
      (Import.ofKind i.desc.kind m.imports).length := by
    rw [hm, Import.ofKind, Import.ofKind, zipIdx_append, zipIdx_cons, filter_append,
      length_append, filter_cons_of_pos (by simp), length_cons]
    omega
  cases hd : i.desc with
  | func t => trivial
  | global t => trivial
  | unknown b => trivial
  | table t =>
    rw [hd] at hcount
    change (Import.ofKind .table _).length < (Import.ofKind .table _).length at hcount
    have := h.tableCount
    have := h.oneTable
    rw [hl.count_tables, h.count_tables, ← hl.noTables (hs _ (by decide))] at hcount
    exact eq_nil_of_length_eq_zero (by omega)
  | memory t =>
    rw [hd] at hcount
    change (Import.ofKind .memory _).length < (Import.ofKind .memory _).length at hcount
    have hlen := congrArg List.length hl.memoryImports
    have hlen' := congrArg List.length h.memoryImports
    rw [length_map, length_map] at hlen hlen'
    rw [hlen, hlen'] at hcount
    have hone : (m.memory.filter MemoryType.imported).toList.length ≤ 1 := by
      cases m.memory.filter MemoryType.imported <;> simp
    change l.memory = none
    cases hmem : l.memory with
    | none => rfl
    | some u =>
      rw [hmem, Option.filter_some, if_pos (hl.noMemory (hs _ (by decide)) u hmem), Option.toList_some,
        length_singleton] at hcount
      omega

end

section

variable (h : Built source limit seen m) (hc : Built source' limit seen' cur)
include h hc

theorem accepts_imports (hsize : m.signatures.length ≤ 2 ^ 32)
    (hlen : (m.contents .importTable).length < 2 ^ 32)
    (hs : ∀ s ∈ Section.importTable.precedes, s ∉ seen') (hnew : cur.Ready .importTable)
    (htold : ∀ t ∈ Section.importTable.before, told t cur = told t m) :
    Accepts (readImports limit cur) (m.contents .importTable)
      fun c => told .importTable c = told .importTable m := by
  apply accepts_countAll hlen length_encodeImport_pos
  -- what has been read is a module of its own, which has the first of the imports
  have hread := accepts_foldlM (f := readImport limit) encodeImport
    (fun before l => Built source' limit seen' l ∧ l.imports = before ∧ l.signatures = m.signatures)
    (List.range m.imports.length) [] m.imports length_range
    ⟨hc, hnew.1, htold .signatures (by decide)⟩
  refine (hread ?_).imp fun l hl => hl.2.1
  rintro before i after l k hm ⟨hl, himports, hsig⟩
  rw [nil_append, ← himports] at hm
  have hmem : i ∈ m.imports := by
    rw [hm]
    exact mem_append_right _ mem_cons_self
  have hd : i.desc.Declared limit l.signatures := by
    rw [hsig]
    exact h.imports i hmem
  have ha := h.admits hl hs hm
  have hplace : i = ⟨i.module, i.name, i.desc, (Import.ofKind i.desc.kind l.imports).length⟩ := by
    have hk : m.imports[l.imports.length]? = some i := by simp [hm]
    have := h.numbered _ _ hk
    rw [hm, take_left] at this
    rw [← this]
  refine (accepts_import k hd ha (hsig ▸ hsize) ?_).imp ?_
  · exact Nat.lt_of_le_of_lt (length_le_of_mem_encodeAll hmem) hlen
  · rintro _ rfl
    refine ⟨hl.link hd ha hs _ _, ?_, ?_⟩
    · rw [link_imports hl hd ha, ← hplace, himports]
    · rw [← hsig]
      cases i.desc <;> rfl

omit hc in
theorem accepts_functions (hsize : m.signatures.length ≤ 2 ^ 32)
    (hlen : (m.contents .functionSignatures).length < 2 ^ 32) (hnew : cur.Ready .functionSignatures)
    (htold : ∀ t ∈ Section.functionSignatures.before, told t cur = told t m) :
    Accepts (readFunctions cur) (m.contents .functionSignatures)
      fun c => told .functionSignatures c = told .functionSignatures m := by
  have hsig : cur.signatures = m.signatures := htold .signatures (by decide)
  apply accepts_encodeAll (R := fun f a => a.typeIndex = f.typeIndex) hlen
    fun f => length_encodeUnsigned_pos f.typeIndex
  · intro k f hf _
    have htype := h.heads f.head (mem_map_of_mem (mem_of_mem_drop hf))
    rw [← hsig] at htype
    apply (accepts_signatureIndex htype (hsig ▸ hsize)).map
    rintro _ rfl
    rfl
  · intro fs hfs
    rw [told_functions hnew]
    exact map_eq_of_forall₂ (fun _ _ ha => ha) hfs

theorem accepts_tables (hlen : (m.contents .table).length < 2 ^ 32) (hnew : cur.Ready .table)
    (htold : ∀ t ∈ Section.table.before, told t cur = told t m) :
    Accepts (readTable cur) (m.contents .table) fun c => told .table c = told .table m := by
  refine .offset fun o => ?_
  apply accepts_countAll hlen fun t => length_encodeLimits_pos t.min t.max
  have hone : ¬ 1 < (m.tables.drop m.importedTables).length + cur.tables.length := by
    have := h.oneTable
    have := h.tableCount
    rw [show cur.tables.length = _ from hnew, (h.counts_eq hc (htold .importTable (by decide))).2.1,
      length_drop]
    omega
  apply (accepts_refuse hone _ _).after
  intro _ _
  have hread : Accepts (times (m.tables.drop m.importedTables).length fun _ => readTableType)
      ((m.tables.drop m.importedTables).flatMap fun t => encodeLimits t.min t.max)
      (List.Forall₂ (fun t a => a = { t with imported := false }) (m.tables.drop m.importedTables)) :=
    accepts_times fun k t ht => accepts_tableType (h.tables t (mem_of_mem_drop ht))
  apply hread.map
  intro ts hts
  change (cur.tables ++ ts).drop cur.importedTables = _
  -- a table that the module declares has not been marked as imported
  rw [drop_left' hnew, map_of_forall₂ hts]
  conv_rhs => rw [told, ← map_id (m.tables.drop m.importedTables)]
  apply map_congr_left
  intro t ht
  obtain ⟨k, hk⟩ := mem_iff_getElem?.mp ht
  rw [getElem?_drop] at hk
  have hfalse : t.imported = false := by
    cases himp : t.imported with
    | false => rfl
    | true =>
      have := (h.tableFlags _ t hk).mp himp
      omega
  rw [← hfalse, id]

theorem accepts_memory {t : MemoryType} (ht : m.ownMemory = some t) (hnew : .memory ∉ seen')
    (htold : ∀ t ∈ Section.memory.before, told t cur = told t m) :
    Accepts (readMemory limit cur) (encodeMemory t) fun c => told .memory c = told .memory m := by
  obtain ⟨hm, himp⟩ := Option.filter_eq_some_iff.mp ht
  obtain ⟨hw, hmax⟩ := h.memory t hm
  have hfalse : t.imported = false := by simpa using himp
  have hnone : ¬ cur.memory.isSome = true := by
    have himported := h.importedMemory_eq hc (htold .importTable (by decide))
    rw [hm, Option.filter_some, hfalse] at himported
    intro hsome
    obtain ⟨u, hu⟩ := Option.isSome_iff_exists.mp hsome
    rw [hu, Option.filter_some, hc.noMemory hnew u hu] at himported
    cases himported
  refine .offset fun o => ?_
  apply (accepts_refuse hnone _ _).after
  intro _ _
  apply (accepts_memoryType hw hmax).bind
  rintro _ rfl
  apply (accepts_byte _ _).last
  rintro _ rfl
  apply (accepts_refuse (encodeFlag_le _) _ _).after
  intro _ _
  apply accepts_pure
  rw [encodeFlag_eq_one, ← hfalse]
  change (some t).filter (fun t => !t.imported) = _
  rw [Option.filter_some, if_pos himp]
  exact ht.symm

theorem accepts_globals (hlen : (m.contents .globals).length < 2 ^ 32) (hnew : cur.Ready .globals)
    (htold : ∀ t ∈ Section.globals.before, told t cur = told t m) :
    Accepts (readGlobals cur) (m.contents .globals) fun c => told .globals c = told .globals m := by
  have htypes : cur.importedGlobalTypes = m.importedGlobalTypes :=
    congrArg (map Global.type) (h.importedGlobals_eq hc (htold .importTable (by decide)))
  apply accepts_encodeAll (R := fun g a => a = g.unplaced) hlen length_encodeGlobal_pos
  · intro k g hg _
    apply accepts_global
    have := h.definedGlobals g hg
    rwa [Defines, ← htypes] at this
  · intro gs hgs
    rw [told_globals hnew, map_of_forall₂ hgs, map_map]
    rfl

omit h hc in
theorem spaceSize_congr (hf : cur.functions.length = m.functions.length)
    (ht : cur.tables = m.tables) (hm : cur.memory = m.memory) (hg : cur.globals = m.globals)
    (kind : ExternKind) : cur.spaceSize kind = m.spaceSize kind := by
  cases kind <;> simp only [spaceSize, hf, ht, hm, hg]

omit h hc in
theorem spaceSize_expose (m : Module) (e : Export) (kind : ExternKind) :
    (m.expose e).spaceSize kind = m.spaceSize kind := by
  unfold expose
  split
  · cases kind with
    | func => exact congrArg some (length_modify ..)
    | _ => rfl
  · rfl

theorem accepts_exports (hsize : ∀ kind n, m.spaceSize kind = some n → n ≤ 2 ^ 32)
    (hlen : (m.contents .exportTable).length < 2 ^ 32) (hnew : cur.Ready .exportTable)
    (htold : ∀ t ∈ Section.exportTable.before, told t cur = told t m) :
    Accepts (readExports cur) (m.contents .exportTable)
      fun c => told .exportTable c = told .exportTable m := by
  have himports : cur.imports = m.imports := htold .importTable (by decide)
  have hspace := spaceSize_congr
    (length_eq_of_map_eq (h.heads_eq hc himports (htold .signatures (by decide)) (htold _ (by decide))))
    (h.tables_eq hc himports (htold _ (by decide))) (h.memory_eq hc himports (htold _ (by decide)))
    (h.globals_eq hc himports (htold _ (by decide))).1
  apply accepts_countAll hlen length_encodeExport_pos
  have hread := accepts_foldlM (f := readExport) encodeExport
    (fun before l => l.exports = before ∧ ∀ kind, l.spaceSize kind = m.spaceSize kind)
    (List.range m.exports.length) [] m.exports length_range ⟨hnew, hspace⟩
  refine (hread ?_).imp fun l hl => hl.1
  rintro before e after l k hm ⟨hexports, hspace⟩
  rw [nil_append] at hm
  have hmem : e ∈ m.exports := by
    rw [hm]
    exact mem_append_right _ mem_cons_self
  have hname : e.name ∉ l.exports.map Export.name := by
    have hnodup := h.exportNames
    rw [hm, map_append, map_cons] at hnodup
    rw [hexports]
    intro hin
    exact (nodup_append.mp hnodup).2.2 _ hin _ mem_cons_self rfl
  obtain ⟨n, hn, hlt⟩ := h.exports e hmem
  refine (accepts_export k hname ((hspace _).trans hn) hlt (hsize _ n hn) ?_).imp ?_
  · exact Nat.lt_of_le_of_lt (length_le_of_mem_encodeAll hmem) hlen
  · rintro _ rfl
    refine ⟨?_, fun kind => (spaceSize_expose l e kind).trans (hspace kind)⟩
    change l.exports ++ [e] = _
    rw [hexports]

theorem accepts_start (hsize : m.functions.length ≤ 2 ^ 32) {n : Nat} (hn : m.start = some n)
    (htold : ∀ t ∈ Section.startFunction.before, told t cur = told t m) :
    Accepts (readStart cur) (encodeUnsigned n)
      fun c => told .startFunction c = told .startFunction m := by
  have hheads := h.heads_eq hc (htold .importTable (by decide)) (htold .signatures (by decide))
    (htold _ (by decide))
  have hstart := h.start n hn
  have hlt : n < m.functions.length := by
    obtain ⟨f, hf, -⟩ := Option.map_eq_some_iff.mp hstart
    have := (List.getElem?_eq_some_iff.mp hf).1
    rwa [Module.heads, length_map] at this
  have htype : cur.functionType? n = some {} := by
    rwa [← hheads, Module.heads, getElem?_map, Option.map_map] at hstart
  refine .offset fun o => ?_
  apply (accepts_u32 _ (Nat.lt_of_lt_of_le hlt hsize)).last
  intro k hk
  rw [hk, htype]
  apply (accepts_refuse (by decide) _ _).after
  intro _ _
  exact accepts_pure hn.symm

theorem accepts_elements (hsize : m.functions.length ≤ 2 ^ 32)
    (hlen : (m.contents .elements).length < 2 ^ 32)
    (htold : ∀ t ∈ Section.elements.before, told t cur = told t m) :
    Accepts (readElements cur) (m.contents .elements) fun c => told .elements c = told .elements m := by
  have himports : cur.imports = m.imports := htold .importTable (by decide)
  have hfunctions : cur.functions.length = m.functions.length :=
    length_eq_of_map_eq (h.heads_eq hc himports (htold .signatures (by decide)) (htold _ (by decide)))
  have htables := h.tables_eq hc himports (htold _ (by decide))
  have htypes : cur.importedGlobalTypes = m.importedGlobalTypes :=
    congrArg (map Global.type) (h.importedGlobals_eq hc himports)
  apply accepts_encodeAll (R := fun e a => a = id e) hlen length_encodeElement_pos
  · intro k e he hlen
    apply accepts_element _ _ _ _ hlen
    · have := h.elements e he
      rwa [Placed, ← htables, ← hfunctions, ← htypes] at this
    · rw [htables]
      have := h.oneTable
      omega
    · rw [hfunctions]
      exact hsize
  · intro es hes
    exact (map_of_forall₂ hes).trans (map_id _)

theorem accepts_bodies (hb : ∀ f ∈ m.definedFunctions, f.Defined source)
    (hlen : (m.contents .functionBodies).length < 2 ^ 32)
    (htold : ∀ t ∈ Section.functionBodies.before, told t cur = told t m) :
    Accepts (readBodies cur) (m.contents .functionBodies)
      fun c => told .functionBodies c = told .functionBodies m := by
  have himports : cur.imports = m.imports := htold .importTable (by decide)
  have hheads := h.heads_eq hc himports (htold .signatures (by decide)) (htold _ (by decide))
  have hdefined : cur.definedFunctions.map Function.head = m.definedFunctions.map Function.head := by
    rw [definedFunctions, definedFunctions, map_drop, map_drop, (h.counts_eq hc himports).1]
    exact congrArg _ hheads
  refine .offset fun o => ?_
  apply accepts_countAll hlen length_encodeBody_pos
  apply (accepts_refuse (by simp [length_eq_of_map_eq hdefined]) _ _).after
  intro _ _
  have hread : Accepts (cur.definedFunctions.mapM readDefinition) (m.definedFunctions.flatMap encodeBody)
      (List.Forall₂ (fun g a => a.locals = g.locals ∧ a.body = g.body) m.definedFunctions) := by
    apply accepts_mapM
    refine forall₂_iff_get.mpr ⟨length_eq_of_map_eq hdefined, fun k hx hy => ?_⟩
    have hg := get_mem m.definedFunctions ⟨k, hy⟩
    have hhead := congrArg (·[k]?) hdefined
    simp only [getElem?_map, getElem?_eq_getElem hx, getElem?_eq_getElem hy, Option.map_some,
      Option.some.injEq] at hhead
    have hparams : cur.definedFunctions[k].type.params.length = m.definedFunctions[k].type.params.length :=
      congrArg (fun x => x.type.params.length) hhead
    refine (accepts_definition hparams (hb _ hg).locals (hb _ hg).few ?_).imp fun a ha => ha.2
    exact Nat.lt_of_le_of_lt (length_le_of_mem_encodeAll hg) hlen
  apply hread.map
  intro fs hfs
  rw [told, definedFunctions_replaced hc.functionCount]
  exact map_eq_of_forall₂ (fun _ _ ha => by rw [ha.1, ha.2]) hfs

theorem accepts_data (hne : m.data ≠ []) (hlen : (m.contents .dataSegments).length < 2 ^ 32)
    (htold : ∀ t ∈ Section.dataSegments.before, told t cur = told t m) :
    Accepts (readData cur) (m.contents .dataSegments)
      fun c => told .dataSegments c = told .dataSegments m := by
  have himports : cur.imports = m.imports := htold .importTable (by decide)
  have htypes : cur.importedGlobalTypes = m.importedGlobalTypes :=
    congrArg (map Global.type) (h.importedGlobals_eq hc himports)
  have hsome : ¬ cur.memory.isNone = true := by
    obtain ⟨d, hd⟩ := exists_mem_of_ne_nil _ hne
    rw [h.memory_eq hc himports (htold _ (by decide)), Option.isNone_iff_eq_none]
    exact Option.isSome_iff_ne_none.mp (h.data d hd).1
  refine .offset fun o => ?_
  apply (accepts_refuse hsome _ _).after
  intro _ _
  apply accepts_encodeAll (R := fun d a => a.offset = d.offset ∧ a.init = d.init) hlen length_encodeData_pos
  · intro k d hd hlen
    apply accepts_dataSegment _ hlen
    rw [htypes]
    exact (h.data d hd).2
  · intro ds hds
    apply map_eq_of_forall₂ _ hds
    rintro d a ⟨ho, hi⟩
    rw [DataSegment.unplaced, DataSegment.unplaced, ho, hi]

end

/-- No function after the last that is written has a name. -/
theorem definedFunctions_eq_named (m : Module) :
    ∃ rest, m.definedFunctions = m.named ++ rest ∧ ∀ f ∈ rest, f.name = "" := by
  refine ⟨(m.definedFunctions.reverse.takeWhile (·.name == "")).reverse, ?_, ?_⟩
  · rw [named, ← reverse_append, takeWhile_append_dropWhile, reverse_reverse]
  · intro f hf
    have := all_eq_true.mp all_takeWhile f (mem_reverse.mp hf)
    exact beq_iff_eq.mp this

theorem accepts_names (hlen : (m.contents .names).length < 2 ^ 32) (hnew : cur.Ready .names)
    (htold : ∀ t ∈ Section.names.before, told t cur = told t m) :
    Accepts (readNames cur) (m.contents .names) fun c => told .names c = told .names m := by
  obtain ⟨rest, hrest, hempty⟩ := definedFunctions_eq_named m
  have hfew : m.named.length ≤ cur.definedCount := by
    have hcount : cur.definedFunctions.length = m.definedFunctions.length :=
      length_eq_of_map_eq (htold .functionSignatures (by decide))
    rw [hrest, length_append, definedFunctions, length_drop] at hcount
    rw [definedCount, hcount]
    exact Nat.le_add_right _ _
  apply accepts_countAll hlen fun f => by simp
  refine .offset fun o => ?_
  apply (accepts_refuse (Nat.not_lt.mpr hfew) _ _).after
  intro _ _
  have hread : Accepts (times m.named.length fun _ => readFunctionName)
      (m.named.flatMap fun f => encodeName f.name ++ [0])
      (List.Forall₂ (fun f a => a = f.name) m.named) := by
    apply accepts_times
    intro _ f hf
    apply accepts_functionName
    have := Nat.lt_of_le_of_lt (length_le_of_mem_encodeAll hf) hlen
    rw [length_append] at this
    omega
  apply hread.map
  intro names hnames
  rw [map_of_forall₂ hnames, told_names hnew (by rwa [length_map])]
  funext k
  change _ = (m.definedFunctions.map Function.name)[k]?.getD ""
  rw [hrest, map_append, getElem?_append]
  split
  · rfl
  · rename_i hlt
    rw [getElem?_eq_none (Nat.le_of_not_lt hlt), getElem?_map]
    cases hf : rest[k - (m.named.map Function.name).length]? with
    | none => rfl
    | some f => exact (hempty f (mem_of_getElem? hf)).symm

end Module

end ProtoWasm
