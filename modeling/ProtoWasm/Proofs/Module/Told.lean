import ProtoWasm.Proofs.Module.Resolved

/-! # What each section tells of a module -/
namespace ProtoWasm

open List

def Function.unplaced (f : Function) : Function := { f with bodyOffset := 0 }

def DataSegment.unplaced (d : DataSegment) : DataSegment := { d with sourceOffset := 0 }

/-- What a section by itself tells of a module. Names are told by position: a function without one has the
empty name. -/
abbrev Section.Contents : Section → Type
  | .signatures => List FuncType
  | .importTable => List Import
  | .functionSignatures => List Nat
  | .table => List TableType
  | .memory => Option MemoryType
  | .globals => List Global
  | .exportTable => List Export
  | .startFunction => Option Nat
  | .elements => List ElementSegment
  | .functionBodies => List (List ValType × List UInt8)
  | .dataSegments => List DataSegment
  | .names => Nat → String
  | .finish => Unit

theorem Export.Flags.unique {exports : List Export} {xs ys : List Bool} (hx : Export.Flags exports xs)
    (hy : Export.Flags exports ys) (hlen : xs.length = ys.length) : xs = ys := by
  apply ext_getElem hlen
  intro k hk hk'
  have hx := hx k _ (getElem?_eq_getElem hk)
  have hy := hy k _ (getElem?_eq_getElem hk')
  exact Bool.eq_iff_iff.mpr (hx.trans hy.symm)

namespace Module

open Reader

/-- The module without the places in its source. -/
def unplaced (m : Module) : Module :=
  { m with functions := m.functions.map Function.unplaced, data := m.data.map DataSegment.unplaced }

/-- What a section has told of the module. -/
def told : (s : Section) → Module → s.Contents
  | .signatures, m => m.signatures
  | .importTable, m => m.imports
  | .functionSignatures, m => m.definedFunctions.map Function.typeIndex
  | .table, m => m.tables.drop m.importedTables
  | .memory, m => m.ownMemory
  | .globals, m => (m.globals.drop m.importedGlobals).map Global.unplaced
  | .exportTable, m => m.exports
  | .startFunction, m => m.start
  | .elements, m => m.elements
  | .functionBodies, m => m.definedFunctions.map fun f => (f.locals, f.body)
  | .dataSegments, m => m.data.map DataSegment.unplaced
  | .names, m => fun k => (m.definedFunctions.map Function.name)[k]?.getD ""
  | .finish, _ => ()

/-- Nothing of a section is in the module yet, as far as reading it depends on that. -/
def Ready (m : Module) : Section → Prop
  | .importTable => m.imports = [] ∧ m.importedFunctions = 0 ∧ m.importedGlobals = 0
  | .functionSignatures => m.functions.length = m.importedFunctions
  | .table => m.tables.length = m.importedTables
  | .globals => m.globals.length = m.importedGlobals
  | .exportTable => m.exports = []
  | .functionBodies => m.importedFunctions ≤ m.functions.length
  | .names => m.importedFunctions ≤ m.functions.length ∧ ∀ f ∈ m.definedFunctions, f.name = ""
  | _ => True

variable {source source' : List UInt8} {limit : Nat} {seen seen' : List Section} {m l n : Module} {α : Type}
  {s t : Section} {v : Function → α} {f : Function}

theorem length_eq_of_map_eq {α β γ : Type} {a : α → γ} {c : β → γ} {xs : List α} {ys : List β}
    (h : xs.map a = ys.map c) : xs.length = ys.length := by
  have := congrArg List.length h
  rwa [length_map, length_map] at this

theorem definedFunctions_replaced (h : m.importedFunctions ≤ m.functions.length) (fs : List Function) :
    ({ m with functions := m.functions.take m.importedFunctions ++ fs } : Module).definedFunctions = fs := by
  apply drop_left'
  rw [length_take, Nat.min_eq_left h]

theorem told_functions (hm : m.Ready .functionSignatures) (fs : List Function) :
    told .functionSignatures { m with functions := m.functions ++ fs } = fs.map Function.typeIndex := by
  change ((m.functions ++ fs).drop m.importedFunctions).map Function.typeIndex = _
  rw [drop_left' hm]

theorem told_globals (hm : m.Ready .globals) (gs : List Global) (size : Nat) :
    told .globals { m with globals := (layoutGlobals 0 (m.globals ++ gs)).1, globalsSize := size } =
      gs.map Global.unplaced := by
  change ((layoutGlobals 0 (m.globals ++ gs)).1.drop m.importedGlobals).map Global.unplaced = _
  rw [map_drop, unplaced_layoutGlobals, map_append, ← show m.globals.length = m.importedGlobals from hm]
  exact drop_left' (length_map _)

theorem told_names {names : List String} (hm : m.Ready .names) (hlen : names.length ≤ m.definedCount) :
    told .names (m.nameFunctions names) = fun k => names[k]?.getD "" := by
  obtain ⟨hcount, hnone⟩ := hm
  have hdefined : (m.nameFunctions names).definedFunctions = rename m.definedFunctions names := by
    rw [nameFunctions_eq, definedFunctions_replaced hcount]
  have hzip : (m.definedFunctions.zip names).length = names.length := by
    rw [length_zip, definedFunctions, length_drop]
    exact Nat.min_eq_right hlen
  funext k
  change ((m.nameFunctions names).definedFunctions.map Function.name)[k]?.getD "" = _
  rw [getElem?_map, hdefined, rename, getElem?_append, length_map, hzip]
  split
  · rename_i hk
    have hk' : k < m.definedFunctions.length := by
      rw [definedFunctions, length_drop]
      exact Nat.lt_of_lt_of_le hk hlen
    have hfound : (m.definedFunctions.zip names)[k]? = some (m.definedFunctions[k], names[k]) :=
      getElem?_zip_eq_some.mpr ⟨getElem?_eq_getElem hk', getElem?_eq_getElem hk⟩
    rw [getElem?_map, hfound, getElem?_eq_getElem hk]
    rfl
  · rename_i hk
    rw [getElem?_drop, getElem?_eq_none (Nat.le_of_not_lt hk)]
    cases hf : m.definedFunctions[names.length + (k - names.length)]? with
    | none => rfl
    | some f => exact hnone f (mem_of_getElem? hf)

theorem told_names_congr (h : m.definedFunctions.map Function.name = l.definedFunctions.map Function.name) :
    told .names m = told .names l :=
  congrArg (fun (xs : List String) k => xs[k]?.getD "") h

theorem Built.definedFunctions_eq_nil (h : Built source limit seen m) (hs : .functionSignatures ∉ seen) :
    m.definedFunctions = [] :=
  drop_eq_nil_of_le (Nat.le_of_eq (h.noFunctions hs))

theorem Built.told_link (h : Built source limit seen m) {d : ImportDesc} (hd : d.Declared limit m.signatures)
    (ha : m.Admits d) (hs : ∀ s ∈ Section.importTable.precedes, s ∉ seen) (module name : String)
    (ht : t ≠ .importTable) : told t (m.link module name d) = told t m := by
  cases d with
  | func k =>
    have hnil := h.definedFunctions_eq_nil (hs _ (by decide))
    have hnil' : (m.link module name (.func k)).definedFunctions = [] := by
      apply drop_eq_nil_of_le
      change (m.functions ++ [m.importedFunction k]).length ≤ m.importedFunctions + 1
      apply Nat.le_of_eq
      rw [length_append, h.noFunctions (hs _ (by decide)), length_singleton]
    cases t with
    | functionSignatures | functionBodies => rw [told, told, hnil, hnil']
    | names =>
      apply told_names_congr
      rw [hnil, hnil']
    | importTable => exact absurd rfl ht
    | _ => rfl
  | table u =>
    cases t with
    | table =>
      have hnone : m.importedTables = 0 := by
        rw [← h.noTables (hs _ (by decide)), show m.tables = [] from ha]
        rfl
      have htables : m.tables = [] := ha
      change (m.tables ++ [u]).drop (m.importedTables + 1) = m.tables.drop m.importedTables
      rw [htables, hnone]
      rfl
    | importTable => exact absurd rfl ht
    | _ => rfl
  | memory u =>
    cases t with
    | memory =>
      have hnone : m.memory = none := ha
      have himported : u.imported = true := by rw [hd.2.2]
      change (some u).filter (fun t => !t.imported) = m.memory.filter (fun t => !t.imported)
      rw [hnone, Option.filter_some, himported]
      rfl
    | importTable => exact absurd rfl ht
    | _ => rfl
  | global u =>
    cases t with
    | globals =>
      have hlen := h.noGlobals (hs _ (by decide))
      change ((m.globals ++ [_]).drop (m.importedGlobals + 1)).map Global.unplaced =
        (m.globals.drop m.importedGlobals).map Global.unplaced
      rw [drop_eq_nil_of_le (Nat.le_of_eq hlen), drop_eq_nil_of_le]
      apply Nat.le_of_eq
      rw [length_append, hlen, length_singleton]
    | importTable => exact absurd rfl ht
    | _ => rfl
  | unknown b => exact hd.elim

theorem map_modify_exported
    (hv : ∀ f : Function, v { f with exported := true } = v f) (fs : List Function) (k : Nat) :
    (fs.modify k fun f => { f with exported := true }).map v = fs.map v := by
  have hfactor : v = fun f => v { f with exported := true } := funext fun f => (hv f).symm
  have hhide : ∀ gs : List Function, gs.map v = (gs.map Function.hide).map v := by
    intro gs
    rw [map_map]
    conv_lhs => rw [hfactor]
    conv_rhs => rw [hfactor]
    rfl
  rw [hhide, Built.map_hide_modify, ← hhide]

theorem map_definedFunctions_expose
    (hv : ∀ f : Function, v { f with exported := true } = v f) (m : Module) (e : Export) :
    (m.expose e).definedFunctions.map v = m.definedFunctions.map v := by
  unfold expose
  split
  · change ((m.functions.modify e.index _).drop m.importedFunctions).map v = _
    rw [map_drop, map_modify_exported hv, ← map_drop]
    rfl
  · rfl

theorem told_expose (m : Module) (e : Export) (ht : t ≠ .exportTable) :
    told t (m.expose e) = told t m := by
  cases t with
  | functionSignatures | functionBodies => exact map_definedFunctions_expose (fun _ => rfl) m e
  | names => exact told_names_congr (map_definedFunctions_expose (fun _ => rfl) m e)
  | exportTable => exact absurd rfl ht
  | _ =>
    unfold expose
    split <;> rfl

/-- What one section does not change. Bodies are told by no one before they are read. -/
theorem Built.told_read {i j : Input} (h : Built source limit seen m)
    (ho : s.checkOrder seen = none) (hi : i.CutFrom source)
    (hr : readContents limit s m i = .ok (n, j)) (ht : t ≠ s) (hb : t = .functionBodies → t ∈ seen) :
    told t n = told t m := by
  obtain ⟨hnew, hreq, hpre⟩ := Section.checkOrder_eq_none.mp ho
  cases s with
  | signatures =>
    obtain ⟨ts, rfl, -⟩ := readSignatures_ok hr
    cases t with
    | signatures => exact absurd rfl ht
    | _ => rfl
  | importTable =>
    obtain ⟨k, i₁, -, hr⟩ := bind_eq_ok.mp hr
    have hpre' := Section.not_mem_precedes hpre
    have hkeeps := foldlM_keeps
      (P := fun b => Built source limit (seen ++ [.importTable]) b ∧ told t b = told t m) ?_ hr
      ⟨h.see nofun, rfl⟩
    · exact hkeeps.2
    · rintro b k i c j ⟨hb, htold⟩ hc
      obtain ⟨module, name, d, hd, ha, rfl⟩ := readImport_ok hc
      exact ⟨hb.link hd ha hpre' module name, (hb.told_link hd ha hpre' module name ht).trans htold⟩
  | functionSignatures =>
    obtain ⟨fs, rfl, hfs⟩ := readFunctions_ok hr
    cases t with
    | functionSignatures => exact absurd rfl ht
    | functionBodies => exact absurd (h.bodies (hb rfl)).1 hnew
    | names =>
      have hdefined : ({ m with functions := m.functions ++ fs } : Module).definedFunctions = fs :=
        drop_left' (h.noFunctions hnew)
      funext k
      change (Module.definedFunctions _ |>.map Function.name)[k]?.getD "" =
        (m.definedFunctions.map Function.name)[k]?.getD ""
      rw [hdefined, h.definedFunctions_eq_nil hnew, getElem?_map]
      cases hf : fs[k]? with
      | none => rfl
      | some f =>
        rw [Option.map_some, (hfs f (mem_of_getElem? hf)).2]
        rfl
    | _ => rfl
  | table =>
    obtain ⟨ts, rfl, -, -⟩ := readTable_ok hr
    cases t with
    | table => exact absurd rfl ht
    | _ => rfl
  | memory =>
    obtain ⟨-, u, rfl, -⟩ := readMemory_ok hr
    cases t with
    | memory => exact absurd rfl ht
    | _ => rfl
  | globals =>
    obtain ⟨gs, rfl, -⟩ := readGlobals_ok hr
    cases t with
    | globals => exact absurd rfl ht
    | _ => rfl
  | exportTable =>
    obtain ⟨k, i₁, -, hr⟩ := bind_eq_ok.mp hr
    refine foldlM_keeps (P := fun b => told t b = told t m) ?_ hr rfl
    intro b k i c j hb hc
    obtain ⟨e, rfl, -, -⟩ := readExport_ok hc
    exact (told_expose b e ht).trans hb
  | startFunction =>
    obtain ⟨k, rfl, -⟩ := readStart_ok hr
    cases t with
    | startFunction => exact absurd rfl ht
    | _ => rfl
  | elements =>
    obtain ⟨es, rfl, -⟩ := readElements_ok hr
    cases t with
    | elements => exact absurd rfl ht
    | _ => rfl
  | functionBodies =>
    obtain ⟨fs, rfl, hfs⟩ := readBodies_ok hr hi
    have hmap : ∀ {α : Type} (v : Function → α), (∀ f g : Function, f.SameOutline g → v g = v f) →
        fs.map v = m.definedFunctions.map v :=
      fun v hv => map_eq_of_forall₂ (fun f g hfg => hv f g hfg.1) hfs
    cases t with
    | functionSignatures =>
      rw [told, told, definedFunctions_replaced h.functionCount]
      exact hmap _ fun f g hfg => by rw [hfg]
    | names =>
      apply told_names_congr
      rw [definedFunctions_replaced h.functionCount]
      exact hmap _ fun f g hfg => by rw [hfg]
    | functionBodies => exact absurd rfl ht
    | _ => rfl
  | dataSegments =>
    obtain ⟨-, ds, rfl, -⟩ := readData_ok hr
    cases t with
    | dataSegments => exact absurd rfl ht
    | _ => rfl
  | names =>
    obtain ⟨names, -, rfl⟩ := readNames_ok hr
    rw [nameFunctions_eq]
    cases t with
    | functionSignatures | functionBodies =>
      rw [told, told, definedFunctions_replaced h.functionCount]
      exact map_rename (fun _ _ => rfl) _ _
    | names => exact absurd rfl ht
    | _ => rfl
  | finish =>
    obtain ⟨rfl, -⟩ := pure_eq_ok.mp hr
    rfl

theorem Built.ready (h : Built source limit seen m) (hs : s ∉ seen)
    (hm : ∀ t, t ∉ seen → t ≠ .functionBodies → told t m = told t {}) : m.Ready s := by
  cases s with
  | importTable =>
    have himports : m.imports = [] := hm .importTable hs nofun
    refine ⟨himports, ?_, ?_⟩
    · rw [← h.count_functions, himports]
      rfl
    · rw [← h.count_globals, himports]
      rfl
  | functionSignatures => exact h.noFunctions hs
  | table => exact h.noTables hs
  | globals => exact h.noGlobals hs
  | exportTable => exact hm .exportTable hs nofun
  | functionBodies => exact h.functionCount
  | names =>
    refine ⟨h.functionCount, ?_⟩
    intro f hf
    obtain ⟨k, hk⟩ := mem_iff_getElem?.mp hf
    have hname := congrFun (hm .names hs nofun) k
    change (m.definedFunctions.map Function.name)[k]?.getD "" = "" at hname
    rwa [getElem?_map, hk] at hname
  | signatures | memory | startFunction | elements | dataSegments | finish => trivial

/-- What was told before, and what is still not told. -/
theorem Built.told_after {i j : Input} (h : Built source limit seen m) (ho : s.checkOrder seen = none)
    (hi : i.CutFrom source) (hr : readContents limit s m i = .ok (n, j)) :
    (∀ t ∈ seen, told t n = told t m) ∧
      ∀ t, t ∉ seen ++ [s] → t ≠ .functionBodies → told t n = told t m := by
  constructor
  · intro t ht
    refine h.told_read ho hi hr ?_ fun _ => ht
    rintro rfl
    exact (Section.checkOrder_eq_none.mp ho).1 ht
  · intro t ht hbodies
    refine h.told_read ho hi hr ?_ fun hb => absurd hb hbodies
    rintro rfl
    exact ht Built.mem_seen

/-! An index space starts with what is imported, and the imports alone tell how. -/

theorem eq_of_mapIdx_eq {α β : Type} {g : Nat → α → β} {xs ys : List α}
    (hg : ∀ k, ∀ x ∈ xs, ∀ y ∈ ys, g k x = g k y → x = y) (h : xs.mapIdx g = ys.mapIdx g) : xs = ys := by
  refine ext_getElem (by simpa using congrArg length h) fun k hx hy => ?_
  refine hg k _ (getElem_mem hx) _ (getElem_mem hy) ?_
  simpa [hx, hy] using congrArg (·[k]?) h

theorem eq_of_filter_eq {p : α → Bool} {x y : Option α} (h : x.filter p = y.filter p)
    (h' : x.filter (fun a => !p a) = y.filter (fun a => !p a)) : x = y := by
  cases x <;> cases y <;> grind

namespace Built

section

variable (h : Built source limit seen m)
include h

/-- The head of an imported function is told by its signature and its place among the imports. -/
theorem importedHead (hf : f ∈ m.heads.take m.importedFunctions) :
    f = ⟨f.typeIndex, m.signatures[f.typeIndex]?.getD {}, true, f.importIndex, false, "", [], [], 0⟩ := by
  have hmem := mem_of_mem_take hf
  obtain ⟨k, hk⟩ := mem_iff_getElem?.mp hf
  rw [getElem?_take, Option.ite_none_right_eq_some] at hk
  have himp := (h.functionFlags k f hk.2).mpr hk.1
  have htype := h.heads f hmem
  obtain ⟨g, hg, rfl⟩ := mem_map.mp hmem
  rw [htype, ← himp]
  rfl

theorem definedHeads_eq : m.heads.drop m.importedFunctions =
    (told .functionSignatures m).map fun k => { typeIndex := k, type := m.signatures[k]?.getD {} } := by
  rw [told, definedFunctions, map_map, Module.heads, ← map_drop]
  apply map_congr_left
  intro f hf
  have hmem : f.head ∈ m.heads.drop m.importedFunctions := by
    rw [Module.heads, ← map_drop]
    exact mem_map_of_mem hf
  have htype : m.signatures[f.typeIndex]? = some f.type := h.heads f.head (mem_of_mem_drop hmem)
  rw [h.definedHeads f.head hmem, Function.comp, htype]
  rfl

end

section

variable (h : Built source limit seen m) (hl : Built source' limit seen' l) (himports : l.imports = m.imports)
include h hl himports

theorem counts_eq : l.importedFunctions = m.importedFunctions ∧ l.importedTables = m.importedTables ∧
    l.importedGlobals = m.importedGlobals := by
  refine ⟨?_, ?_, ?_⟩
  · rw [← hl.count_functions, himports, h.count_functions]
  · rw [← hl.count_tables, himports, h.count_tables]
  · rw [← hl.count_globals, himports, h.count_globals]

theorem heads_eq (hsig : l.signatures = m.signatures)
    (htold : told .functionSignatures l = told .functionSignatures m) : l.heads = m.heads := by
  have himported : l.heads.take l.importedFunctions = m.heads.take m.importedFunctions := by
    apply eq_of_mapIdx_eq (g := fun k f => (k, f.importIndex, ImportDesc.func f.typeIndex))
    · intro k f hf g hg hfg
      simp only [Prod.mk.injEq, ImportDesc.func.injEq, true_and] at hfg
      rw [hl.importedHead hf, h.importedHead hg, hsig, hfg.1, hfg.2]
    · rw [← h.functionImports, ← hl.functionImports, himports]
  rw [← take_append_drop l.importedFunctions l.heads, himported, hl.definedHeads_eq, htold, hsig,
    ← h.definedHeads_eq, take_append_drop]

theorem tables_eq (htold : told .table l = told .table m) : l.tables = m.tables := by
  have himported : l.tables.take l.importedTables = m.tables.take m.importedTables := by
    apply eq_of_mapIdx_eq (g := fun k t => (k, ImportDesc.table t))
    · intro k t _ u _ htu
      simpa using htu
    · rw [← h.tableImports, ← hl.tableImports, himports]
  rw [← take_append_drop l.importedTables l.tables, himported,
    show l.tables.drop l.importedTables = m.tables.drop m.importedTables from htold, take_append_drop]

theorem importedGlobals_eq :
    l.globals.take l.importedGlobals = m.globals.take m.importedGlobals := by
  apply eq_of_mapIdx_eq (g := fun k g => (k, ImportDesc.global g.type))
  · intro k g hg g' hg' hgg
    simp only [Prod.mk.injEq, ImportDesc.global.injEq, true_and] at hgg
    rw [(hl.importedGlobals g hg).2, (h.importedGlobals g' hg').2, hgg]
  · rw [← h.globalImports, ← hl.globalImports, himports]

theorem globals_eq (htold : told .globals l = told .globals m) :
    l.globals = m.globals ∧ l.globalsSize = m.globalsSize := by
  have hlayout : l.globals.map Global.unplaced = m.globals.map Global.unplaced := by
    have hdefined : (l.globals.drop l.importedGlobals).map Global.unplaced =
        (m.globals.drop m.importedGlobals).map Global.unplaced := htold
    rw [← take_append_drop l.importedGlobals l.globals, map_append, h.importedGlobals_eq hl himports,
      hdefined, ← map_append, take_append_drop]
  rw [← Prod.mk.injEq, ← hl.layout, ← h.layout, hlayout]

theorem importedMemory_eq :
    l.memory.filter MemoryType.imported = m.memory.filter MemoryType.imported := by
  have hdescs := hl.memoryImports
  rw [himports, h.memoryImports] at hdescs
  have htypes := map_injective_iff.mpr (fun _ _ => ImportDesc.memory.inj) hdescs
  simpa using congrArg head? htypes.symm

theorem memory_eq (htold : told .memory l = told .memory m) : l.memory = m.memory :=
  eq_of_filter_eq (h.importedMemory_eq hl himports) htold

end

theorem functions_eq (h : Built source limit seen m) (hl : Built source' limit seen' l)
    (hheads : l.heads = m.heads) (hcount : l.importedFunctions = m.importedFunctions)
    (hv : ∀ f, v (Function.hide f) = v f) (hdefined : l.definedFunctions.map v = m.definedFunctions.map v) :
    l.functions.map v = m.functions.map v := by
  -- an imported function is no more than its head
  have himported : ∀ {source seen} {m : Module}, Built source limit seen m →
      (m.functions.take m.importedFunctions).map v = (m.heads.take m.importedFunctions).map v := by
    intro source seen m h
    rw [Module.heads, ← map_take, map_map]
    apply map_congr_left
    intro f hf
    rw [Function.comp, ← h.plain f hf, hv]
  rw [← take_append_drop l.importedFunctions l.functions, map_append, himported hl, hheads, hcount,
    ← himported h, ← hcount, show (l.functions.drop l.importedFunctions).map v = _ from hdefined, hcount,
    definedFunctions, ← map_append, take_append_drop]

/-- Modules of which every section tells the same are the same up to places in the source. -/
theorem unplaced_of_told (h : Built source limit seen m) (hl : Built source' limit seen' l)
    (htold : ∀ s, told s l = told s m) : l.unplaced = m.unplaced := by
  have hsignatures : l.signatures = m.signatures := htold .signatures
  have himports : l.imports = m.imports := htold .importTable
  have hexports : l.exports = m.exports := htold .exportTable
  obtain ⟨hcountF, hcountT, hcountG⟩ := h.counts_eq hl himports
  have hheads := h.heads_eq hl himports hsignatures (htold .functionSignatures)
  have hbodies := h.functions_eq hl hheads hcountF (fun _ => rfl) (htold .functionBodies)
  have hnames : l.functions.map Function.name = m.functions.map Function.name := by
    apply h.functions_eq hl hheads hcountF fun _ => rfl
    have hlen : (l.definedFunctions.map Function.typeIndex).length =
        (m.definedFunctions.map Function.typeIndex).length := congrArg length (htold .functionSignatures)
    rw [length_map, length_map] at hlen
    apply ext_getElem
    · rw [length_map, length_map, hlen]
    · intro k hk hk'
      have := congrFun (htold .names) k
      change (l.definedFunctions.map Function.name)[k]?.getD "" =
        (m.definedFunctions.map Function.name)[k]?.getD "" at this
      rwa [getElem?_eq_getElem hk, getElem?_eq_getElem hk'] at this
  have hflags : l.functions.map Function.exported = m.functions.map Function.exported := by
    have hflags := hl.exportFlags
    rw [hexports] at hflags
    apply hflags.unique h.exportFlags
    rw [length_map, length_map, length_eq_of_map_eq hheads]
  have hfunctions : l.functions.map Function.unplaced = m.functions.map Function.unplaced := by
    have hall : l.functions.map (fun f => (f.head, (f.exported, (f.name, (f.locals, f.body))))) =
        m.functions.map (fun f => (f.head, (f.exported, (f.name, (f.locals, f.body))))) := by
      simp only [← zip_map', hbodies, hnames, hflags]
      rw [show l.functions.map Function.head = m.functions.map Function.head from hheads]
    have := congrArg (map fun x => { x.1 with
      exported := x.2.1, name := x.2.2.1, locals := x.2.2.2.1, body := x.2.2.2.2 }) hall
    rw [map_map, map_map] at this
    exact this
  have hdata : l.data.map DataSegment.unplaced = m.data.map DataSegment.unplaced := htold .dataSegments
  have hglobals := h.globals_eq hl himports (htold .globals)
  rw [unplaced, unplaced, hfunctions, hdata, hsignatures, himports, hcountF,
    h.tables_eq hl himports (htold .table), hcountT, h.memory_eq hl himports (htold .memory), hglobals.1,
    hcountG, hglobals.2, show l.elements = m.elements from htold .elements, hexports,
    show l.start = m.start from htold .startFunction]

end Built

end Module

end ProtoWasm
