import ProtoWasm.Proofs.Module.Built

/-! # What a module declares at its indices -/
namespace ProtoWasm

open List

def Import.slot (i : Import) : ExternKind × Nat := (i.desc.kind, i.indexPerType)

/-- The import that an index belongs to is found at the index among the imports of its kind. -/
theorem Import.Numbered.getElem?_ofKind {imports : List Import} (h : Import.Numbered imports) {k : Nat}
    {i : Import} (hi : imports[k]? = some i) :
    (Import.ofKind i.desc.kind imports)[i.indexPerType]? = some (i, k) := by
  obtain ⟨hk, hget⟩ := List.getElem?_eq_some_iff.mp hi
  have hsplit : imports = imports.take k ++ i :: imports.drop (k + 1) := by
    rw [← hget, getElem_cons_drop, take_append_drop]
  have hlen : (imports.take k).length = k := length_take_of_le (Nat.le_of_lt hk)
  have hkind : Import.ofKind i.desc.kind imports = Import.ofKind i.desc.kind (imports.take k) ++
      (i, k) :: ((imports.drop (k + 1)).zipIdx (k + 1)).filter fun x => x.1.desc.kind = i.desc.kind := by
    conv_lhs => rw [hsplit]
    rw [Import.ofKind, zipIdx_append, filter_append, zipIdx_cons, filter_cons_of_pos (by simp)]
    simp [Import.ofKind, hlen]
  rw [hkind, h k i hi, getElem?_append_right (Nat.le_refl _), Nat.sub_self]
  rfl

theorem Import.Numbered.slots {imports : List Import} (h : Import.Numbered imports) :
    imports.Pairwise fun i j => i.slot ≠ j.slot := by
  rw [pairwise_iff_getElem]
  intro a b ha hb hlt heq
  obtain ⟨hkind, hindex⟩ := Prod.mk.inj heq
  have hi := h.getElem?_ofKind (getElem?_eq_getElem ha)
  have hj := h.getElem?_ofKind (getElem?_eq_getElem hb)
  rw [← hkind, ← hindex, hi] at hj
  obtain ⟨-, hab⟩ := Prod.mk.inj (Option.some.inj hj)
  exact Nat.ne_of_lt hlt hab

theorem mem_zipIdx_drop {α : Type} {xs : List α} {n k : Nat} {a : α} :
    (a, k) ∈ xs.zipIdx.drop n ↔ xs[k]? = some a ∧ n ≤ k := by
  rw [mem_iff_getElem?]
  simp only [getElem?_drop, getElem?_zipIdx, Option.map_eq_some_iff, Prod.mk.injEq]
  constructor
  · rintro ⟨j, b, hb, rfl, rfl⟩
    exact ⟨by simpa using hb, by omega⟩
  · rintro ⟨ha, hk⟩
    refine ⟨k - n, a, ?_, rfl, by omega⟩
    rwa [Nat.add_sub_cancel' hk]

namespace Module

/-- What a module declares at an index of a kind. -/
def declaration? (m : Module) : ExternKind → Nat → Option ImportDesc
  | .func, k => m.functions[k]?.map fun f => .func f.typeIndex
  | .table, k => m.tables[k]?.map .table
  | .memory, k => if k = 0 then m.memory.map .memory else none
  | .global, k => m.globals[k]?.map fun g => .global g.type
  | .unknown _, _ => none

def importedCount (m : Module) : ExternKind → Nat
  | .func => m.importedFunctions
  | .table => m.importedTables
  | .memory => (m.memory.filter MemoryType.imported).toList.length
  | .global => m.importedGlobals
  | .unknown _ => 0

section

variable {m : Module} {k : Nat} {kind : ExternKind}

theorem mem_definedIndices : k ∈ m.definedIndices ↔ m.importedFunctions ≤ k ∧ k < m.functions.length := by
  simp only [definedIndices, definedCount, mem_map, mem_range]
  constructor
  · rintro ⟨j, hj, rfl⟩
    omega
  · rintro ⟨hle, hlt⟩
    exact ⟨k - m.importedFunctions, by omega, by omega⟩

def definedSlots (m : Module) : List (ExternKind × Nat) :=
  m.definedIndices.map (.func, ·) ++ (m.globals.zipIdx.drop m.importedGlobals).map (fun g => (.global, g.2)) ++
    (m.tables.zipIdx.drop m.importedTables).map fun t => (.table, t.2)

theorem importedCount_le_of_mem (h : (kind, k) ∈ m.definedSlots) : m.importedCount kind ≤ k := by
  simp only [definedSlots, mem_append, mem_map, Prod.mk.injEq] at h
  rcases h with (⟨j, hj, rfl, rfl⟩ | ⟨⟨g, j⟩, hg, rfl, rfl⟩) | ⟨⟨t, j⟩, ht, rfl, rfl⟩
  · exact (mem_definedIndices.mp hj).1
  · exact (mem_zipIdx_drop.mp hg).2
  · exact (mem_zipIdx_drop.mp ht).2

/-- What a module declares is imported, or defined, or its own memory. -/
theorem mem_definedSlots {d : ImportDesc} (hd : m.declaration? kind k = some d)
    (hk : m.importedCount kind ≤ k) : (kind, k) ∈ m.definedSlots ∨
      ∃ t, kind = .memory ∧ k = 0 ∧ d = .memory t ∧ m.memory = some t ∧ t.imported = false := by
  simp only [definedSlots, mem_append, mem_map]
  cases kind with
  | func =>
    obtain ⟨f, hf, -⟩ := Option.map_eq_some_iff.mp hd
    exact .inl (.inl (.inl ⟨k, mem_definedIndices.mpr ⟨hk, (List.getElem?_eq_some_iff.mp hf).1⟩, rfl⟩))
  | table =>
    obtain ⟨t, ht, -⟩ := Option.map_eq_some_iff.mp hd
    exact .inl (.inr ⟨(t, k), mem_zipIdx_drop.mpr ⟨ht, hk⟩, rfl⟩)
  | memory =>
    simp only [declaration?] at hd
    split at hd
    · rename_i hzero
      obtain ⟨t, ht, rfl⟩ := Option.map_eq_some_iff.mp hd
      refine .inr ⟨t, rfl, hzero, rfl, ht, Bool.eq_false_iff.mpr fun himp => ?_⟩
      -- an imported memory is counted
      rw [importedCount, ht, Option.filter_some, if_pos himp, hzero] at hk
      exact Nat.not_succ_le_zero 0 hk
    · cases hd
  | global =>
    obtain ⟨g, hg, -⟩ := Option.map_eq_some_iff.mp hd
    exact .inl (.inl (.inr ⟨(g, k), mem_zipIdx_drop.mpr ⟨hg, hk⟩, rfl⟩))
  | unknown b => cases hd

end

namespace Built

variable {source : List UInt8} {limit : Nat} {seen : List Section} {m : Module} {i : Import}

section

variable (h : Built source limit seen m)
include h

theorem desc_ofKind (kind : ExternKind) (k : Nat) :
    (Import.ofKind kind m.imports)[k]?.map (fun x => x.1.desc) =
      if k < m.importedCount kind then m.declaration? kind k else none := by
  cases kind with
  | func =>
    have hk := congrArg (fun xs => xs[k]?.map (·.2.2)) h.functionImports
    simp only [getElem?_map, getElem?_mapIdx, getElem?_take, Option.map_map] at hk
    refine hk.trans ?_
    rw [Module.heads, getElem?_map, importedCount, declaration?]
    split
    · rw [Option.map_map]
      rfl
    · rfl
  | table =>
    have hk := congrArg (fun xs => xs[k]?.map (·.2)) h.tableImports
    simp only [getElem?_map, getElem?_mapIdx, getElem?_take, Option.map_map] at hk
    refine hk.trans ?_
    rw [importedCount, declaration?]
    split
    · rfl
    · rfl
  | memory =>
    have hk := congrArg (·[k]?) h.memoryImports
    simp only [getElem?_map] at hk
    refine hk.trans ?_
    rw [importedCount]
    cases hm : m.memory.filter MemoryType.imported with
    | none => simp
    | some t =>
      cases k with
      | zero => simp [declaration?, (Option.filter_eq_some_iff.mp hm).1]
      | succ k => simp
  | global =>
    have hk := congrArg (fun xs => xs[k]?.map (·.2)) h.globalImports
    simp only [getElem?_map, getElem?_mapIdx, getElem?_take, Option.map_map] at hk
    refine hk.trans ?_
    rw [importedCount, declaration?]
    split
    · rfl
    · rfl
  | unknown b =>
    have hnil : Import.ofKind (.unknown b) m.imports = [] := by
      apply filter_eq_nil_iff.mpr
      intro x hx hkind
      have hdeclared := h.imports x.1 (fst_mem_of_mem_zipIdx hx)
      cases hd : x.1.desc with
      | unknown c =>
        rw [hd] at hdeclared
        exact hdeclared
      | func t | table t | memory t | global t => simp [hd, ImportDesc.kind] at hkind
    rw [hnil]
    rfl

theorem declared (hi : i ∈ m.imports) :
    m.declaration? i.desc.kind i.indexPerType = some i.desc ∧ i.indexPerType < m.importedCount i.desc.kind := by
  obtain ⟨k, hk⟩ := getElem?_of_mem hi
  have hdesc := h.desc_ofKind i.desc.kind i.indexPerType
  rw [h.numbered.getElem?_ofKind hk, Option.map_some] at hdesc
  split at hdesc
  · rename_i hlt
    exact ⟨hdesc.symm, hlt⟩
  · cases hdesc

theorem importedMemory (hi : i ∈ m.imports) {t : MemoryType}
    (ht : i.desc = .memory t) : i.indexPerType = 0 ∧ m.memory = some t ∧ t.imported = true := by
  have hdeclared := (h.declared hi).1
  have hasked := h.imports i hi
  rw [ht] at hdeclared hasked
  simp only [ImportDesc.kind, declaration?] at hdeclared
  split at hdeclared
  · rename_i hzero
    obtain ⟨u, hu, heq⟩ := Option.map_eq_some_iff.mp hdeclared
    cases heq
    refine ⟨hzero, hu, ?_⟩
    rw [hasked.2.2]
  · cases hdeclared

theorem imported {kind : ExternKind} {k : Nat} {d : ImportDesc}
    (hd : m.declaration? kind k = some d) (hk : k < m.importedCount kind) :
    ∃ i ∈ m.imports, i.slot = (kind, k) ∧ i.desc = d := by
  have hdesc := h.desc_ofKind kind k
  rw [if_pos hk, hd] at hdesc
  obtain ⟨⟨i, n⟩, hn, rfl⟩ := Option.map_eq_some_iff.mp hdesc
  obtain ⟨hmem, hkind⟩ := mem_filter.mp (mem_of_getElem? hn)
  have hi : m.imports[n]? = some i := mk_mem_zipIdx_iff_getElem?.mp hmem
  have hkind : i.desc.kind = kind := of_decide_eq_true hkind
  refine ⟨i, mem_of_getElem? hi, ?_, rfl⟩
  -- the import is in the list of its kind once
  have hof := h.numbered.getElem?_ofKind hi
  rw [hkind, ← hn] at hof
  have hnodup : (Import.ofKind kind m.imports).Nodup := by
    have hpositions : (m.imports.zipIdx.map Prod.snd).Nodup := by
      rw [zipIdx_map_snd]
      exact nodup_range'
    apply List.Pairwise.filter
    exact List.Pairwise.of_map Prod.snd (fun a b hab => mt (congrArg Prod.snd) hab) hpositions
  have hlt := (List.getElem?_eq_some_iff.mp (hof.trans hn)).1
  rw [Import.slot, hkind, (getElem?_inj hlt hnodup).mp hof]

end

end Built

end Module

end ProtoWasm
