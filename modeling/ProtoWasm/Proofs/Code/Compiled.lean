import ProtoWasm.Code.Compile
import ProtoWasm.Proofs.Body.CallSites
import ProtoWasm.Proofs.Module.RoundTrip

/-! # Compiled modules

The table of a module that compiles: functions have the entries of their indices, entry points come after them,
every place refers to the entry of the function that it calls, and the places of a function are the direct calls
of its graph. Entries of imports are placeholders.
-/
namespace ProtoWasm

open List

theorem UnitResult.error?_eq_none {r : UnitResult} : r.error? = none ↔ ∃ g, r.outcome = .ok g := by
  unfold error?
  cases r.outcome <;> simp

/-- A worker that sees no failure does all functions. -/
theorem claimed_eq_self {reportAll : Bool} {rs : List UnitResult}
    (h : ∀ r ∈ claimed reportAll rs, r.error? = none) : claimed reportAll rs = rs := by
  induction rs with
  | nil => rfl
  | cons r rs ih =>
    unfold claimed at h ⊢
    split at h
    · rename_i hr
      obtain ⟨g, hg⟩ := UnitResult.error?_eq_none.mp (h r mem_cons_self)
      simp [UnitResult.failed, hg] at hr
    · rename_i hr
      rw [if_neg hr, ih fun r hr => h r (mem_cons_of_mem _ hr)]

theorem collect_eq_ok {reportAll : Bool} {rs : List UnitResult} {graphs : List Graph}
    (hrs : rs.Pairwise fun a b => a.index ≤ b.index)
    (h : collect reportAll (claimed reportAll rs) = .ok graphs) :
    List.Forall₂ (fun r g => r.outcome = .ok g) rs graphs := by
  unfold collect at h
  dsimp only at h
  split at h
  · cases h
  · rename_i he
    cases h
    have hnone : ∀ r ∈ claimed reportAll rs, r.error? = none := by
      intro r hr
      have hr := (mergeSort_perm (claimed reportAll rs) fun a b => a.index ≤ b.index).mem_iff.mpr hr
      exact filterMap_eq_nil_iff.mp (Module.report?_eq_none.mp he) r hr
    have hall := claimed_eq_self hnone
    rw [hall] at hnone ⊢
    rw [mergeSort_of_pairwise (by simpa using hrs)]
    clear hrs he hall
    induction rs with
    | nil => exact .nil
    | cons r rs ih =>
      obtain ⟨hr, hnone⟩ := forall_mem_cons.mp hnone
      obtain ⟨g, hg⟩ := UnitResult.error?_eq_none.mp hr
      have hgraph : r.graph? = some g := by simp [UnitResult.graph?, hg]
      rw [filterMap_cons_some hgraph]
      exact .cons hg (ih hnone)

theorem pairwise_compileFunction (m : Module) (loopAnalysis : Bool) :
    (m.definedIndices.map (compileFunction m loopAnalysis)).Pairwise fun a b => a.index ≤ b.index := by
  unfold Module.definedIndices
  rw [map_map, pairwise_map]
  exact pairwise_lt_range.imp fun h => Nat.add_le_add_left (Nat.le_of_lt h) _

/-- A module that compiles has a graph for every function that it defines. -/
theorem Module.compile_eq_ok {m : Module} {o : CompileOptions} {canceled : Bool} {c : CompiledModule}
    (h : m.compile o canceled = .ok c) : ∃ graphs, c = .ofGraphs m graphs ∧
      List.Forall₂ (fun i g => (compileFunction m o.loopAnalysis i).outcome = .ok g) m.definedIndices graphs := by
  unfold compile compileWith at h
  split at h
  · cases h
  · rename_i hrun
    -- a compilation that was canceled had no functions to do
    have hunits : compileUnits m o canceled =
        claimed o.reportAll (m.definedIndices.map (compileFunction m o.loopAnalysis)) := by
      unfold compileUnits
      split
      · rename_i hcanceled
        have hnone : m.definedIndices = [] := by simpa [hcanceled, definedIndices] using hrun
        rw [hnone]
        rfl
      · rfl
    rw [hunits] at h
    cases hgraphs : collect o.reportAll
        (claimed o.reportAll (m.definedIndices.map (compileFunction m o.loopAnalysis))) with
    | error e =>
      rw [hgraphs] at h
      cases h
    | ok graphs =>
      rw [hgraphs] at h
      cases h
      exact ⟨graphs, rfl, forall₂_map_left_iff.mp (collect_eq_ok (pairwise_compileFunction m _) hgraphs)⟩

/-- The graph of a function notes its direct calls, which are of functions of the module. -/
theorem tallies_of_compileFunction {m : Module} {source : List UInt8} {limit : Nat} {seen : List Section}
    (hb : m.Built source limit seen) {loopAnalysis : Bool} {index : Nat} {g : Graph}
    (h : (compileFunction m loopAnalysis index).outcome = .ok g) :
    g.Tallies ∧ ∀ c ∈ g.callSites, c.indirect = false → c.target < m.functions.length := by
  unfold compileFunction at h
  dsimp only at h
  split at h
  · rename_i r hr
    obtain ⟨g', hg', hw⟩ := Body.exists_typed_of_build (hb.onlyValues index) hr
    rw [hg'] at h
    cases h
    have ht := Body.build_tallies hr hg'
    exact ⟨ht, fun c hc hi => ht.target_lt hw hc hi⟩
  · cases h

namespace CodeTable

section Layout

variable {m : Module} {graphs : List Graph} {j k : Nat} {e : Export} {r : Reloc}

def exposed (es : List Export) : List Export := es.filter (·.kind = .func)

def calls (m : Module) (graphs : List Graph) : List Reloc :=
  (graphs.zipIdx.map fun (g, i) => (m.importedFunctions + i, g)).flatMap fun (i, g) => directCalls i g

theorem wrappers_eq (n k : Nat) (es : List Export) : wrappers n k es =
      ((exposed es).mapIdx fun j e => .exportWrapper e.index (k + j),
       (exposed es).mapIdx fun j e => ⟨n + j, noNode, e.index, .placeholder e.index⟩) := by
  induction es generalizing n k with
  | nil => rfl
  | cons e es ih =>
    unfold wrappers
    by_cases he : e.kind = .func
    · simp [exposed, he, ih, mapIdx_cons, Nat.add_comm, Nat.add_left_comm]
    · simp [exposed, he, ih]

theorem ofGraphs_eq (hm : m.importedFunctions ≤ m.functions.length) : ofGraphs m graphs =
      { entries := (List.range m.importedFunctions).map Code.placeholder ++
          graphs.mapIdx (fun j g => .function (m.importedFunctions + j) g) ++
          (exposed m.exports).mapIdx fun j e => .exportWrapper e.index ((calls m graphs).length + j)
        relocs := calls m graphs ++ (exposed m.exports).mapIdx fun j e =>
          ⟨m.importedFunctions + graphs.length + j, noNode, e.index, .placeholder e.index⟩ } := by
  unfold ofGraphs
  simp only [wrappers_eq, Nat.min_eq_left hm]
  simp [calls, mapIdx_eq_zipIdx_map, Function.comp_def]

theorem mem_calls : r ∈ calls m graphs ↔ ∃ j g c, graphs[j]? = some g ∧ c ∈ g.callSites ∧
    c.indirect = false ∧ r = ⟨m.importedFunctions + j, c.node, c.target, .placeholder c.target⟩ := by
  simp only [calls, directCalls, mem_flatMap, mem_map, Prod.exists, mem_zipIdx_iff_getElem?,
    mem_filter, Array.mem_toList_iff, Prod.mk.injEq, Bool.not_eq_true']
  constructor
  · rintro ⟨_, _, ⟨g, j, hg, rfl, rfl⟩, c, ⟨hc, hi⟩, rfl⟩
    exact ⟨j, g, c, hg, hc, hi, rfl⟩
  · rintro ⟨j, g, c, hg, hc, hi, rfl⟩
    exact ⟨_, _, ⟨g, j, hg, rfl, rfl⟩, c, ⟨hc, hi⟩, rfl⟩

section

variable (hm : m.importedFunctions ≤ m.functions.length)
include hm

theorem entry_of_lt (hk : k < m.importedFunctions) :
    (ofGraphs m graphs).entries[k]? = some (.placeholder k) := by
  rw [ofGraphs_eq hm]
  simp [hk, Nat.lt_add_right]

theorem entry_of_graph {g : Graph} (hg : graphs[k]? = some g) :
    (ofGraphs m graphs).entries[m.importedFunctions + k]? = some (.function (m.importedFunctions + k) g) := by
  obtain ⟨hk, rfl⟩ := List.getElem?_eq_some_iff.mp hg
  rw [ofGraphs_eq hm]
  simp [getElem?_append, hk]

theorem entry_of_export : (ofGraphs m graphs).entries[m.importedFunctions + graphs.length + j]? =
      (exposed m.exports)[j]?.map fun e => .exportWrapper e.index ((calls m graphs).length + j) := by
  rw [ofGraphs_eq hm, getElem?_append_right (by simp)]
  simp

theorem reloc_of_export :
    (ofGraphs m graphs).relocs[(calls m graphs).length + j]? = (exposed m.exports)[j]?.map fun e =>
      ⟨m.importedFunctions + graphs.length + j, noNode, e.index, .placeholder e.index⟩ := by
  rw [ofGraphs_eq hm, getElem?_append_right (by simp)]
  simp

theorem mem_relocs (hr : r ∈ (ofGraphs m graphs).relocs) :
    r ∈ calls m graphs ∨ ∃ e ∈ m.exports, e.kind = .func ∧ r.site = noNode ∧ r.target = e.index ∧
      r.ref = .placeholder e.index := by
  rw [ofGraphs_eq hm] at hr
  rcases mem_append.mp hr with hr | hr
  · exact .inl hr
  · obtain ⟨j, hj, rfl⟩ := mem_mapIdx.mp hr
    obtain ⟨he, hk⟩ := mem_filter.mp (getElem_mem hj)
    exact .inr ⟨_, he, by simpa using hk, rfl, rfl, rfl⟩

end

end Layout

structure Compiled (m : Module) (t : CodeTable) : Prop where
  count : m.importedFunctions ≤ m.functions.length
  imports : ∀ k < m.importedFunctions, t.entries[k]? = some (.placeholder k)
  functions : ∀ k, m.importedFunctions ≤ k → k < m.functions.length →
    ∃ g, t.entries[k]? = some (.function k g) ∧ g.Tallies
  -- the entry points and the places from which they call
  entryPoints : ∀ k c, m.functions.length ≤ k → t.entries[k]? = some c →
    ∃ i p r, c = .exportWrapper i p ∧ t.relocs[p]? = some r ∧ r.target = i
  exported : ∀ e ∈ m.exports, e.kind = .func → ∃ p, .exportWrapper e.index p ∈ t.entries
  -- the places
  targets : ∀ r ∈ t.relocs, r.target < m.functions.length ∧ t.entries[r.target]? = some r.ref
  sites : ∀ r ∈ t.relocs, r.site ≠ noNode → ∃ g x, t.entries[r.caller]? = some (.function r.caller g) ∧
    g.node? r.site = some x ∧ x.aux = r.target
  calls : ∀ k g n x, t.entries[k]? = some (.function k g) → g.node? n = some x → x.op = .call →
    ∃ r ∈ t.relocs, r.caller = k ∧ r.site = n

theorem Compiled.imported_le {m : Module} {t : CodeTable} (h : t.Compiled m) :
    m.importedFunctions ≤ t.entries.length := by
  cases hm : m.importedFunctions with
  | zero => exact Nat.zero_le _
  | succ n => exact (List.getElem?_eq_some_iff.mp (h.imports n (by omega))).1

@[simp] theorem linkReloc_caller (entries : List Code) (r : Reloc) : (linkReloc entries r).caller = r.caller := by
  unfold linkReloc
  split <;> rfl

@[simp] theorem linkReloc_site (entries : List Code) (r : Reloc) : (linkReloc entries r).site = r.site := by
  unfold linkReloc
  split <;> rfl

@[simp] theorem linkReloc_target (entries : List Code) (r : Reloc) : (linkReloc entries r).target = r.target := by
  unfold linkReloc
  split <;> rfl

@[simp] theorem link_entries (t : CodeTable) : t.link.entries = t.entries := rfl

@[simp] theorem link_relocs (t : CodeTable) : t.link.relocs = t.relocs.map (linkReloc t.entries) := rfl

/-- Linking makes a place refer to the entry of its function, if it does so already or refers to a placeholder and
the entry is none. -/
theorem linkReloc_ref {entries : List Code} {r : Reloc} {c : Code} (hc : entries[r.target]? = some c)
    (h : r.ref = c ∨ r.ref.isPlaceholder = true ∧ c.isPlaceholder = false) : (linkReloc entries r).ref = c := by
  unfold linkReloc codeFor?
  rw [hc]
  rcases h with rfl | ⟨hr, hp⟩
  · cases hp : r.ref.isPlaceholder <;> simp [hp, Option.filter_some]
  · simp [hr, hp, Option.filter_some]

structure Graphs (m : Module) (graphs : List Graph) : Prop where
  count : m.importedFunctions + graphs.length = m.functions.length
  tallies : ∀ g ∈ graphs, g.Tallies
  -- what is called or exported is a function of the module
  calls : ∀ g ∈ graphs, ∀ c ∈ g.callSites, c.indirect = false → c.target < m.functions.length
  exports : ∀ e ∈ m.exports, e.kind = .func → e.index < m.functions.length

namespace Graphs

variable {m : Module} {graphs : List Graph} {r : Reloc} {k : Nat} {g : Graph}

section

variable (h : Graphs m graphs)
include h

theorem imported_le : m.importedFunctions ≤ m.functions.length := by
  have := h.count
  omega

theorem function (hk : m.importedFunctions ≤ k) (hlt : k < m.functions.length) :
    ∃ g ∈ graphs, (ofGraphs m graphs).entries[k]? = some (.function k g) := by
  have hj : k - m.importedFunctions < graphs.length := by
    have := h.count
    omega
  have he := entry_of_graph h.imported_le (getElem?_eq_getElem hj)
  rw [Nat.add_sub_cancel' hk] at he
  exact ⟨_, getElem_mem hj, he⟩

theorem graph_of_entry {i : Nat} (he : (ofGraphs m graphs).entries[k]? = some (.function i g)) :
    ∃ j, graphs[j]? = some g ∧ k = m.importedFunctions + j ∧ i = k := by
  by_cases hk : k < m.importedFunctions
  · cases he.symm.trans (entry_of_lt h.imported_le hk)
  obtain ⟨j, rfl⟩ := Nat.exists_eq_add_of_le (Nat.le_of_not_lt hk)
  by_cases hj : j < graphs.length
  · cases he.symm.trans (entry_of_graph h.imported_le (getElem?_eq_getElem hj))
    exact ⟨j, getElem?_eq_getElem hj, rfl, rfl⟩
  · obtain ⟨j, rfl⟩ := Nat.exists_eq_add_of_le (Nat.le_of_not_lt hj)
    rw [← Nat.add_assoc, entry_of_export h.imported_le] at he
    obtain ⟨e, -, hc⟩ := Option.map_eq_some_iff.mp he
    cases hc

theorem reloc (hr : r ∈ (ofGraphs m graphs).relocs) :
    r.target < m.functions.length ∧ r.ref = .placeholder r.target := by
  rcases mem_relocs h.imported_le hr with hr | ⟨e, he, hk, -, ht, href⟩
  · obtain ⟨j, g, c, hg, hc, hi, rfl⟩ := mem_calls.mp hr
    exact ⟨h.calls g (mem_of_getElem? hg) c hc hi, rfl⟩
  · exact ⟨ht ▸ h.exports e he hk, ht ▸ href⟩

/-- Linking finds the entry of every function, which for an import is the placeholder that is there. -/
theorem link_ref (hr : r ∈ (ofGraphs m graphs).relocs) :
    (ofGraphs m graphs).entries[r.target]? = some (linkReloc (ofGraphs m graphs).entries r).ref := by
  obtain ⟨hlt, href⟩ := h.reloc hr
  by_cases hk : r.target < m.importedFunctions
  · have he : (ofGraphs m graphs).entries[r.target]? = _ := entry_of_lt h.imported_le hk
    rw [linkReloc_ref he (.inl href), he]
  · obtain ⟨g, -, he⟩ := h.function (Nat.le_of_not_lt hk) hlt
    rw [linkReloc_ref he (.inr ⟨by rw [href]; rfl, rfl⟩), he]

theorem site (hr : r ∈ (ofGraphs m graphs).relocs) (hs : r.site ≠ noNode) :
    ∃ g x, (ofGraphs m graphs).entries[r.caller]? = some (.function r.caller g) ∧
      g.node? r.site = some x ∧ x.aux = r.target := by
  rcases mem_relocs h.imported_le hr with hr | ⟨e, -, -, hsite, -⟩
  · obtain ⟨j, g, c, hg, hc, hi, rfl⟩ := mem_calls.mp hr
    obtain ⟨x, hx, -, haux⟩ := (h.tallies g (mem_of_getElem? hg)).node c hc hi
    exact ⟨g, x, entry_of_graph h.imported_le hg, hx, haux⟩
  · exact absurd hsite hs

theorem call {n : NodeId} {x : Node}
    (he : (ofGraphs m graphs).entries[k]? = some (.function k g)) (hx : g.node? n = some x) (hop : x.op = .call) :
    ∃ r ∈ (ofGraphs m graphs).relocs, r.caller = k ∧ r.site = n := by
  obtain ⟨j, hg, rfl, -⟩ := h.graph_of_entry he
  have hnoted := (h.tallies g (mem_of_getElem? hg)).noted n x hx hop
  have hcall := (mem_calls (m := m)).mpr ⟨j, g, _, hg, hnoted, rfl, rfl⟩
  rw [ofGraphs_eq h.imported_le]
  exact ⟨_, mem_append_left _ hcall, rfl, rfl⟩

theorem compiled : (ofGraphs m graphs).link.Compiled m where
  count := h.imported_le
  imports k hk := entry_of_lt h.imported_le hk
  functions k hk hlt := by
    obtain ⟨g, hg, he⟩ := h.function hk hlt
    exact ⟨g, he, h.tallies g hg⟩
  entryPoints k c hk he := by
    rw [← h.count] at hk
    obtain ⟨j, rfl⟩ := Nat.exists_eq_add_of_le hk
    rw [link_entries, entry_of_export h.imported_le] at he
    obtain ⟨e, hj, rfl⟩ := Option.map_eq_some_iff.mp he
    have hr : (ofGraphs m graphs).relocs[_]? = _ := reloc_of_export h.imported_le (j := j)
    rw [hj] at hr
    exact ⟨_, _, _, rfl, by rw [link_relocs, getElem?_map, hr]; rfl, linkReloc_target _ _⟩
  exported e he hk := by
    have hexposed : e ∈ exposed m.exports := mem_filter.mpr ⟨he, by simpa using hk⟩
    obtain ⟨j, hj⟩ := getElem?_of_mem hexposed
    have hentry : (ofGraphs m graphs).entries[_]? = _ := entry_of_export h.imported_le (j := j)
    rw [hj] at hentry
    exact ⟨_, mem_of_getElem? hentry⟩
  targets r' hr' := by
    obtain ⟨r, hr, rfl⟩ := mem_map.mp hr'
    rw [linkReloc_target]
    exact ⟨(h.reloc hr).1, h.link_ref hr⟩
  sites r' hr' hs := by
    obtain ⟨r, hr, rfl⟩ := mem_map.mp hr'
    rw [linkReloc_site] at hs
    simpa using h.site hr hs
  calls k g n x he hx hop := by
    obtain ⟨r, hr, hcaller, hsite⟩ := h.call he hx hop
    exact ⟨_, mem_map_of_mem hr, by simpa using hcaller, by simpa using hsite⟩

end

end Graphs

end CodeTable

/-- The code of a module that was decoded and compiles. -/
theorem Module.Built.compiled {m : Module} {source : List UInt8} {limit : Nat} {seen : List Section}
    (hb : m.Built source limit seen) {o : CompileOptions} {canceled : Bool} {c : CompiledModule}
    (h : m.compile o canceled = .ok c) : c.table.Compiled m := by
  obtain ⟨graphs, rfl, hgraphs⟩ := Module.compile_eq_ok h
  have htallies : ∀ g ∈ graphs,
      g.Tallies ∧ ∀ c ∈ g.callSites, c.indirect = false → c.target < m.functions.length := by
    intro g hg
    obtain ⟨j, hj⟩ := getElem?_of_mem hg
    obtain ⟨i, -, hi⟩ := forall₂_get? hgraphs.flip hj
    exact tallies_of_compileFunction hb hi
  refine CodeTable.Graphs.compiled ⟨?_, fun g hg => (htallies g hg).1, fun g hg => (htallies g hg).2, ?_⟩
  · have := hgraphs.length_eq
    have := hb.functionCount
    simp only [definedIndices, definedCount, length_map, length_range] at *
    omega
  · intro e he hk
    simpa using hb.export_lt e he hk

theorem CodeTable.Compiled.graph?_eq_some {m : Module} {c : CompiledModule} (h : c.table.Compiled m) {k : Nat}
    {g : Graph} : c.graph? m k = some g ↔
      m.importedFunctions ≤ k ∧ k < m.functions.length ∧ c.table.entries[k]? = some (.function k g) := by
  unfold CompiledModule.graph?
  constructor
  · intro hg
    split at hg
    · rename_i hk
      by_cases hi : k < m.importedFunctions
      · rw [h.imports k hi] at hg
        cases hg
      · have hi := Nat.le_of_not_lt hi
        obtain ⟨g', he, -⟩ := h.functions k hi hk
        rw [he] at hg
        cases hg
        exact ⟨hi, hk, he⟩
    · cases hg
  · rintro ⟨-, hk, he⟩
    rw [if_pos hk, he]
    rfl

end ProtoWasm
