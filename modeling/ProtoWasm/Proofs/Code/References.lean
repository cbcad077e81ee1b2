import ProtoWasm.Proofs.Code.Compiled
import ProtoWasm.Store.Basic

/-! # References to the memory

The code of an instance finds what a node embeds of the memory by the function and the number of the node. In the table
of a module that was compiled no two functions share an index, and a graph notes each node that depends on the memory.
-/
namespace ProtoWasm

open List

namespace CodeTable

/-- Functions have the entries of their indices, and their graphs note what they embed of the memory. -/
def Annotated (t : CodeTable) : Prop :=
  ∀ (k i : Nat) (g : Graph), t.entries[k]? = some (.function i g) → i = k ∧ g.Tallies

theorem Compiled.annotated {m : Module} {t : CodeTable} (h : t.Compiled m) : t.Annotated := by
  intro k i g he
  by_cases hi : k < m.importedFunctions
  · cases he.symm.trans (h.imports k hi)
  by_cases hk : k < m.functions.length
  · obtain ⟨g', hg', ht⟩ := h.functions k (Nat.le_of_not_lt hi) hk
    cases he.symm.trans hg'
    exact ⟨rfl, ht⟩
  · obtain ⟨_, _, _, hc, -⟩ := h.entryPoints k _ (Nat.le_of_not_lt hk) he
    cases hc

theorem Annotated.unique {t : CodeTable} (h : t.Annotated) {k : Nat} {g g' : Graph} (hg : .function k g ∈ t.entries)
    (hg' : .function k g' ∈ t.entries) : g = g' := by
  obtain ⟨j, hj⟩ := getElem?_of_mem hg
  obtain ⟨j', hj'⟩ := getElem?_of_mem hg'
  obtain rfl := (h j k g hj).1
  obtain rfl := (h j' k g' hj').1
  cases hj.symm.trans hj'
  rfl

theorem Annotated.tallies {t : CodeTable} (h : t.Annotated) {k : Nat} {g : Graph} (hg : .function k g ∈ t.entries) :
    g.Tallies := by
  obtain ⟨j, hj⟩ := getElem?_of_mem hg
  exact (h j k g hj).2

end CodeTable

theorem Embedded.relocate_of (kind : MemoryRefKind) (e e' : Extent) :
    (Embedded.of kind e).relocate e' = .of kind e' := by
  cases kind <;> rfl

namespace LinkedCode

variable {c : LinkedCode} {t : CodeTable} {e : Extent}

theorem mem_sitesOf {site : MemorySite} : site ∈ sitesOf t e ↔
    ∃ k g r, .function k g ∈ t.entries ∧ r ∈ g.memoryRefs ∧ site = ⟨k, r.node, .of r.kind e⟩ := by
  unfold sitesOf
  rw [mem_flatMap]
  constructor
  · rintro ⟨code, hcode, hsite⟩
    split at hsite
    · obtain ⟨r, hr, rfl⟩ := mem_map.mp hsite
      exact ⟨_, _, r, hcode, Array.mem_toList_iff.mp hr, rfl⟩
    · cases hsite
  · rintro ⟨k, g, r, hcode, hr, rfl⟩
    exact ⟨_, hcode, mem_map.mpr ⟨r, Array.mem_toList_iff.mpr hr, rfl⟩⟩

def Embeds (c : LinkedCode) (e : Extent) : Prop := c.memorySites = sitesOf c.table e

/-- Code that is told of another extent embeds that one, whatever it embedded before. -/
theorem Embeds.relocate (h : c.Embeds e) (target : Extent) : (c.relocate target).Embeds target := by
  change c.memorySites.map _ = sitesOf c.table target
  rw [h, sitesOf, sitesOf, map_flatMap]
  congr 1
  funext code
  cases code with
  | function k g =>
    simp only [map_map]
    congr 1
    funext r
    simp only [Function.comp_apply, Embedded.relocate_of]
  | placeholder | exportWrapper | importAdapter | reuse | unknown => rfl

/-- The value of a node that embeds something of the memory is recorded, and is that of the extent. -/
theorem Embeds.memoryValue? (h : c.Embeds e) (ht : c.table.Annotated) {k : Nat} {g : Graph}
    (hg : .function k g ∈ c.table.entries) {n : NodeId} {x : Node} (hx : g.node? n = some x) {kind : MemoryRefKind}
    (hop : x.op = kind.op) : c.memoryValue? k n = some (.of kind e) := by
  have hnoted := (ht.tallies hg).embedded n x kind hx hop
  have hsome : (c.memorySites.find? fun s => s.function == k && s.node == n).isSome = true := by
    rw [find?_isSome]
    refine ⟨⟨k, n, .of kind e⟩, ?_, by simp⟩
    rw [h]
    exact mem_sitesOf.mpr ⟨k, g, _, hg, hnoted, rfl⟩
  obtain ⟨site, hsite⟩ := Option.isSome_iff_exists.mp hsome
  have hmatch := find?_some hsite
  simp only [Bool.and_eq_true, beq_iff_eq] at hmatch
  -- any site of this function and this node is that of the note
  have hmem := mem_of_find?_eq_some hsite
  rw [h] at hmem
  obtain ⟨k', g', r, hg', hr, rfl⟩ := mem_sitesOf.mp hmem
  obtain ⟨rfl, rfl⟩ : k' = k ∧ r.node = n := hmatch
  obtain rfl := ht.unique hg hg'
  obtain ⟨y, hy, hkind⟩ := (ht.tallies hg).embedding r hr
  cases hx.symm.trans hy
  obtain rfl := MemoryRefKind.op_injective (hop.symm.trans hkind)
  rw [LinkedCode.memoryValue?, hsite, Option.map_some]

end LinkedCode

end ProtoWasm
