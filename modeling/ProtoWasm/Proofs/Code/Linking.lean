import ProtoWasm.Proofs.Code.Compiled

/-! # Every place of a linked table refers to the function that it calls -/
namespace ProtoWasm

open List

theorem Code.isPlaceholder_iff {c : Code} : c.isPlaceholder = true ↔ c.kind = .placeholder := by
  cases c <;> simp [isPlaceholder, kind]

namespace CodeTable

variable {m : Module} {t t' : CodeTable} {k : Nat}

structure Binds (imported : Nat) (t t' : CodeTable) : Prop where
  relocs : t'.relocs = t.relocs
  imports : ∀ k < imported, ∃ c, t'.entries[k]? = some c ∧ c.index = k ∧
    (c.kind = .importAdapter ∨ c.kind = .reuse)
  others : ∀ k, imported ≤ k → t'.entries[k]? = t.entries[k]?

/-- The second table is that of an instance with everything linked, and the first that of its module. -/
structure Resolves (m : Module) (t t' : CodeTable) : Prop where
  imports : ∀ k < m.importedFunctions, ∃ c, t'.entries[k]? = some c ∧ c.index = k ∧
    (c.kind = .importAdapter ∨ c.kind = .reuse)
  functions : ∀ k, m.importedFunctions ≤ k → k < m.functions.length → ∃ g, t'.entries[k]? = some (.function k g)
  targets : ∀ r ∈ t'.relocs, r.target < m.functions.length ∧ t'.entries[r.target]? = some r.ref
  calls : ∀ k g n x, t'.entries[k]? = some (.function k g) → g.node? n = some x → x.op = .call →
    ∃ p r, t.site? k n = some p ∧ t'.relocs[p]? = some r ∧ r.target = x.aux
  wrappers : ∀ k w, t'.wrapper? k = some w →
    ∃ p r, w = .exportWrapper k p ∧ t'.relocs[p]? = some r ∧ r.target = k
  exported : ∀ e ∈ m.exports, e.kind = .func → ∃ w, t'.wrapper? e.index = some w

namespace Resolves

theorem entry (h : Resolves m t t') (hk : k < m.functions.length) :
    ∃ c, t'.entries[k]? = some c ∧ c.index = k ∧ c.kind ≠ .placeholder ∧ c.kind ≠ .exportWrapper := by
  by_cases hi : k < m.importedFunctions
  · obtain ⟨c, hc, hindex, hkind⟩ := h.imports k hi
    refine ⟨c, hc, hindex, ?_⟩
    rcases hkind with hkind | hkind <;> rw [hkind] <;> exact ⟨CodeKind.noConfusion, CodeKind.noConfusion⟩
  · obtain ⟨g, hg⟩ := h.functions k (Nat.le_of_not_lt hi) hk
    exact ⟨_, hg, rfl, CodeKind.noConfusion, CodeKind.noConfusion⟩

theorem ref (h : Resolves m t t') {r : Reloc} (hr : r ∈ t'.relocs) :
    r.ref.index = r.target ∧ r.ref.kind ≠ .placeholder ∧ r.ref.kind ≠ .exportWrapper := by
  obtain ⟨hlt, href⟩ := h.targets r hr
  obtain ⟨c, hc, hcode⟩ := h.entry hlt
  cases href.symm.trans hc
  exact hcode

theorem unresolved (h : Resolves m t t') : t'.unresolved = 0 := by
  apply countP_eq_zero.mpr
  intro r hr hp
  exact (h.ref hr).2.1 (Code.isPlaceholder_iff.mp hp)

end Resolves

namespace Compiled

theorem site? (h : t.Compiled m) {g : Graph} {n : NodeId} {x : Node}
    (he : t.entries[k]? = some (.function k g)) (hx : g.node? n = some x) (hop : x.op = .call) :
    ∃ p r, t.site? k n = some p ∧ t.relocs[p]? = some r ∧ r.target = x.aux := by
  have hn : n ≠ noNode := by
    rintro rfl
    cases hx
  obtain ⟨r, hr, rfl, rfl⟩ := h.calls k g n x he hx hop
  have hsome : (t.site? r.caller r.site).isSome = true := by
    rw [CodeTable.site?, findIdx?_isSome, any_eq_true]
    exact ⟨r, hr, by simp [hn]⟩
  obtain ⟨p, hp⟩ := Option.isSome_iff_exists.mp hsome
  obtain ⟨hlt, hmatch, -⟩ := findIdx?_eq_some_iff_getElem.mp hp
  simp only [Bool.and_eq_true, bne_iff_ne, beq_iff_eq] at hmatch
  obtain ⟨⟨hsite, hcaller⟩, hnode⟩ := hmatch
  -- any place with this caller and this node is one of the calls of the graph
  obtain ⟨g', x', he', hx', haux⟩ := h.sites _ (getElem_mem hlt) hsite
  rw [hcaller] at he'
  cases he.symm.trans he'
  rw [hnode] at hx'
  cases hx.symm.trans hx'
  exact ⟨p, _, hp, getElem?_eq_getElem hlt, haux.symm⟩

variable {t₁ : CodeTable} (h : t.Compiled m) (hb : Binds m.importedFunctions t t₁)
include h hb

/-- Linking finds the code of imports, and what was linked before stays. -/
theorem link_ref {r : Reloc} (hr : r ∈ t.relocs) :
    t₁.entries[r.target]? = some (linkReloc t₁.entries r).ref := by
  obtain ⟨-, href⟩ := h.targets r hr
  by_cases hk : r.target < m.importedFunctions
  · obtain ⟨c, hc, -, hkind⟩ := hb.imports _ hk
    have hr : r.ref.isPlaceholder = true := by
      rw [Option.some.inj (href.symm.trans (h.imports _ hk))]
      rfl
    have hcode : c.isPlaceholder = false := by
      rw [Bool.eq_false_iff, ne_eq, Code.isPlaceholder_iff]
      rcases hkind with hkind | hkind <;> rw [hkind] <;> exact CodeKind.noConfusion
    rw [linkReloc_ref hc (.inr ⟨hr, hcode⟩), hc]
  · rw [← hb.others _ (Nat.le_of_not_lt hk)] at href
    rw [linkReloc_ref href (.inl rfl), href]

/-- Only entries behind those of functions are entry points. -/
theorem le_of_wrapper {c : Code} (hc : t₁.entries[k]? = some c) (hkind : c.kind = .exportWrapper) :
    m.functions.length ≤ k := by
  apply Nat.le_of_not_lt
  intro hk
  by_cases hi : k < m.importedFunctions
  · obtain ⟨c', hc', -, hkind'⟩ := hb.imports k hi
    cases hc.symm.trans hc'
    rw [hkind] at hkind'
    rcases hkind' with hkind' | hkind' <;> cases hkind'
  · have hi := Nat.le_of_not_lt hi
    obtain ⟨g, hg, -⟩ := h.functions k hi hk
    cases hc.symm.trans ((hb.others k hi).trans hg)
    cases hkind

theorem resolves : Resolves m t t₁.link where
  imports := hb.imports
  functions k hk hlt := by
    obtain ⟨g, hg, -⟩ := h.functions k hk hlt
    exact ⟨g, (hb.others k hk).trans hg⟩
  targets r' hr' := by
    rw [link_relocs, hb.relocs] at hr'
    obtain ⟨r, hr, rfl⟩ := mem_map.mp hr'
    rw [linkReloc_target]
    exact ⟨(h.targets r hr).1, h.link_ref hb hr⟩
  calls k g n x he hx hop := by
    have hk : m.importedFunctions ≤ k := by
      apply Nat.le_of_not_lt
      intro hk
      obtain ⟨c, hc, -, hkind⟩ := hb.imports k hk
      cases hc.symm.trans he
      rcases hkind with hkind | hkind <;> cases hkind
    obtain ⟨p, r, hp, hr, htarget⟩ := h.site? ((hb.others k hk).symm.trans he) hx hop
    have hlinked : t₁.link.relocs[p]? = some (linkReloc t₁.entries r) := by
      rw [link_relocs, getElem?_map, hb.relocs, hr]
      rfl
    exact ⟨p, _, hp, hlinked, (linkReloc_target _ _).trans htarget⟩
  wrappers k w hw := by
    have hmatch := find?_some hw
    simp only [Bool.and_eq_true, beq_iff_eq] at hmatch
    obtain ⟨hkind, rfl⟩ := hmatch
    obtain ⟨j, hj⟩ := getElem?_of_mem (mem_of_find?_eq_some hw)
    have hle := h.le_of_wrapper hb hj hkind
    have hold := (hb.others j (Nat.le_trans h.count hle)).symm.trans hj
    obtain ⟨i, p, r, rfl, hr, htarget⟩ := h.entryPoints j w hle hold
    have hlinked : t₁.link.relocs[p]? = some (linkReloc t₁.entries r) := by
      rw [link_relocs, getElem?_map, hb.relocs, hr]
      rfl
    exact ⟨p, _, rfl, hlinked, (linkReloc_target _ _).trans htarget⟩
  exported e he hk := by
    obtain ⟨p, hp⟩ := h.exported e he hk
    obtain ⟨j, hj⟩ := getElem?_of_mem hp
    have hle : m.importedFunctions ≤ j := by
      apply Nat.le_of_not_lt
      intro hlt
      cases hj.symm.trans (h.imports j hlt)
    have hmem := mem_of_getElem? ((hb.others j hle).trans hj)
    apply Option.isSome_iff_exists.mp
    rw [wrapper?, find?_isSome]
    exact ⟨_, hmem, by simp [Code.kind, Code.index]⟩

end Compiled

end CodeTable

end ProtoWasm
