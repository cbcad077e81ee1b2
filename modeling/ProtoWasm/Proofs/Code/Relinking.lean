import Mathlib.Data.List.Nodup
import ProtoWasm.Proofs.Code.Compiled

/-! # Linking in steps, as placeholders get code -/
namespace ProtoWasm.CodeTable

open List

variable {t : CodeTable} {es es' : List Code} {r : Reloc} {bs bs' : List (Nat × Code)}
  {batches : List (List (Nat × Code))}

def Keeps (es es' : List Code) : Prop :=
  ∀ (k : Nat) (c : Code), es[k]? = some c → c.isPlaceholder = false → es'[k]? = some c

theorem codeFor?_eq_some {c : Code} : codeFor? es r = some c ↔
    r.ref.isPlaceholder = true ∧ es[r.target]? = some c ∧ c.isPlaceholder = false := by
  unfold codeFor?
  split <;> simp_all

theorem linkReloc_of_linked (h : r.ref.isPlaceholder = false) : linkReloc es r = r := by
  simp [linkReloc, codeFor?, h]

theorem linkReloc_linkReloc (h : Keeps es es') (r : Reloc) : linkReloc es' (linkReloc es r) = linkReloc es' r := by
  cases hc : codeFor? es r with
  | none => rw [linkReloc.eq_def es, hc]
  | some c =>
    obtain ⟨hr, he, hcode⟩ := codeFor?_eq_some.mp hc
    have hc' : codeFor? es' r = some c := codeFor?_eq_some.mpr ⟨hr, h _ _ he hcode, hcode⟩
    have hfirst : linkReloc es r = { r with ref := c } := by rw [linkReloc, hc]
    rw [hfirst, linkReloc_of_linked hcode, linkReloc, hc']

theorem isPlaceholder_linkReloc (es : List Code) (r : Reloc) :
    (linkReloc es r).ref.isPlaceholder = (r.ref.isPlaceholder && !(codeFor? es r).isSome) := by
  cases hc : codeFor? es r with
  | none => simp [linkReloc, hc]
  | some c => simp [linkReloc, hc, (codeFor?_eq_some.mp hc).2.2]

theorem unresolved_link (t : CodeTable) : t.link.unresolved + t.linkable = t.unresolved := by
  have hsite (r : Reloc) : (codeFor? t.entries r).isSome = true → r.ref.isPlaceholder = true := by
    intro h
    obtain ⟨c, hc⟩ := Option.isSome_iff_exists.mp h
    exact (codeFor?_eq_some.mp hc).1
  unfold unresolved linkable
  rw [link_relocs, countP_map]
  induction t.relocs with
  | nil => rfl
  | cons r rs ih =>
    rw [countP_cons, countP_cons, countP_cons, ← ih, Function.comp, isPlaceholder_linkReloc]
    have hr := hsite r
    cases hc : (codeFor? t.entries r).isSome <;> cases hp : r.ref.isPlaceholder <;> simp_all <;> omega

theorem link_link (t : CodeTable) : t.link.link = t.link := by
  have hsame (r : Reloc) : linkReloc t.entries (linkReloc t.entries r) = linkReloc t.entries r :=
    linkReloc_linkReloc (fun _ _ hc _ => hc) r
  unfold link
  rw [map_map]
  exact congrArg (CodeTable.mk _) (map_congr_left fun r _ => hsame r)

def bind (t : CodeTable) (bs : List (Nat × Code)) : CodeTable := bs.foldl (fun t b => t.setEntry b.1 b.2) t

/-- Every entry that gets code is a placeholder, and gets it once. -/
structure Supplies (bs : List (Nat × Code)) (t : CodeTable) : Prop where
  once : (bs.map Prod.fst).Nodup
  code : ∀ b ∈ bs, (∃ c, t.entries[b.1]? = some c ∧ c.isPlaceholder = true) ∧ b.2.isPlaceholder = false

/-- Batch after batch gets its code, and the table is linked after each. -/
def linkBatches (t : CodeTable) (batches : List (List (Nat × Code))) : CodeTable :=
  batches.foldl (fun t bs => (t.bind bs).link) t

theorem bind_eq (t : CodeTable) (bs : List (Nat × Code)) :
    t.bind bs = { t with entries := bs.foldl (fun es b => es.set b.1 b.2) t.entries } := by
  induction bs generalizing t with
  | nil => rfl
  | cons b bs ih => exact ih (t.setEntry b.1 b.2)

theorem getElem?_bind {k : Nat} (hk : k ∉ bs.map Prod.fst) (t : CodeTable) :
    (t.bind bs).entries[k]? = t.entries[k]? := by
  induction bs generalizing t with
  | nil => rfl
  | cons b bs ih =>
    obtain ⟨hb, hbs⟩ := not_or.mp (mt mem_cons.mpr hk)
    exact (ih hbs (t.setEntry b.1 b.2)).trans (getElem?_set_ne (Ne.symm hb))

theorem Supplies.keeps (h : Supplies bs t) : Keeps t.entries (t.bind bs).entries := by
  intro k c hc hcode
  rw [getElem?_bind (fun hk => ?_) t, hc]
  obtain ⟨b, hb, rfl⟩ := mem_map.mp hk
  obtain ⟨⟨c', hc', hplaceholder⟩, -⟩ := h.code b hb
  cases hc.symm.trans hc'
  exact Bool.noConfusion (hcode.symm.trans hplaceholder)

/-- What was linked before code was supplied makes no difference. -/
theorem Supplies.link_bind_link (h : Supplies bs t) : (t.link.bind bs).link = (t.bind bs).link := by
  have hkeeps := h.keeps
  rw [bind_eq] at hkeeps ⊢
  rw [bind_eq]
  unfold link
  rw [map_map]
  exact congrArg (CodeTable.mk _) (map_congr_left fun r _ => linkReloc_linkReloc hkeeps r)

theorem Supplies.of_append (h : Supplies (bs ++ bs') t) : Supplies bs t ∧ Supplies bs' (t.bind bs) := by
  obtain ⟨hbs, hbs'⟩ := forall_mem_append.mp h.code
  have honce := h.once
  rw [map_append, nodup_append] at honce
  obtain ⟨hfirst, hsecond, hapart⟩ := honce
  refine ⟨⟨hfirst, hbs⟩, hsecond, fun b hb => ?_⟩
  obtain ⟨hplaceholder, hcode⟩ := hbs' b hb
  rw [getElem?_bind (fun hk => hapart _ hk _ (mem_map_of_mem hb) rfl) t]
  exact ⟨hplaceholder, hcode⟩

theorem linkBatches_eq (h : Supplies batches.flatten t) (hsome : batches ≠ []) :
    t.linkBatches batches = (t.bind batches.flatten).link := by
  induction batches generalizing t with
  | nil => exact absurd rfl hsome
  | cons bs batches ih =>
    rw [flatten_cons] at h
    obtain ⟨-, hrest⟩ := h.of_append
    have hall : t.bind (bs :: batches).flatten = (t.bind bs).bind batches.flatten := foldl_append
    by_cases hnil : batches = []
    · subst hnil
      rw [hall]
      rfl
    · have hlinked : Supplies batches.flatten (t.bind bs).link := ⟨hrest.once, hrest.code⟩
      rw [hall, ← hrest.link_bind_link]
      exact ih hlinked hnil

/-- The order in which placeholders get code makes no difference. -/
theorem Supplies.bind_perm (h : Supplies bs t) (hperm : bs ~ bs') : t.bind bs = t.bind bs' := by
  refine hperm.foldl_eq' (fun b hb b' hb' u => ?_) t
  by_cases hne : b.1 = b'.1
  · rw [inj_on_of_nodup_map h.once hb hb' hne]
  · exact congrArg (fun entries => { u with entries }) (set_comm _ _ hne)

theorem Supplies.perm (h : Supplies bs t) (hperm : bs ~ bs') : Supplies bs' t :=
  ⟨(hperm.map _).nodup_iff.mp h.once, fun b hb => h.code b (hperm.mem_iff.mpr hb)⟩

/-- Linking tells how many places it linked, and leaves entries and the places that were linked as they are. Linking
again does nothing. Placeholders may get their code in any order and in any number of batches, with the table linked
after each of them: the table is the one that is linked once with all the code. -/
theorem link_incremental (t : CodeTable) :
    t.link.unresolved + t.linkable = t.unresolved ∧ t.link.entries = t.entries ∧
    (∀ (k : Nat) (r : Reloc), t.relocs[k]? = some r → ∃ r', t.link.relocs[k]? = some r' ∧
      r' = { r with ref := r'.ref } ∧ (r.ref.isPlaceholder = false → r' = r)) ∧
    t.link.linkable = 0 ∧ t.link.link = t.link ∧
    ∀ (bs : List (Nat × Code)) (batches : List (List (Nat × Code))), Supplies bs t → batches.flatten ~ bs →
      batches ≠ [] → t.linkBatches batches = (t.bind bs).link := by
  have hagain := unresolved_link t.link
  rw [link_link] at hagain
  refine ⟨unresolved_link t, rfl, fun k r hr => ?_, by omega, link_link t, fun bs batches hbs hperm hsome => ?_⟩
  · refine ⟨linkReloc t.entries r, by rw [link_relocs, getElem?_map, hr]; rfl, ?_, linkReloc_of_linked⟩
    unfold linkReloc
    split <;> rfl
  · rw [linkBatches_eq (hbs.perm hperm.symm) hsome, hbs.bind_perm hperm.symm]

/-- Two imports without code, with a place that calls each of them and one that calls nothing there is. -/
def importing : CodeTable where
  entries := [.placeholder 0, .placeholder 1]
  relocs := [0, 1, 7].map fun target => { caller := 2, site := target + 1, target, ref := .placeholder target }

theorem link_incremental_importing : Supplies [(0, .reuse 0 3), (1, .importAdapter 1 4)] importing ∧
    importing.linkBatches [[(1, .importAdapter 1 4)], [], [(0, .reuse 0 3)]] =
      (importing.bind [(0, .reuse 0 3), (1, .importAdapter 1 4)]).link ∧
    (importing.bind [(0, .reuse 0 3), (1, .importAdapter 1 4)]).link.relocs.map Reloc.ref =
      [.reuse 0 3, .importAdapter 1 4, .placeholder 7] := by
  have hsupplies : Supplies [(0, .reuse 0 3), (1, .importAdapter 1 4)] importing := by
    refine ⟨by decide, ?_⟩
    simp [importing, Code.isPlaceholder]
  obtain ⟨-, -, -, -, -, hbatches⟩ := link_incremental importing
  exact ⟨hsupplies, hbatches _ _ hsupplies (.swap _ _ _) nofun, by decide⟩

end ProtoWasm.CodeTable
