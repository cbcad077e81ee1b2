import Mathlib.Data.List.Basic
import ProtoWasm.Proofs.Store.Calls

/-! # The numbers of signatures

A signature is known to a store by its text, and its number is the place of the text in a list that only gets
longer. The text says everything about a signature of values, so a function has the number of a signature
exactly if it has the signature.
-/
namespace ProtoWasm

open List

namespace ValType

/-- The letter that tells the names of values from all others. -/
theorem u_mem_name_iff {t : ValType} : 'u' ∈ t.name.toList ↔ t.isValue = false := by
  cases t with
  | i32 | i64 | f32 | f64 | void | unreachable => decide
  | unknown b => simp [name, isValue]

theorem underscore_not_mem_name (t : ValType) : '_' ∉ t.name.toList := by
  cases t with
  | i32 | i64 | f32 | f64 | void | unreachable => decide
  | unknown b => simp [name]

theorem length_name {t : ValType} (h : t.isValue = true) : t.name.toList.length = 3 := by
  cases t with
  | i32 | i64 | f32 | f64 => decide
  | void | unreachable | unknown b => cases h

/-- The type of values that has a name. -/
def ofName (name : List Char) : ValType :=
  if name = ['i', '3', '2'] then i32
  else if name = ['i', '6', '4'] then i64
  else if name = ['f', '3', '2'] then f32
  else f64

theorem ofName_name {t : ValType} (h : t.isValue = true) : ofName t.name.toList = t := by
  cases t with
  | i32 | i64 | f32 | f64 => decide
  | void | unreachable | unknown b => cases h

theorem flatMap_name_inj {ts us : List ValType} (hts : ∀ t ∈ ts, t.isValue = true)
    (hus : ∀ u ∈ us, u.isValue = true)
    (h : ts.flatMap (·.name.toList) = us.flatMap (·.name.toList)) : ts = us := by
  induction ts generalizing us with
  | nil =>
    cases us with
    | nil => rfl
    | cons u us =>
      have hlen := congrArg List.length h
      rw [flatMap_cons, length_append, length_name (hus u mem_cons_self), flatMap_nil,
        length_nil] at hlen
      omega
  | cons t ts ih =>
    obtain ⟨ht, hts⟩ := forall_mem_cons.mp hts
    cases us with
    | nil =>
      have hlen := congrArg List.length h
      rw [flatMap_cons, length_append, length_name ht, flatMap_nil, length_nil] at hlen
      omega
    | cons u us =>
      obtain ⟨hu, hus⟩ := forall_mem_cons.mp hus
      rw [flatMap_cons, flatMap_cons] at h
      obtain ⟨hname, hrest⟩ := append_inj h ((length_name ht).trans (length_name hu).symm)
      rw [← ofName_name ht, hname, ofName_name hu, ih hts hus hrest]

end ValType

namespace FuncType

theorem toList_listText (ts : List ValType) :
    (listText ts).toList = if ts = [] then ['v'] else ts.flatMap (·.name.toList) := by
  cases ts with
  | nil => decide
  | cons t ts => simp [listText, flatMap_map]

theorem underscore_not_mem_listText (ts : List ValType) : '_' ∉ (listText ts).toList := by
  rw [toList_listText]
  split
  · decide
  · rw [mem_flatMap]
    rintro ⟨t, -, ht⟩
    exact t.underscore_not_mem_name ht

theorem u_mem_listText_iff {ts : List ValType} :
    'u' ∈ (listText ts).toList ↔ ∃ t ∈ ts, t.isValue = false := by
  rw [toList_listText]
  split
  · simp_all
  · simp only [mem_flatMap, ValType.u_mem_name_iff]

theorem listText_inj {ts us : List ValType} (hts : ∀ t ∈ ts, t.isValue = true) (h : listText ts = listText us) :
    ts = us := by
  have hus : ∀ u ∈ us, u.isValue = true := by
    intro u hu
    by_contra hvalue
    have hletter : 'u' ∈ (listText ts).toList := by
      rw [h, u_mem_listText_iff]
      exact ⟨u, hu, Bool.eq_false_iff.mpr hvalue⟩
    obtain ⟨t, ht, hfalse⟩ := u_mem_listText_iff.mp hletter
    exact absurd (hts t ht) (by simp [hfalse])
  have hchars := congrArg String.toList h
  simp only [toList_listText] at hchars
  -- no name is as short as what an empty side is written as
  have hshort : ∀ vs : List ValType, (∀ v ∈ vs, v.isValue = true) → vs ≠ [] →
      ['v'] ≠ vs.flatMap (·.name.toList) := by
    intro vs hvs hne heq
    cases vs with
    | nil => exact hne rfl
    | cons v vs =>
      have hlen := congrArg List.length heq
      rw [flatMap_cons, length_append, ValType.length_name (hvs v mem_cons_self),
        length_singleton] at hlen
      omega
  split at hchars
  · rename_i hnil
    split at hchars
    · rename_i hnil'
      rw [hnil, hnil']
    · rename_i hne
      exact absurd hchars (hshort us hus hne)
  · rename_i hne
    split at hchars
    · exact absurd hchars.symm (hshort ts hts hne)
    · exact ValType.flatMap_name_inj hts hus hchars

theorem text_inj {t u : FuncType} (ht : t.isValue = true) (h : t.text = u.text) : t = u := by
  rw [isValue, Bool.and_eq_true, all_eq_true, all_eq_true] at ht
  have hchars := congrArg String.toList h
  simp only [text, String.toList_append] at hchars
  rw [show "_".toList = ['_'] from by decide, append_assoc, append_assoc, singleton_append,
    singleton_append, append_cons_inj_of_notMem (underscore_not_mem_listText _)
      (underscore_not_mem_listText _)] at hchars
  obtain ⟨hparams, -, hresults⟩ := hchars
  have hp := listText_inj ht.1 (String.toList_inj.mp hparams)
  have hr := listText_inj ht.2 (String.toList_inj.mp hresults)
  cases t
  cases u
  cases hp
  cases hr
  rfl

end FuncType

namespace Store

open StoreM

variable {s s' s'' : Store}

/-- No signature has two numbers, and functions have the numbers of their signatures, which are signatures of
values. -/
structure Typed (s : Store) : Prop where
  nodup : s.signatures.Nodup
  functions : ∀ (k : FunctionId) f, s.functions[k]? = some f →
    f.type.isValue = true ∧ s.signatures[f.typeId]? = some f.type.text

theorem getElem?_of_first {α : Type} {xs ys : List α} (h : xs <+: ys) {k : Nat} {a : α} (ha : xs[k]? = some a) :
    ys[k]? = some a := by
  obtain ⟨rest, rfl⟩ := h
  rw [getElem?_append_left (List.getElem?_eq_some_iff.mp ha).1, ha]

/-- The number of a signature tells the functions that have it from all others. -/
theorem Typed.typeId_eq_iff (h : s.Typed) (t : FuncType) :
    ∃ id signatures, typeId t s = .ok (id, { s with signatures }) ∧
      ∀ (k : FunctionId) f, s.functions[k]? = some f → (f.typeId = id ↔ f.type = t) := by
  have hdoes : Does True (typeId t) s fun id s' => ∃ signatures, s' = { s with signatures } ∧
      ∀ (k : FunctionId) f, s.functions[k]? = some f → (f.typeId = id ↔ f.type = t) := by
    apply does_typeId
    intro id signatures hfirst hid hnodup
    refine ⟨signatures, rfl, ?_⟩
    intro k f hf
    obtain ⟨hvalue, hnumber⟩ := h.functions k f hf
    have hnumber' := getElem?_of_first hfirst hnumber
    constructor
    · rintro rfl
      exact FuncType.text_inj hvalue (Option.some.inj (hnumber'.symm.trans hid))
    · rintro rfl
      have hlt := (List.getElem?_eq_some_iff.mp hid).1
      exact ((getElem?_inj hlt (hnodup h.nodup)).mp (hid.trans hnumber'.symm)).symm
  obtain ⟨id, s', hr⟩ := hdoes.not_defect trivial
  obtain ⟨signatures, rfl, hiff⟩ := hdoes.of_eq hr
  exact ⟨id, signatures, hr, hiff⟩

end Store

end ProtoWasm
