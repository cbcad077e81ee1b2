import Mathlib.Data.List.Forall2
import ProtoWasm.Proofs.Binary.Leb128

/-! # What a reader that succeeds has read -/
namespace ProtoWasm

open List

/-- The input is a part of the source, and its offset is where that part starts. -/
def Input.CutFrom (source : List UInt8) (i : Input) : Prop :=
  ∃ before after, source = before ++ i.bytes ++ after ∧ i.offset = before.length

theorem Input.CutFrom.remaining_le {source : List UInt8} {i : Input} (h : i.CutFrom source) :
    i.remaining ≤ source.length := by
  obtain ⟨before, after, rfl, -⟩ := h
  simp only [remaining, length_append]
  omega

namespace Reader

variable {α β : Type} {i j k : Input} {r : Reader α} {f : α → Reader β} {o : Int} {n v : Nat} {what : String}
  {own source : List UInt8} {xs : List α} {a : α} {w : Leb128.Width} {ys : List β}

theorem u32_lt (h : u32 what i = .ok (n, j)) : n < 2 ^ 32 := by
  unfold u32 unsigned at h
  split at h
  · rename_i hr
    cases h
    exact Leb128.reads_unsigned.fits_of_ok (by decide) hr
  · cases h

theorem Advances.cut (hr : Advances r) (h : r i = .ok (a, j)) (hi : i.CutFrom source) : j.CutFrom source := by
  obtain ⟨used, hb, ho⟩ := hr i a j h
  obtain ⟨before, after, hs, hp⟩ := hi
  refine ⟨before ++ used, after, ?_, ?_⟩
  · simp [hs, hb]
  · rw [ho, hp, length_append]
    omega

theorem cut_window {w : Input}
    (h : window n what i = .ok (w, j)) (hi : i.CutFrom source) : w.CutFrom source := by
  obtain ⟨o, i₁, ho, h⟩ := bind_eq_ok.mp h
  obtain ⟨rfl, rfl⟩ := offset_eq_ok.mp ho
  obtain ⟨bs, i₂, ht, h⟩ := bind_eq_ok.mp h
  obtain ⟨rfl, -⟩ := pure_eq_ok.mp h
  obtain ⟨-, rfl, -⟩ := take_eq_ok.mp ht
  obtain ⟨before, after, hs, hp⟩ := hi
  refine ⟨before, i.bytes.drop n ++ after, ?_, hp⟩
  calc source = before ++ i.bytes ++ after := hs
    _ = before ++ (i.bytes.take n ++ i.bytes.drop n) ++ after := by rw [take_append_drop]
    _ = before ++ i.bytes.take n ++ (i.bytes.drop n ++ after) := by
      simp only [append_assoc]

theorem take_of_skip (hn : n ≤ i.bytes.length)
    (h : i.bytes = own ++ (i.skip n).bytes) : i.bytes.take n = own ∧ own.length = n := by
  have ho : own = i.bytes.take n := by
    apply append_inj_left' (h.symm.trans (take_append_drop n i.bytes).symm)
    rfl
  subst ho
  exact ⟨rfl, by rw [length_take, Nat.min_eq_left hn]⟩

theorem unsigned_own (h : unsigned w what i = .ok (v, j)) (hb : i.bytes = own ++ j.bytes) :
    Leb128.decodeUnsigned w own = .ok (v, own.length) := by
  unfold unsigned at h
  split at h
  · rename_i n hr
    cases h
    obtain ⟨rfl, hl⟩ := take_of_skip ((readUnsigned_pos hr).2) hb
    have := Leb128.reads_unsigned.take_append w.bits_pos hr []
    rw [append_nil] at this
    rw [hl]
    exact this
  · cases h

theorem signed_own {v : Int} (h : signed w what i = .ok (v, j)) (hb : i.bytes = own ++ j.bytes) :
    Leb128.decodeSigned w own = .ok (v, own.length) := by
  unfold signed at h
  split at h
  · rename_i n hr
    cases h
    obtain ⟨rfl, hl⟩ := take_of_skip ((readSigned_pos hr).2) hb
    have := Leb128.reads_signed.take_append w.bits_pos hr []
    rw [append_nil] at this
    rw [hl]
    exact this
  · cases h

theorem word_own (h : word n what i = .ok (v, j)) (hb : i.bytes = own ++ j.bytes) : own.length = n := by
  obtain ⟨bs, i₁, ht, h⟩ := bind_eq_ok.mp h
  obtain ⟨-, rfl⟩ := pure_eq_ok.mp h
  obtain ⟨hn, -, rfl⟩ := take_eq_ok.mp ht
  exact (take_of_skip hn hb).2

theorem forall₂_of_mapM {P : Input → Prop}
    (hP : ∀ x i y j, P i → f x i = .ok (y, j) → P j) (h : xs.mapM f i = .ok (ys, j)) (hi : P i) :
    List.Forall₂ (fun x y => ∃ i j, P i ∧ f x i = .ok (y, j)) xs ys := by
  induction xs generalizing i j ys with
  | nil =>
    obtain ⟨rfl, -⟩ := pure_eq_ok.mp h
    exact .nil
  | cons x xs ih =>
    rw [mapM_cons] at h
    obtain ⟨y, i₁, hy, h⟩ := bind_eq_ok.mp h
    obtain ⟨zs, i₂, hz, h⟩ := bind_eq_ok.mp h
    obtain ⟨rfl, -⟩ := pure_eq_ok.mp h
    exact .cons ⟨i, i₁, hi, hy⟩ (ih hz (hP x i y i₁ hi hy))

theorem length_of_mapM (h : xs.mapM f i = .ok (ys, j)) : ys.length = xs.length :=
  (forall₂_of_mapM (fun _ _ _ _ _ _ => trivial) h trivial).length_eq.symm

theorem length_of_times {r : Nat → Reader α} (h : times n r i = .ok (xs, j)) : xs.length = n := by
  rw [length_of_mapM h, length_range]

theorem forall_of_times {r : Nat → Reader α} {P : α → Prop}
    (hr : ∀ k i x j, r k i = .ok (x, j) → P x) (h : times n r i = .ok (xs, j)) : ∀ x ∈ xs, P x := by
  have hf := forall₂_of_mapM (fun _ _ _ _ _ _ => trivial) h trivial
  clear h
  generalize List.range n = ks at hf
  induction hf with
  | nil => simp
  | cons hx _ ih =>
    obtain ⟨i, j, -, hk⟩ := hx
    exact forall_mem_cons.mpr ⟨hr _ i _ j hk, ih⟩

/-- A reader that takes at least `c` bytes takes as many each time. -/
theorem remaining_of_times {r : Nat → Reader α} {c : Nat}
    (hr : ∀ k i x j, r k i = .ok (x, j) → j.remaining + c ≤ i.remaining) (h : times n r i = .ok (xs, j)) :
    j.remaining + c * xs.length ≤ i.remaining := by
  unfold times at h
  generalize List.range n = ks at h
  induction ks generalizing i xs with
  | nil =>
    obtain ⟨rfl, rfl⟩ := pure_eq_ok.mp h
    exact Nat.le_refl _
  | cons k ks ih =>
    simp only [mapM_cons, bind_eq_ok, pure_eq_ok] at h
    obtain ⟨x, i₁, hx, ys, _, hys, rfl, rfl⟩ := h
    have hfirst := hr k i x i₁ hx
    have hrest := ih hys
    rw [length_cons, Nat.mul_succ]
    omega

theorem foldlM_keeps {f : β → α → Reader β} {b c : β} {P : β → Prop}
    (hf : ∀ b x i c j, P b → f b x i = .ok (c, j) → P c) (h : xs.foldlM f b i = .ok (c, j))
    (hb : P b) : P c := by
  induction xs generalizing b i with
  | nil =>
    obtain ⟨rfl, -⟩ := pure_eq_ok.mp h
    exact hb
  | cons x xs ih =>
    rw [foldlM_cons] at h
    obtain ⟨c, i₁, hc, h⟩ := bind_eq_ok.mp h
    exact ih h (hf b x i c i₁ hb hc)

end Reader

end ProtoWasm
