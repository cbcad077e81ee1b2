import ProtoWasm.Memory.Basic

/-! # What operations do to the size and the bytes of a memory -/
namespace ProtoWasm

namespace LittleEndian

theorem getElem?_encode (count n i : Nat) :
    (encode count n)[i]? = if i < count then some (UInt8.ofNat (n / 256 ^ i)) else none := by
  induction count generalizing n i with
  | zero => rfl
  | succ count ih =>
    cases i with
    | zero =>
      have hlow : UInt8.ofNat (n % 256) = UInt8.ofNat n := UInt8.ofNat_mod_size
      simp [encode, hlow]
    | succ i => simp [encode, ih, Nat.div_div_eq_div_mul, Nat.pow_succ']

end LittleEndian

namespace Buffer

variable {b : Buffer} {offset : Nat} {bs : List UInt8}

theorem size_write (b : Buffer) (offset : Nat) (bs : List UInt8) : (b.write offset bs).size = b.size := by
  unfold write
  generalize (bs.take (b.size - offset)).zipIdx = xs
  induction xs generalizing b with
  | nil => rfl
  | cons x xs ih => exact ih (b.set (offset + x.2) x.1)

theorem get_set (b : Buffer) (i : Nat) (v : UInt8) (a : Nat) :
    (b.set i v).get a = if i = a then v else b.get a := by
  simp [set, get, Std.HashMap.getD_insert]

/-- Bytes that are set one after the other are found where they were set. -/
theorem get_foldl_set (b : Buffer) (offset k a : Nat) (bs : List UInt8) :
    ((bs.zipIdx k).foldl (fun b (v, i) => b.set (offset + i) v) b).get a =
      if offset + k ≤ a then bs[a - (offset + k)]?.getD (b.get a) else b.get a := by
  induction bs generalizing b k with
  | nil => simp
  | cons v bs ih =>
    simp only [List.zipIdx_cons, List.foldl_cons, ih, get_set]
    rcases Nat.lt_trichotomy a (offset + k) with hlt | rfl | hgt
    · rw [if_neg (by omega), if_neg (by omega), if_neg (by omega)]
    · rw [if_neg (by omega), if_pos rfl, if_pos (Nat.le_refl _), Nat.sub_self]
      rfl
    · have hstep : a - (offset + k) = a - (offset + (k + 1)) + 1 := by omega
      rw [if_pos (by omega), if_neg (by omega), if_pos (by omega), hstep, List.getElem?_cons_succ]

theorem get_write (h : offset + bs.length ≤ b.size) (a : Nat) :
    (b.write offset bs).get a = if offset ≤ a then bs[a - offset]?.getD (b.get a) else b.get a := by
  unfold write
  rw [List.take_of_length_le (by omega), get_foldl_set]
  rfl

end Buffer

theorem Reservation.reserve_ok {capacity committed : Nat} {r : Reservation}
    (h : Reservation.reserve capacity committed = .ok r) : r.buffer = .zeros committed := by
  unfold Reservation.reserve Reservation.commit at h
  split at h
  · cases h
  · split at h
    · cases h
      rfl
    · rename_i hsize
      cases h
      rw [Nat.eq_zero_of_not_pos hsize]
      rfl

/-- What fits can be committed, and nothing that is there changes. -/
theorem Reservation.commit_eq {r : Reservation} {size : Nat} (h : size ≤ r.capacity) (hs : r.buffer.size ≤ size) :
    r.commit size = .ok { r with buffer := r.buffer.extend size } := by
  unfold commit
  rw [if_neg (Nat.not_lt.mpr h)]
  split
  · rfl
  · rename_i hle
    obtain rfl : r.buffer.size = size := Nat.le_antisymm hs (Nat.le_of_not_lt hle)
    rfl

namespace Memory

variable {ρ : Type} {m m' : Memory ρ} {min max size : Nat} {guarded : Bool}

theorem create_ok {mem : Memory ρ} (h : Memory.create min max guarded = .ok mem) :
    mem.dependents = [] ∧ mem.pages = min ∧ mem.max = max ∧ ∀ a, mem.buffer.get a = 0 := by
  have hnew : mem.dependents = [] ∧ mem.buffer = .zeros (bytesOfPages min) ∧ mem.max = max := by
    unfold Memory.create at h
    split at h
    · split at h
      · rename_i r hr
        cases h
        exact ⟨rfl, Reservation.reserve_ok hr, rfl⟩
      · cases h
    · cases h
      exact ⟨rfl, rfl, rfl⟩
  obtain ⟨hfree, hbuffer, hmax⟩ := hnew
  rw [pages, size, hbuffer]
  exact ⟨hfree, Nat.mul_div_cancel min (by decide), hmax, fun _ => Std.HashMap.getD_empty⟩

theorem create_error {r : Reason} (h : (Memory.create min max guarded : Except Reason (Memory ρ)) = .error r) :
    r = .reserve max (bytesOfPages min) (bytesOfPages max) := by
  unfold Memory.create at h
  split at h
  · split at h
    · cases h
    · cases h
      rfl
  · cases h

/-- The range that was reserved for a memory has room for all pages that it may have. -/
def Roomy (m : Memory ρ) : Prop := ∀ r, m.backing = .reserved r → r.capacity = bytesOfPages m.max

/-- A memory whose first pages are not more than it may have can be made, and all its bytes are zero. -/
theorem exists_create (h : min ≤ max) (guarded : Bool) :
    ∃ mem : Memory ρ, create min max guarded = .ok mem ∧ mem.isGuarded = guarded ∧ mem.max = max ∧ mem.Roomy ∧
      mem.buffer = .zeros (bytesOfPages min) := by
  cases guarded with
  | false => exact ⟨_, rfl, rfl, rfl, nofun, rfl⟩
  | true =>
    have hle : bytesOfPages min ≤ bytesOfPages max := Nat.mul_le_mul_right _ h
    have hr : Reservation.reserve (bytesOfPages max) (bytesOfPages min) =
        .ok { capacity := bytesOfPages max, buffer := .zeros (bytesOfPages min) } :=
      Reservation.commit_eq hle (Nat.zero_le _)
    unfold create
    rw [if_pos rfl, hr]
    refine ⟨_, rfl, rfl, rfl, ?_, rfl⟩
    rintro r ⟨⟩
    rfl

@[simp] theorem buffer_setBuffer (m : Memory ρ) (b : Buffer) : (m.setBuffer b).buffer = b := by
  unfold setBuffer buffer
  cases m.backing <;> rfl

theorem size_setBuffer (m : Memory ρ) (b : Buffer) : (m.setBuffer b).size = b.size := by
  rw [size, buffer_setBuffer]

theorem Roomy.setBuffer (h : m.Roomy) (b : Buffer) : (m.setBuffer b).Roomy := by
  intro r hr
  unfold Memory.setBuffer at hr
  cases hb : m.backing with
  | block b' =>
    rw [hb] at hr
    cases hr
  | reserved r' =>
    rw [hb] at hr
    cases hr
    exact h r' hb

theorem resize_ok (h : m.resize size = .ok m') (hs : m.size ≤ size) :
    m'.size = size ∧ m'.min = m.min ∧ m'.max = m.max ∧ m'.dependents = m.dependents := by
  unfold resize at h
  cases hb : m.backing with
  | block b =>
    rw [hb] at h
    cases h
    exact ⟨rfl, rfl, rfl, rfl⟩
  | reserved r =>
    rw [hb] at h
    have hsize : r.buffer.size ≤ size := by
      rw [Memory.size, buffer, hb] at hs
      exact hs
    cases hr : r.commit size with
    | error e =>
      simp only [hr] at h
      cases h
    | ok r' =>
      simp only [hr] at h
      cases h
      refine ⟨?_, rfl, rfl, rfl⟩
      change r'.buffer.size = size
      unfold Reservation.commit at hr
      split at hr
      · cases hr
      · split at hr
        · cases hr
          rfl
        · rename_i hle
          cases hr
          exact Nat.le_antisymm hsize (Nat.le_of_not_lt hle)

theorem grow_ok {delta : Nat} (h : m.grow delta = .ok m') :
    m.size ≤ m'.size ∧ m'.min = m.min ∧ m'.max = m.max ∧ m'.dependents = m.dependents := by
  unfold grow at h
  split at h
  · cases h
    exact ⟨Nat.le_refl _, rfl, rfl, rfl⟩
  · rename_i hdelta
    split at h
    · cases h
    · have hs : m.size ≤ bytesOfPages (m.pages + delta) := by
        unfold bytesOfPages pages pageSize
        omega
      obtain ⟨hsize, hrest⟩ := resize_ok h hs
      exact ⟨hsize ▸ hs, hrest⟩

theorem Roomy.exists_resize (h : m.Roomy) (hs : m.size ≤ size) (hmax : size ≤ bytesOfPages m.max) :
    ∃ m', m.resize size = .ok m' ∧ m'.buffer = m.buffer.extend size ∧ m'.max = m.max ∧ m'.Roomy := by
  unfold resize
  cases hb : m.backing with
  | block b =>
    refine ⟨_, rfl, ?_, rfl, nofun⟩
    rw [buffer, buffer, hb]
  | reserved r =>
    have hsize : r.buffer.size ≤ size := by
      rw [Memory.size, buffer, hb] at hs
      exact hs
    have hcapacity := h r hb
    simp only [Reservation.commit_eq (hcapacity ▸ hmax) hsize]
    refine ⟨_, rfl, ?_, rfl, ?_⟩
    · rw [buffer, buffer, hb]
    · rintro r' ⟨⟩
      exact hcapacity

end Memory

end ProtoWasm
