import Mathlib.Data.Nat.Digits.Defs
import ProtoWasm.Binary.Progress
import ProtoWasm.Error

/-! # Numerals of groups of seven bits

The bytes of a number are a numeral, and its value is given by arithmetic alone. Reading accepts exactly the numerals
that are not too long and whose value fits, signed or not, and writing gives the shortest numeral of a value.
-/
namespace ProtoWasm.Leb128

open List

variable {bits k n v : Nat} {bytes ds : List UInt8} {w : Width}

def Width.maxLength (w : Width) : Nat := (w.bits + 6) / 7

theorem Width.bits_pos (w : Width) : 0 < w.bits := by
  cases w <;> decide

def Width.overflow : Width → Mark
  | w32 => .overflow32
  | w64 => .overflow64

def Continues (bytes : List UInt8) : Prop := ∀ b ∈ bytes, 128 ≤ b.toNat

/-- Bytes with the high bit set and one without. -/
inductive Numeral : List UInt8 → Prop
  | last {b : UInt8} (h : b.toNat < 128) : Numeral [b]
  | more {b : UInt8} {ds : List UInt8} (h : 128 ≤ b.toNat) (hd : Numeral ds) : Numeral (b :: ds)

/-- The number that the groups of seven bits make up, lowest group first. -/
def magnitude (bytes : List UInt8) : Nat := Nat.ofDigits 128 (bytes.map fun b => b.toNat % 128)

/-- The number of that many bits whose highest bit is its sign. -/
def signedValue (bytes : List UInt8) : Int := (magnitude bytes : Int).bmod (128 ^ bytes.length)

theorem magnitude_cons (b : UInt8) (ds : List UInt8) :
    magnitude (b :: ds) = b.toNat % 128 + 128 * magnitude ds := by
  rw [magnitude, map_cons, Nat.ofDigits_cons]
  rfl

theorem magnitude_lt (ds : List UInt8) : magnitude ds < 128 ^ ds.length := by
  have h := Nat.ofDigits_lt_base_pow_length (b := 128) (l := ds.map fun b => b.toNat % 128) (by decide) (by
    simp only [mem_map, forall_exists_index, and_imp]
    rintro x b - rfl
    exact Nat.mod_lt _ (by decide))
  rwa [length_map] at h

theorem signedValue_eq (ds : List UInt8) : signedValue ds =
    if 2 * magnitude ds < 128 ^ ds.length then (magnitude ds : Int) else magnitude ds - (128 ^ ds.length : Nat) := by
  have hlt := magnitude_lt ds
  rw [signedValue, Int.bmod_def]
  generalize 128 ^ ds.length = m at hlt ⊢
  rw [Int.emod_eq_of_lt (by omega) (by omega)]
  split <;> split <;> omega

theorem signedValue_last {b : UInt8} (h : b.toNat < 128) :
    signedValue [b] = if b.toNat < 64 then (b.toNat : Int) else b.toNat - 128 := by
  have hm : magnitude [b] = b.toNat := by
    rw [magnitude_cons, Nat.mod_eq_of_lt h]
    rfl
  rw [signedValue_eq, hm, length_singleton, Nat.pow_one]
  split <;> split <;> omega

theorem signedValue_cons (b : UInt8) (hd : ds ≠ []) :
    signedValue (b :: ds) = (b.toNat % 128 : Nat) + 128 * signedValue ds := by
  have hlow : b.toNat % 128 < 128 := Nat.mod_lt _ (by decide)
  obtain ⟨m, hm⟩ : ∃ m, 128 ^ ds.length = 2 * m := by
    obtain ⟨c, cs, rfl⟩ := exists_cons_of_ne_nil hd
    exact ⟨64 * 128 ^ cs.length, by rw [length_cons, Nat.pow_succ]; omega⟩
  have hm' : 128 ^ (b :: ds).length = 128 * (2 * m) := by rw [length_cons, Nat.pow_succ, hm, Nat.mul_comm]
  rw [signedValue_eq, signedValue_eq, magnitude_cons, hm, hm']
  split <;> split <;> omega

theorem Numeral.ne_nil (h : Numeral ds) : ds ≠ [] := by
  cases h <;> exact cons_ne_nil _ _

theorem continues_or_numeral (bytes : List UInt8) : Continues bytes ∨ ∃ ds rest, Numeral ds ∧ bytes = ds ++ rest := by
  induction bytes with
  | nil => exact .inl (forall_mem_nil _)
  | cons b bytes ih =>
    rcases Nat.lt_or_ge b.toNat 128 with hlast | hmore
    · exact .inr ⟨[b], bytes, .last hlast, rfl⟩
    · rcases ih with hgo | ⟨ds, rest, hd, rfl⟩
      · exact .inl (forall_mem_cons.mpr ⟨hmore, hgo⟩)
      · exact .inr ⟨b :: ds, rest, .more hmore hd, rfl⟩

/-- The result of reading a number of a width is the one that its bytes call for: the value of the numeral that the
bytes begin with, if it is not too long and fits, else the end of the bytes if that is what they lack, else an overflow
of the width. -/
structure Exact {α : Type} (w : Width) (bytes : List UInt8) (value : List UInt8 → α) (fits : α → Prop)
    (result : Except Fault (α × Nat)) : Prop where
  ok (v : α) (k : Nat) : result = .ok (v, k) ↔ k ≤ w.maxLength ∧
    ∃ ds rest, bytes = ds ++ rest ∧ ds.length = k ∧ Numeral ds ∧ value ds = v ∧ fits v
  truncated : result.mapError (Fault.mark w) = .error .unexpectedEnd ↔
    bytes.length < w.maxLength ∧ Continues bytes
  overflow : result.mapError (Fault.mark w) = .error w.overflow ↔
    (¬ ∃ v k, k ≤ w.maxLength ∧
      ∃ ds rest, bytes = ds ++ rest ∧ ds.length = k ∧ Numeral ds ∧ value ds = v ∧ fits v) ∧
    ¬ (bytes.length < w.maxLength ∧ Continues bytes)

theorem mapError_eq_unexpectedEnd {α : Type} {r : Except Fault α} :
    r.mapError (Fault.mark w) = .error .unexpectedEnd ↔ r = .error .truncated := by
  match r with
  | .ok _ => simp [Except.mapError]
  | .error .truncated | .error .overflow => cases w <;> simp [Except.mapError, Fault.mark]

theorem mapError_eq_overflow {α : Type} {r : Except Fault α} :
    r.mapError (Fault.mark w) = .error w.overflow ↔ r = .error .overflow := by
  match r with
  | .ok _ => simp [Except.mapError]
  | .error .truncated | .error .overflow => cases w <;> simp [Except.mapError, Fault.mark, Width.overflow]

/-- A way to read numbers: what it does with the next byte, the value of the bytes of a number, and when it fits in so
many bits. The numbers are the unsigned or the signed ones. -/
structure Reads {α : Type} (read : Nat → List UInt8 → Except Fault (α × Nat)) (value : List UInt8 → α)
    (fits : Nat → α → Prop) : Prop where
  nil (bits : Nat) : read bits [] = .error .truncated
  last {bits : Nat} {b : UInt8} (rest : List UInt8) (hb : 0 < bits) (h : b.toNat < 128) :
    fits bits (value [b]) ∧ read bits (b :: rest) = .ok (value [b], 1) ∨
      ¬ fits bits (value [b]) ∧ read bits (b :: rest) = .error .overflow
  full {bits : Nat} {b : UInt8} (rest : List UInt8) (hb : bits ≤ 7) (h : 128 ≤ b.toNat) :
    read bits (b :: rest) = .error .overflow
  more {bits : Nat} {b : UInt8} {ds rest : List UInt8} (hb : 7 < bits) (h : 128 ≤ b.toNat) (hd : ds ≠ []) :
    (fits bits (value (b :: ds)) ↔ fits (bits - 7) (value ds)) ∧
    ∀ n, read (bits - 7) rest = .ok (value ds, n) → read bits (b :: rest) = .ok (value (b :: ds), n + 1)
  fail {bits : Nat} {b : UInt8} {rest : List UInt8} {e : Fault} (hb : 7 < bits) (h : 128 ≤ b.toNat)
    (he : read (bits - 7) rest = .error e) : read bits (b :: rest) = .error e

section Reads

variable {α : Type} {read : Nat → List UInt8 → Except Fault (α × Nat)} {value : List UInt8 → α}
  {fits : Nat → α → Prop} (hr : Reads read value fits)

include hr

theorem Reads.numeral (hb : 0 < bits) (hd : Numeral ds) (rest : List UInt8) :
    (ds.length ≤ (bits + 6) / 7 ∧ fits bits (value ds)) ∧ read bits (ds ++ rest) = .ok (value ds, ds.length) ∨
      ¬ (ds.length ≤ (bits + 6) / 7 ∧ fits bits (value ds)) ∧ read bits (ds ++ rest) = .error .overflow := by
  induction hd generalizing bits with
  | @last b hlast =>
    have hlen : [b].length ≤ (bits + 6) / 7 := by
      rw [length_singleton]
      omega
    exact (hr.last rest hb hlast).imp (And.imp_left fun h => ⟨hlen, h⟩) (And.imp_left fun h => mt And.right h)
  | @more b ds hmore hd ih =>
    have hne := length_pos_iff.mpr hd.ne_nil
    rw [cons_append, length_cons]
    rcases Nat.lt_or_ge 7 bits with hlong | hshort
    · obtain ⟨hfits, hread⟩ := @hr.more bits b ds (ds ++ rest) hlong hmore hd.ne_nil
      have hlen : ds.length + 1 ≤ (bits + 6) / 7 ↔ ds.length ≤ (bits - 7 + 6) / 7 := by omega
      rw [hfits, hlen]
      rcases ih (by omega : 0 < bits - 7) with ⟨h, hok⟩ | ⟨h, he⟩
      · exact .inl ⟨h, hread _ hok⟩
      · exact .inr ⟨h, hr.fail hlong hmore he⟩
    · exact .inr ⟨by omega, hr.full _ hshort hmore⟩

theorem Reads.unfinished (hb : 0 < bits) (h : Continues bytes) :
    read bits bytes = .error (if bytes.length < (bits + 6) / 7 then .truncated else .overflow) := by
  induction bytes generalizing bits with
  | nil => rw [hr.nil, length_nil, if_pos (by omega)]
  | cons b bytes ih =>
    obtain ⟨hmore, hgo⟩ := forall_mem_cons.mp h
    rw [length_cons]
    rcases Nat.lt_or_ge 7 bits with hlong | hshort
    · have hlen : bytes.length + 1 < (bits + 6) / 7 ↔ bytes.length < (bits - 7 + 6) / 7 := by omega
      simp only [hlen]
      exact hr.fail hlong hmore (ih (by omega) hgo)
    · rw [hr.full _ hshort hmore, if_neg (by omega)]

theorem Reads.eq_ok_iff (hb : 0 < bits) {v : α} : read bits bytes = .ok (v, k) ↔
    k ≤ (bits + 6) / 7 ∧ ∃ ds rest, bytes = ds ++ rest ∧ ds.length = k ∧ Numeral ds ∧ value ds = v ∧ fits bits v := by
  constructor
  · intro h
    rcases continues_or_numeral bytes with hgo | ⟨ds, rest, hd, rfl⟩
    · rw [hr.unfinished hb hgo] at h
      cases h
    · rcases hr.numeral hb hd rest with ⟨⟨hlen, hfits⟩, hok⟩ | ⟨-, he⟩
      · cases hok.symm.trans h
        exact ⟨hlen, ds, rest, rfl, rfl, hd, rfl, hfits⟩
      · cases he.symm.trans h
  · rintro ⟨hlen, ds, rest, rfl, rfl, hd, rfl, hfits⟩
    rcases hr.numeral hb hd rest with ⟨-, hok⟩ | ⟨h, -⟩
    · exact hok
    · exact absurd ⟨hlen, hfits⟩ h

theorem Reads.eq_truncated_iff (hb : 0 < bits) :
    read bits bytes = .error .truncated ↔ bytes.length < (bits + 6) / 7 ∧ Continues bytes := by
  constructor
  · intro h
    rcases continues_or_numeral bytes with hgo | ⟨ds, rest, hd, rfl⟩
    · rw [hr.unfinished hb hgo] at h
      refine ⟨?_, hgo⟩
      by_contra hlen
      rw [if_neg hlen] at h
      cases h
    · rcases hr.numeral hb hd rest with ⟨-, hok⟩ | ⟨-, he⟩
      · cases hok.symm.trans h
      · cases he.symm.trans h
  · rintro ⟨hlen, hgo⟩
    rw [hr.unfinished hb hgo, if_pos hlen]

/-- A number is read from its own bytes, whatever follows them. -/
theorem Reads.take_append {v : α} (hb : 0 < bits) (h : read bits bytes = .ok (v, n)) (rest : List UInt8) :
    read bits (bytes.take n ++ rest) = .ok (v, n) := by
  obtain ⟨hlen, ds, tail, rfl, rfl, hd⟩ := (hr.eq_ok_iff hb).mp h
  rw [take_left]
  exact (hr.eq_ok_iff hb).mpr ⟨hlen, ds, rest, rfl, rfl, hd⟩

theorem Reads.fits_of_ok {v : α} (hb : 0 < bits) (h : read bits bytes = .ok (v, n)) : fits bits v := by
  obtain ⟨-, ds, tail, -, -, -, -, hfits⟩ := (hr.eq_ok_iff hb).mp h
  exact hfits

theorem Reads.exact (w : Width) (bytes : List UInt8) : Exact w bytes value (fits w.bits) (read w.bits bytes) := by
  have hok (v : α) (k : Nat) : read w.bits bytes = .ok (v, k) ↔ k ≤ w.maxLength ∧ _ := hr.eq_ok_iff w.bits_pos
  have hshort : read w.bits bytes = .error .truncated ↔ bytes.length < w.maxLength ∧ _ :=
    hr.eq_truncated_iff w.bits_pos
  refine ⟨hok, mapError_eq_unexpectedEnd.trans hshort, mapError_eq_overflow.trans ?_⟩
  simp only [← hok, ← hshort]
  match read w.bits bytes with
  | .ok (v, k) => simp
  | .error .truncated | .error .overflow => simp

end Reads

theorem reads_unsigned : Reads readUnsigned magnitude fun bits v => v < 2 ^ bits where
  nil _ := rfl
  last {bits b} rest hb h := by
    have hm : magnitude [b] = b.toNat := by
      rw [magnitude_cons, Nat.mod_eq_of_lt h]
      rfl
    rw [hm, readUnsigned]
    split
    · by_cases hfits : b.toNat < 2 ^ bits <;> simp [hfits]
    · have hpow : 2 ^ 7 ≤ 2 ^ bits := Nat.pow_le_pow_right (by decide) (by omega)
      exact .inl ⟨by omega, rfl⟩
  full {bits b} rest hb h := by
    have hpow : 2 ^ bits ≤ 2 ^ 7 := Nat.pow_le_pow_right (by decide) hb
    rw [readUnsigned, if_pos hb, if_neg (by omega)]
  more {bits b ds rest} hb h hd := by
    have hlt := b.toNat_lt
    have hpow : 2 ^ bits = 128 * 2 ^ (bits - 7) := by
      rw [show 128 = 2 ^ 7 by rfl, ← Nat.pow_add]
      congr 1
      omega
    rw [magnitude_cons]
    refine ⟨by omega, fun n hn => ?_⟩
    rw [readUnsigned, if_neg (by omega), if_neg (by omega), hn, show b.toNat % 128 = b.toNat - 128 by omega]
  fail {bits b rest e} hb h he := by
    rw [readUnsigned, if_neg (by omega), if_neg (by omega), he]

theorem reads_signed : Reads readSigned signedValue fun bits v =>
    -(2 ^ (bits - 1) : Nat) ≤ v ∧ v < (2 ^ (bits - 1) : Nat) where
  nil _ := rfl
  last {bits b} rest hb h := by
    have hvalue := signedValue_last h
    rw [readSigned]
    rcases Nat.lt_or_ge 7 bits with hlong | hshort
    · have hpow : 2 ^ 6 ≤ 2 ^ (bits - 1) := Nat.pow_le_pow_right (by decide) (by omega)
      rw [if_neg (by omega)]
      split at hvalue <;> rw [hvalue] <;> exact .inl ⟨by omega, by simp [*]⟩
    · have hpow : 2 ^ (bits - 1) ≤ 2 ^ 6 := Nat.pow_le_pow_right (by decide) (by omega)
      rw [if_pos hshort]
      split
      · rw [if_pos (by omega)] at hvalue
        exact .inl ⟨by omega, by rw [hvalue]⟩
      · split
        · rw [if_neg (by omega)] at hvalue
          exact .inl ⟨by omega, by rw [hvalue]⟩
        · exact .inr ⟨by split at hvalue <;> omega, rfl⟩
  full {bits b} rest hb h := by
    have hpow : 2 ^ (bits - 1) ≤ 2 ^ 6 := Nat.pow_le_pow_right (by decide) (by omega)
    rw [readSigned, if_pos hb, if_neg (by omega), if_neg (by omega)]
  more {bits b ds rest} hb h hd := by
    have hlt := b.toNat_lt
    have hpow : 2 ^ (bits - 1) = 128 * 2 ^ (bits - 7 - 1) := by
      rw [show 128 = 2 ^ 7 by rfl, ← Nat.pow_add]
      congr 1
      omega
    rw [signedValue_cons b hd]
    refine ⟨by omega, fun n hn => ?_⟩
    rw [readSigned, if_neg (by omega), if_neg (by omega), if_neg (by omega), hn,
      show (b.toNat : Int) - 128 = (b.toNat % 128 : Nat) by omega]
  fail {bits b rest e} hb h he := by
    rw [readSigned, if_neg (by omega), if_neg (by omega), if_neg (by omega), he]

/-- Reading accepts exactly the numerals that are not too long and whose value fits in the width. -/
theorem decode_exact (w : Width) (bytes : List UInt8) :
    Exact w bytes magnitude (· < 2 ^ w.bits) (decodeUnsigned w bytes) ∧
    Exact w bytes signedValue (fun v => -(2 ^ (w.bits - 1) : Nat) ≤ v ∧ v < (2 ^ (w.bits - 1) : Nat))
      (decodeSigned w bytes) :=
  ⟨reads_unsigned.exact w bytes, reads_signed.exact w bytes⟩

theorem toNat_ofNat_of_lt (h : n < 256) : (UInt8.ofNat n).toNat = n := by
  rw [UInt8.toNat_ofNat']
  exact Nat.mod_eq_of_lt h

theorem numeral_encodeUnsigned (v : Nat) : Numeral (encodeUnsigned v) ∧ magnitude (encodeUnsigned v) = v := by
  fun_induction encodeUnsigned v with
  | case1 v hv =>
    have hn := toNat_ofNat_of_lt (by omega : v < 256)
    refine ⟨.last (by omega), ?_⟩
    rw [magnitude_cons, hn, Nat.mod_eq_of_lt hv]
    rfl
  | case2 v hv ih =>
    have hn := toNat_ofNat_of_lt (by omega : v % 128 + 128 < 256)
    refine ⟨.more (by omega) ih.1, ?_⟩
    rw [magnitude_cons, hn, ih.2]
    omega

theorem numeral_encodeSigned (v : Int) : Numeral (encodeSigned v) ∧ signedValue (encodeSigned v) = v := by
  fun_induction encodeSigned v with
  | case1 v hv =>
    have hn := toNat_ofNat_of_lt (by omega : (v % 128).toNat < 256)
    refine ⟨.last (by omega), ?_⟩
    rw [signedValue_last (by omega), hn]
    split <;> omega
  | case2 v hv ih =>
    have hn := toNat_ofNat_of_lt (by omega : (v % 128).toNat + 128 < 256)
    refine ⟨.more (by omega) ih.1, ?_⟩
    rw [signedValue_cons _ ih.1.ne_nil, hn, ih.2]
    omega

theorem length_encodeUnsigned_le (h : v < 128 ^ (k + 1)) : (encodeUnsigned v).length ≤ k + 1 := by
  induction k generalizing v with
  | zero =>
    have hv : v < 128 := h
    rw [encodeUnsigned, if_pos hv, length_singleton]
  | succ k ih =>
    rw [encodeUnsigned]
    split
    · exact Nat.succ_le_succ (Nat.zero_le _)
    · rw [Nat.pow_succ] at h
      exact Nat.succ_le_succ (ih (by omega))

theorem length_encodeSigned_le {v : Int} (h : -(64 * 128 ^ k : Nat) ≤ v ∧ v < (64 * 128 ^ k : Nat)) :
    (encodeSigned v).length ≤ k + 1 := by
  induction k generalizing v with
  | zero =>
    have hv : -64 ≤ v ∧ v < 64 := h
    rw [encodeSigned, if_pos hv, length_singleton]
  | succ k ih =>
    rw [encodeSigned]
    split
    · exact Nat.succ_le_succ (Nat.zero_le _)
    · rw [Nat.pow_succ] at h
      exact Nat.succ_le_succ (ih (by omega))

theorem length_encodeUnsigned_magnitude (hd : ds ≠ []) : (encodeUnsigned (magnitude ds)).length ≤ ds.length := by
  obtain ⟨b, bs, rfl⟩ := exists_cons_of_ne_nil hd
  exact length_encodeUnsigned_le (magnitude_lt (b :: bs))

theorem length_encodeSigned_signedValue (hd : ds ≠ []) : (encodeSigned (signedValue ds)).length ≤ ds.length := by
  obtain ⟨b, bs, rfl⟩ := exists_cons_of_ne_nil hd
  apply length_encodeSigned_le
  have hlt := magnitude_lt (b :: bs)
  have hpow : 128 ^ (b :: bs).length = 128 * 128 ^ bs.length := by rw [length_cons, Nat.pow_succ, Nat.mul_comm]
  rw [hpow] at hlt
  rw [signedValue_eq, hpow]
  split <;> omega

/-- What fits in a number of bytes takes no more bytes than numbers of so many bits. -/
theorem two_pow_le (bits : Nat) : 2 ^ bits ≤ 128 ^ ((bits + 6) / 7) := by
  rw [show 128 = 2 ^ 7 by rfl, ← Nat.pow_mul]
  exact Nat.pow_le_pow_right (by decide) (by omega)

theorem readUnsigned_encodeUnsigned (hv : v < 2 ^ bits) (hb : 0 < bits) (rest : List UInt8) :
    readUnsigned bits (encodeUnsigned v ++ rest) = .ok (v, (encodeUnsigned v).length) := by
  obtain ⟨hn, hm⟩ := numeral_encodeUnsigned v
  refine (reads_unsigned.eq_ok_iff hb).mpr ⟨?_, _, rest, rfl, rfl, hn, hm, hv⟩
  obtain ⟨k, hk⟩ := Nat.exists_eq_succ_of_ne_zero (by omega : (bits + 6) / 7 ≠ 0)
  have hle := two_pow_le bits
  rw [hk] at hle ⊢
  exact length_encodeUnsigned_le (Nat.lt_of_lt_of_le hv hle)

theorem readSigned_encodeSigned {v : Int} (hv : -(2 ^ (bits - 1) : Nat) ≤ v ∧ v < (2 ^ (bits - 1) : Nat))
    (hb : 0 < bits) (rest : List UInt8) :
    readSigned bits (encodeSigned v ++ rest) = .ok (v, (encodeSigned v).length) := by
  obtain ⟨hn, hm⟩ := numeral_encodeSigned v
  refine (reads_signed.eq_ok_iff hb).mpr ⟨?_, _, rest, rfl, rfl, hn, hm, hv⟩
  obtain ⟨k, hk⟩ := Nat.exists_eq_succ_of_ne_zero (by omega : (bits + 6) / 7 ≠ 0)
  have hle := two_pow_le bits
  have hpow : 2 ^ bits = 2 * 2 ^ (bits - 1) := by
    rw [← Nat.pow_succ', Nat.succ_eq_add_one, Nat.sub_add_cancel hb]
  rw [hk, Nat.pow_succ, hpow] at hle
  rw [hk]
  exact length_encodeSigned_le (by omega)

theorem length_encodeUnsigned_pos (v : Nat) : 0 < (encodeUnsigned v).length :=
  length_pos_iff.mpr (numeral_encodeUnsigned v).1.ne_nil

/-- Writing and reading gives the value back, whatever follows it, and no numeral that is read as the value is shorter
than the one that is written. -/
theorem decode_encode_minimal (w : Width) (v : BitVec w.bits) (rest : List UInt8) :
    decodeUnsigned w (encodeUnsigned v.toNat ++ rest) = .ok (v.toNat, (encodeUnsigned v.toNat).length) ∧
    decodeSigned w (encodeSigned v.toInt ++ rest) = .ok (v.toInt, (encodeSigned v.toInt).length) ∧
    (∀ bytes k, decodeUnsigned w bytes = .ok (v.toNat, k) → (encodeUnsigned v.toNat).length ≤ k) ∧
    ∀ bytes k, decodeSigned w bytes = .ok (v.toInt, k) → (encodeSigned v.toInt).length ≤ k := by
  have hsigned : -(2 ^ (w.bits - 1) : Nat) ≤ v.toInt ∧ v.toInt < (2 ^ (w.bits - 1) : Nat) := by
    have hle := BitVec.le_toInt v
    have hlt := BitVec.toInt_lt (x := v)
    push_cast
    exact ⟨hle, hlt⟩
  refine ⟨readUnsigned_encodeUnsigned v.isLt w.bits_pos rest, readSigned_encodeSigned hsigned w.bits_pos rest, ?_, ?_⟩
  · intro bytes k h
    obtain ⟨-, ds, tail, -, rfl, hd, hv, -⟩ := (reads_unsigned.eq_ok_iff w.bits_pos).mp h
    rw [← hv]
    exact length_encodeUnsigned_magnitude hd.ne_nil
  · intro bytes k h
    obtain ⟨-, ds, tail, -, rfl, hd, hv, -⟩ := (reads_signed.eq_ok_iff w.bits_pos).mp h
    rw [← hv]
    exact length_encodeSigned_signedValue hd.ne_nil

/-- The least number of 32 bits, and a longer numeral of the greatest one below zero. -/
theorem decode_encode_minimal_negative :
    decodeSigned .w32 [0x80, 0x80, 0x80, 0x80, 0x78, 0x01] = .ok (-2 ^ 31, 5) ∧
    decodeSigned .w32 [0xff, 0xff, 0x7f] = .ok (-1, 3) ∧ (encodeSigned (-1)).length ≤ 3 := by
  obtain ⟨-, hleast, -⟩ := decode_encode_minimal .w32 (BitVec.ofInt 32 (-2 ^ 31)) [0x01]
  obtain ⟨-, -, -, hshortest⟩ := decode_encode_minimal .w32 (BitVec.ofInt 32 (-1)) []
  have hpadded : decodeSigned .w32 [0xff, 0xff, 0x7f] = .ok (-1, 3) := by decide +kernel
  exact ⟨by simpa [encodeSigned] using hleast, hpadded, hshortest _ _ hpadded⟩

end ProtoWasm.Leb128
