import ProtoWasm.Proofs.Memory.History

/-! # Reading and writing memory

What is read is what is there, and what is written is written as a whole or not at all. The end of a range of bytes is
told by a word, which starts again at zero, and so is the number of bytes.
-/
namespace ProtoWasm

namespace LittleEndian

/-- The number that some bytes stand for, the first of which counts least. -/
def value (bs : List UInt8) : Nat := (bs.zipIdx.map fun (b, i) => b.toNat * 256 ^ i).sum

theorem decode_eq_value (bs : List UInt8) : decode bs = value bs := by
  have hfrom (k : Nat) : ((bs.zipIdx k).map fun (b, i) => b.toNat * 256 ^ i).sum = 256 ^ k * decode bs := by
    induction bs generalizing k with
    | nil => rfl
    | cons b bs ih =>
      have hstep : 256 ^ (k + 1) * decode bs = 256 ^ k * (256 * decode bs) := by rw [Nat.pow_succ, Nat.mul_assoc]
      rw [List.zipIdx_cons, List.map_cons, List.sum_cons, ih, decode, hstep, Nat.mul_add]
      exact congrArg (· + _) (Nat.mul_comm _ _)
  rw [value, hfrom 0, Nat.pow_zero, Nat.one_mul]

end LittleEndian

namespace Memory

variable {ρ : Type} {m : Memory ρ} {offset n : UInt32} {a : Nat} {bs : List UInt8}

theorem length_contents (m : Memory ρ) : m.contents.length = m.size := by simp [contents, Buffer.bytes]

theorem getElem?_contents (m : Memory ρ) (a : Nat) :
    m.contents[a]? = if a < m.size then some (m.buffer.get a) else none := by
  by_cases h : a < m.size <;> simp [contents, Buffer.bytes, h]

/-- The bytes at a place of a list, if all of them are there. -/
def cut (bytes : List UInt8) (start count : Nat) : Option (List UInt8) :=
  if start + count ≤ bytes.length then some ((bytes.drop start).take count) else none

theorem bytes_eq {start count : Nat} (h : start + count ≤ m.size) :
    m.buffer.bytes start count = (m.contents.drop start).take count := by
  apply List.ext_getElem?
  intro i
  by_cases hi : i < count
  · have hlt : start + i < m.size := by omega
    simp [Buffer.bytes, hi, getElem?_contents, hlt]
  · rw [List.getElem?_eq_none (by simp [Buffer.bytes]; omega), List.getElem?_eq_none (by simp; omega)]

/-- The last address after a range is zero if the range ends with the largest memory. -/
theorem read_eq (hm : m.size ≤ bytesOfPages maxPages) (offset n : UInt32) :
    m.read offset n = if offset.toNat + n.toNat = 2 ^ 32 ∧ m.size = 2 ^ 32 then .error .range
      else .ok (cut m.contents offset.toNat n.toNat) := by
  have hm : m.size ≤ 2 ^ 32 := hm
  have hn := n.toNat_lt
  unfold read hasRange cut Buffer.slice
  rw [length_contents, UInt32.toNat_add]
  by_cases hrange : offset.toNat + n.toNat ≤ m.size
  · rw [if_pos (decide_eq_true hrange)]
    by_cases htop : offset.toNat + n.toNat = 2 ^ 32
    · have hsize : m.size = 2 ^ 32 := by omega
      rw [if_neg (by omega), if_pos ⟨htop, hsize⟩]
      rfl
    · have hmod : (offset.toNat + n.toNat) % 2 ^ 32 = offset.toNat + n.toNat := Nat.mod_eq_of_lt (by omega)
      have hcount : offset.toNat + n.toNat - offset.toNat = n.toNat := by omega
      rw [hmod, if_pos ⟨by omega, hrange⟩, if_neg (fun h => htop h.1), if_pos hrange, hcount, bytes_eq hrange]
      rfl
  · rw [if_neg (by simpa using hrange), if_neg (by omega), if_neg hrange]

theorem readByte_eq (m : Memory ρ) (offset : UInt32) : m.readByte offset = m.contents[offset.toNat]? := by
  simp only [getElem?_contents, readByte, hasRange, decide_eq_true_eq]
  rfl

/-- Reading gives the bytes at an address, or the number that they stand for, exactly if all of them are in the
memory. Only a range of bytes that ends with the last byte of the largest memory cannot be read. -/
theorem reads_exact (hm : m.size ≤ bytesOfPages maxPages) (offset n : UInt32) :
    m.readByte offset = m.contents[offset.toNat]? ∧
    (¬ (offset.toNat + n.toNat = 2 ^ 32 ∧ m.size = 2 ^ 32) →
      m.read offset n = .ok (cut m.contents offset.toNat n.toNat) ∧
      m.readWord n offset = .ok ((cut m.contents offset.toNat n.toNat).map LittleEndian.value)) ∧
    (offset.toNat + n.toNat = 2 ^ 32 ∧ m.size = 2 ^ 32 →
      m.read offset n = .error .range ∧ m.readWord n offset = .error .range) := by
  have hvalue : LittleEndian.decode = LittleEndian.value := funext LittleEndian.decode_eq_value
  refine ⟨readByte_eq m offset, fun htop => ?_, fun htop => ?_⟩
  · have hread := (read_eq hm offset n).trans (if_neg htop)
    exact ⟨hread, by rw [readWord, hread, ← hvalue]; rfl⟩
  · have hread := (read_eq hm offset n).trans (if_pos htop)
    exact ⟨hread, by rw [readWord, hread]; rfl⟩

/-- A new page is read at its end, and a word that is not all there. -/
theorem reads_exact_page :
    ∃ m : Memory Nat, create 1 1 false = .ok m ∧ m.size ≤ bytesOfPages maxPages ∧
      m.readByte 65535 = m.contents[65535]? ∧
      m.readWord 4 65532 = .ok ((cut m.contents 65532 4).map LittleEndian.value) ∧
      m.readWord 4 65533 = .ok none := by
  obtain ⟨m, hm, -, -, -, hbuffer⟩ := exists_create (ρ := Nat) (Nat.le_refl 1) false
  have hsize : m.size = 65536 := by
    rw [size, hbuffer]
    rfl
  have hle : m.size ≤ bytesOfPages maxPages := by
    rw [hsize]
    decide
  have hpast : cut m.contents 65533 4 = none := by simp [cut, length_contents, hsize]
  obtain ⟨hbyte, -⟩ := reads_exact hle 65535 1
  obtain ⟨-, hword, -⟩ := reads_exact hle 65532 4
  obtain ⟨-, hout, -⟩ := reads_exact hle 65533 4
  refine ⟨m, hm, hle, hbyte, (hword (by simp [hsize])).2, (hout (by simp [hsize])).2.trans ?_⟩
  exact congrArg (fun o => Except.ok (o.map LittleEndian.value)) hpast

/-- A word at the end of the largest memory is in the memory, but it cannot be read. -/
theorem readWord_top :
    ∃ m : Memory Nat, create maxPages maxPages false = .ok m ∧ m.size = bytesOfPages maxPages ∧
      (0xfffffffc : UInt32).toNat + 4 ≤ m.size ∧ m.readWord 4 0xfffffffc = .error .range :=
  ⟨_, rfl, rfl, by decide, rfl⟩

/-- A list in which the bytes from a place on are others. -/
def overwrite (old : List UInt8) (start : Nat) (bs : List UInt8) : List UInt8 :=
  old.take start ++ bs ++ old.drop (start + bs.length)

/-- Bytes are written all or not at all: they are where they belong and nothing else is changed, or the memory is as
it was because they have no place in it. -/
def Whole (m : Memory ρ) (start : Nat) (bs : List UInt8) (r : Answer × Memory ρ) : Prop :=
  if start + bs.length ≤ m.size then
    r.1 = .written ∧ r.2.contents = overwrite m.contents start bs ∧ r.2 = m.setBuffer r.2.buffer
  else r = (.outside, m)

theorem contents_write {start : Nat} (h : start + bs.length ≤ m.size) :
    (m.setBuffer (m.buffer.write start bs)).contents = overwrite m.contents start bs := by
  have hsize : (m.setBuffer (m.buffer.write start bs)).size = m.size :=
    (size_setBuffer m _).trans (Buffer.size_write _ _ _)
  have hstart : (m.contents.take start).length = start := by
    rw [List.length_take, length_contents]
    omega
  apply List.ext_getElem?
  intro a
  rw [getElem?_contents, hsize, buffer_setBuffer, Buffer.get_write h, overwrite, List.append_assoc]
  by_cases hbefore : a < start
  · rw [List.getElem?_append_left (by omega), List.getElem?_take_of_lt hbefore, getElem?_contents,
      if_neg (Nat.not_le.mpr hbefore)]
  · rw [List.getElem?_append_right (by omega), hstart, if_pos (Nat.le_of_not_lt hbefore)]
    by_cases hin : a - start < bs.length
    · rw [List.getElem?_append_left hin, if_pos (by omega), List.getElem?_eq_getElem hin]
      rfl
    · have ha : start + bs.length + (a - start - bs.length) = a := by omega
      rw [List.getElem?_append_right (Nat.le_of_not_lt hin), List.getElem?_drop, ha, getElem?_contents,
        List.getElem?_eq_none (Nat.le_of_not_lt hin)]
      rfl

/-- The number of bytes is taken as a word. -/
theorem write_eq (m : Memory ρ) (offset : UInt32) (bs : List UInt8) :
    m.put (m.write offset bs) = if offset.toNat + bs.length % 2 ^ 32 ≤ m.size then
      (.written, m.setBuffer (m.buffer.write offset.toNat bs)) else (.outside, m) := by
  unfold write hasRange
  rw [UInt32.toNat_ofNat']
  by_cases h : offset.toNat + bs.length % 2 ^ 32 ≤ m.size
  · rw [if_pos (decide_eq_true h), if_pos h]
    rfl
  · rw [if_neg (by simpa using h), if_neg h]
    rfl

theorem whole_write_iff (m : Memory ρ) (offset : UInt32) (bs : List UInt8) :
    m.Whole offset.toNat bs (m.put (m.write offset bs)) ↔
      offset.toNat + bs.length ≤ m.size ∨ m.size < offset.toNat + bs.length % 2 ^ 32 := by
  have hmod := Nat.mod_le bs.length (2 ^ 32)
  rw [Whole, write_eq]
  by_cases h : offset.toNat + bs.length ≤ m.size
  · rw [if_pos h, if_pos (Nat.le_trans (Nat.add_le_add_left hmod _) h)]
    refine iff_of_true ⟨rfl, contents_write h, ?_⟩ (.inl h)
    rw [buffer_setBuffer]
  · rw [if_neg h]
    by_cases hword : offset.toNat + bs.length % 2 ^ 32 ≤ m.size
    · rw [if_pos hword]
      refine iff_of_false (fun he => ?_) (by omega)
      cases congrArg Prod.fst he
    · rw [if_neg hword]
      exact iff_of_true rfl (.inr (by omega))

theorem whole_writeWord (m : Memory ρ) (offset : UInt32) {count v : Nat} (hcount : count < 2 ^ 32)
    (hv : v < 256 ^ count) : ∃ bs : List UInt8, bs.length = count ∧ LittleEndian.value bs = v ∧
      m.Whole offset.toNat bs (m.put (m.writeWord count offset v)) := by
  have hlength := LittleEndian.length_encode count v
  refine ⟨LittleEndian.encode count v, hlength, ?_, (whole_write_iff m offset _).mpr ?_⟩
  · rw [← LittleEndian.decode_eq_value, LittleEndian.decode_encode, Nat.mod_eq_of_lt hv]
  · rw [hlength, Nat.mod_eq_of_lt hcount]
    omega

/-- A number is written as a whole or not at all, as bytes that stand for it. So are bytes exactly if they all have a
place in the memory or their number, taken as a word, says that they do not. -/
theorem writes_whole (m : Memory ρ) (offset : UInt32) :
    (∀ v : UInt8, ∃ bs : List UInt8, bs.length = 1 ∧ LittleEndian.value bs = v.toNat ∧
      m.Whole offset.toNat bs (m.put (m.writeWord 1 offset v.toNat))) ∧
    (∀ v : UInt32, ∃ bs : List UInt8, bs.length = 4 ∧ LittleEndian.value bs = v.toNat ∧
      m.Whole offset.toNat bs (m.put (m.writeWord 4 offset v.toNat))) ∧
    (∀ v : UInt64, ∃ bs : List UInt8, bs.length = 8 ∧ LittleEndian.value bs = v.toNat ∧
      m.Whole offset.toNat bs (m.put (m.writeWord 8 offset v.toNat))) ∧
    ∀ bs : List UInt8, m.Whole offset.toNat bs (m.put (m.write offset bs)) ↔
      offset.toNat + bs.length ≤ m.size ∨ m.size < offset.toNat + bs.length % 2 ^ 32 :=
  ⟨fun v => whole_writeWord m offset (by decide) v.toNat_lt, fun v => whole_writeWord m offset (by decide) v.toNat_lt,
    fun v => whole_writeWord m offset (by decide) v.toNat_lt, whole_write_iff m offset⟩

/-- So many bytes that a word counts none are written to a page as far as there is room. -/
theorem write_not_whole :
    ∃ m : Memory Nat, create 1 1 false = .ok m ∧ ∃ bs : List UInt8, bs.length = 2 ^ 32 ∧
      (m.put (m.write 0 bs)).1 = .written ∧ ¬ m.Whole 0 bs (m.put (m.write 0 bs)) := by
  obtain ⟨bs, hbs⟩ : ∃ bs : List UInt8, bs.length = 2 ^ 32 := ⟨List.replicate (2 ^ 32) 0, List.length_replicate⟩
  refine ⟨_, rfl, bs, hbs, ?_, fun h => ?_⟩
  · rw [write_eq, hbs]
    rfl
  · have h := (whole_write_iff _ 0 bs).mp h
    rw [hbs] at h
    revert h
    decide

end Memory

end ProtoWasm
