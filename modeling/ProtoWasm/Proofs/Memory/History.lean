import ProtoWasm.Proofs.Memory.Bytes

/-! # Histories of memories

What a memory answers, how many bytes it has and which bytes they are depend only on what was done to it: on the pages
that were added, and on what was written last to an address. Where the bytes are kept makes no difference.
-/
namespace ProtoWasm.Memory

variable {ρ : Type} {m : Memory ρ} {first most delta : Nat} {h : History} {op : Operation} {x : Answer}

inductive Operation where
  | grow (delta : UInt32)
  | writeByte (start : UInt32) (v : UInt8)
  | writeWord (start v : UInt32)
  | writeLong (start : UInt32) (v : UInt64)
  | write (start : UInt32) (bytes : List UInt8)

inductive Answer where
  /-- The memory has more pages than the number that it had. -/
  | grew (pages : Nat)
  | refused (r : Reason)
  | written
  /-- Not all addresses are in the memory. -/
  | outside
deriving DecidableEq, Repr

def Answer.failed : Answer → Bool
  | grew _ => false
  | refused _ => true
  | written => false
  | outside => true

/-- What was done to a memory, and what it answered. -/
abbrev History := List (Operation × Answer)

def put (m : Memory ρ) : Option (Memory ρ) → Answer × Memory ρ
  | some m' => (.written, m')
  | none => (.outside, m)

def perform (m : Memory ρ) : Operation → Answer × Memory ρ
  | .grow delta => match m.grow delta.toNat with
    | .ok m' => (.grew m.pages, m')
    | .error r => (.refused r, m)
  | .writeByte start v => m.put (m.writeWord 1 start v.toNat)
  | .writeWord start v => m.put (m.writeWord 4 start v.toNat)
  | .writeLong start v => m.put (m.writeWord 8 start v.toNat)
  | .write start bytes => m.put (m.write start bytes)

def performFrom (m : Memory ρ) (h : History) : List Operation → History × Memory ρ
  | [] => (h, m)
  | op :: ops => (m.perform op).2.performFrom (h ++ [(op, (m.perform op).1)]) ops

def performAll (m : Memory ρ) (ops : List Operation) : History × Memory ρ := m.performFrom [] ops

def contents (m : Memory ρ) : List UInt8 := m.buffer.bytes 0 m.size

namespace Operation

/-- The number of bytes that are written can be told by a word. -/
def Fits : Operation → Prop
  | write _ bytes => bytes.length < 2 ^ 32
  | _ => True

def start : Operation → UInt32
  | grow _ => 0
  | writeByte start _ => start
  | writeWord start _ => start
  | writeLong start _ => start
  | write start _ => start

def count : Operation → Nat
  | grow _ => 0
  | writeByte _ _ => 1
  | writeWord _ _ => 4
  | writeLong _ _ => 8
  | write _ bytes => bytes.length

/-- The byte that is written at a distance from the start. -/
def value (i : Nat) : Operation → UInt8
  | grow _ => 0
  | writeByte _ v => v
  | writeWord _ v => .ofNat (v.toNat / 256 ^ i)
  | writeLong _ v => .ofNat (v.toNat / 256 ^ i)
  | write _ bytes => bytes.getD i 0

/-- The byte that is written to an address. -/
def byte? (op : Operation) (a : Nat) : Option UInt8 :=
  if op.start.toNat ≤ a ∧ a < op.start.toNat + op.count then some (op.value (a - op.start.toNat)) else none

end Operation

namespace History

def gained : Operation × Answer → Nat
  | (.grow delta, .grew _) => delta.toNat
  | _ => 0

/-- The pages of a memory that had some pages at first. -/
def pages (first : Nat) (h : History) : Nat := first + (h.map gained).sum

/-- What was written last to an address, or zero. -/
def byte (h : History) (a : Nat) : UInt8 :=
  (h.reverse.findSome? fun x => if x.2 = .written then x.1.byte? a else none).getD 0

def contents (first : Nat) (h : History) : List UInt8 := (List.range (h.pages first * pageSize)).map h.byte

/-- What a memory answers that had some pages at first and may have some at most. -/
def answer (first most : Nat) (h : History) : Operation → Answer
  | .grow delta =>
    if h.pages first + delta.toNat ≤ most then .grew (h.pages first)
    else .refused (.growLimit (h.pages first) delta.toNat most)
  | op => if op.start.toNat + op.count ≤ h.pages first * pageSize then .written else .outside

def follow (first most : Nat) (h : History) : List Operation → History
  | [] => h
  | op :: ops => follow first most (h ++ [(op, h.answer first most op)]) ops

def ofAll (first most : Nat) (ops : List Operation) : History := follow first most [] ops

theorem pages_append (first : Nat) (h : History) (op : Operation) (a : Answer) :
    History.pages first (h ++ [(op, a)]) = h.pages first + gained (op, a) := by
  simp [pages, Nat.add_assoc]

theorem byte_append_written (h : History) (op : Operation) (a : Nat) :
    History.byte (h ++ [(op, .written)]) a = (op.byte? a).getD (h.byte a) := by
  unfold byte
  rw [List.reverse_append]
  cases hb : op.byte? a <;> simp [hb]

theorem byte_append_of_ne (hx : x ≠ .written) (h : History) (op : Operation) (a : Nat) :
    History.byte (h ++ [(op, x)]) a = h.byte a := by
  unfold byte
  rw [List.reverse_append]
  simp [hx]

end History

structure Shows (first most : Nat) (h : History) (m : Memory ρ) : Prop where
  limit : m.max = most
  roomy : m.Roomy
  size : m.size = h.pages first * pageSize
  bounded : h.pages first ≤ most
  byte : ∀ a, m.buffer.get a = h.byte a

section

variable (hs : m.Shows first most h)
include hs

theorem Shows.pages_eq : m.pages = h.pages first := by
  rw [pages, hs.size]
  exact Nat.mul_div_cancel _ (by decide)

theorem Shows.contents_eq : m.contents = h.contents first := by
  unfold contents Buffer.bytes History.contents
  rw [hs.size]
  refine List.map_congr_left fun a _ => ?_
  rw [Nat.zero_add, hs.byte]

theorem Shows.append
    (hgained : h.pages first + History.gained (op, x) = h.pages first) (hx : x ≠ .written) :
    m.Shows first most (h ++ [(op, x)]) := by
  have hpages := (History.pages_append first h op x).trans hgained
  refine ⟨hs.limit, hs.roomy, hpages ▸ hs.size, hpages ▸ hs.bounded, fun a => ?_⟩
  rw [History.byte_append_of_ne hx, hs.byte]

/-- A memory that may have so many more pages gets them, and keeps its bytes. -/
theorem Shows.exists_grow (hle : h.pages first + delta ≤ most) :
    ∃ m', m.grow delta = .ok m' ∧ m'.max = most ∧ m'.Roomy ∧ m'.size = (h.pages first + delta) * pageSize ∧
      ∀ a, m'.buffer.get a = m.buffer.get a := by
  unfold Memory.grow
  rw [hs.pages_eq, hs.limit, if_neg (Nat.not_lt.mpr hle)]
  split
  · rename_i hdelta
    exact ⟨m, rfl, hs.limit, hs.roomy, by rw [hs.size, hdelta, Nat.add_zero], fun _ => rfl⟩
  · have hmore : m.size ≤ bytesOfPages (h.pages first + delta) :=
      hs.size ▸ Nat.mul_le_mul_right _ (Nat.le_add_right _ _)
    have hmost : bytesOfPages (h.pages first + delta) ≤ bytesOfPages m.max :=
      Nat.mul_le_mul_right _ (hs.limit ▸ hle)
    obtain ⟨m', hresize, hbuffer, hmax, hroomy⟩ := hs.roomy.exists_resize hmore hmost
    refine ⟨m', hresize, hmax.trans hs.limit, hroomy, ?_, fun a => ?_⟩
    · rw [Memory.size, hbuffer]
      rfl
    · rw [hbuffer]
      rfl

theorem Shows.grow_eq_error
    (hlt : most < h.pages first + delta) : m.grow delta = .error (.growLimit (h.pages first) delta most) := by
  have hbound := hs.bounded
  unfold Memory.grow
  rw [hs.pages_eq, hs.limit, if_neg (by omega), if_pos hlt]

theorem Shows.perform_grow (delta : UInt32) :
    (m.perform (.grow delta)).1 = h.answer first most (.grow delta) ∧
      (m.perform (.grow delta)).2.Shows first most (h ++ [(.grow delta, h.answer first most (.grow delta))]) := by
  by_cases hle : h.pages first + delta.toNat ≤ most
  · obtain ⟨m', hgrow, hmax, hroomy, hsize, hbytes⟩ := hs.exists_grow hle
    have hperform : m.perform (.grow delta) = (.grew m.pages, m') := by simp only [perform, hgrow]
    have hanswer : h.answer first most (.grow delta) = .grew (h.pages first) := if_pos hle
    have hpages := History.pages_append first h (.grow delta) (.grew (h.pages first))
    rw [hperform, hanswer, hs.pages_eq]
    refine ⟨rfl, hmax, hroomy, hpages ▸ hsize, hpages ▸ hle, fun a => ?_⟩
    rw [hbytes, hs.byte, History.byte_append_of_ne Answer.noConfusion]
  · have hgrow := hs.grow_eq_error (Nat.lt_of_not_le hle)
    have hperform : m.perform (.grow delta) = (.refused (.growLimit (h.pages first) delta.toNat most), m) := by
      simp only [perform, hgrow]
    have hanswer : h.answer first most (.grow delta) = .refused (.growLimit (h.pages first) delta.toNat most) :=
      if_neg hle
    rw [hperform, hanswer]
    exact ⟨rfl, hs.append (Nat.add_zero _) Answer.noConfusion⟩

end

namespace Operation

def bytes : Operation → List UInt8
  | grow _ => []
  | writeByte _ v => LittleEndian.encode 1 v.toNat
  | writeWord _ v => LittleEndian.encode 4 v.toNat
  | writeLong _ v => LittleEndian.encode 8 v.toNat
  | write _ bytes => bytes

theorem length_bytes (op : Operation) : op.bytes.length = op.count := by
  cases op <;> simp [bytes, count, LittleEndian.length_encode]

theorem getElem?_bytes (op : Operation) (i : Nat) :
    op.bytes[i]? = if i < op.count then some (op.value i) else none := by
  cases op with
  | grow delta => rfl
  | writeByte start v =>
    cases i with
    | zero => simp [bytes, count, value, LittleEndian.getElem?_encode]
    | succ i => simp [bytes, count, LittleEndian.getElem?_encode]
  | writeWord start v => exact LittleEndian.getElem?_encode 4 v.toNat i
  | writeLong start v => exact LittleEndian.getElem?_encode 8 v.toNat i
  | write start bytes =>
    by_cases h : i < bytes.length
    · simp [Operation.bytes, count, value, h]
    · simp [Operation.bytes, count, h]

theorem byte?_eq (op : Operation) (a : Nat) :
    op.byte? a = if op.start.toNat ≤ a then op.bytes[a - op.start.toNat]? else none := by
  unfold byte?
  rw [getElem?_bytes]
  by_cases hle : op.start.toNat ≤ a
  · have hiff : a < op.start.toNat + op.count ↔ a - op.start.toNat < op.count := by omega
    simp [hle, hiff]
  · simp [hle]

theorem count_lt (h : op.Fits) : op.count < 2 ^ 32 := by
  cases op with
  | write start bytes => exact h
  | grow delta | writeByte start v | writeWord start v | writeLong start v => simp [count]

theorem perform_eq (h : ∀ delta, op ≠ .grow delta) (m : Memory ρ) :
    m.perform op = m.put (m.write op.start op.bytes) := by
  cases op with
  | grow delta => exact absurd rfl (h delta)
  | writeByte start v | writeWord start v | writeLong start v | write start bytes => rfl

theorem answer_eq (hop : ∀ delta, op ≠ .grow delta) (h : History) : h.answer first most op =
      if op.start.toNat + op.count ≤ h.pages first * pageSize then .written else .outside := by
  cases op with
  | grow delta => exact absurd rfl (hop delta)
  | writeByte start v | writeWord start v | writeLong start v | write start bytes => rfl

theorem gained_eq (hop : ∀ delta, op ≠ .grow delta) (x : Answer) : History.gained (op, x) = 0 := by
  cases op with
  | grow delta => exact absurd rfl (hop delta)
  | writeByte start v | writeWord start v | writeLong start v | write start bytes => rfl

end Operation

theorem Shows.perform_write (hs : m.Shows first most h) (hop : ∀ delta, op ≠ .grow delta) (hfits : op.Fits) :
    (m.perform op).1 = h.answer first most op ∧
      (m.perform op).2.Shows first most (h ++ [(op, h.answer first most op)]) := by
  have hcount : (UInt32.ofNat op.bytes.length).toNat = op.count := by
    rw [op.length_bytes]
    exact UInt32.toNat_ofNat_of_lt' (Operation.count_lt hfits)
  have hgained (x : Answer) : h.pages first + History.gained (op, x) = h.pages first := by
    rw [Operation.gained_eq hop, Nat.add_zero]
  rw [Operation.perform_eq hop, Operation.answer_eq hop]
  unfold write hasRange
  rw [hcount, hs.size]
  by_cases hle : op.start.toNat + op.count ≤ h.pages first * pageSize
  · rw [if_pos (decide_eq_true hle), if_pos hle]
    have hroom : op.start.toNat + op.bytes.length ≤ m.buffer.size := by
      rw [op.length_bytes]
      exact Nat.le_trans hle (Nat.le_of_eq hs.size.symm)
    have hpages := (History.pages_append first h op .written).trans (hgained .written)
    refine ⟨rfl, hs.limit, hs.roomy.setBuffer _, ?_, hpages ▸ hs.bounded, fun a => ?_⟩
    · rw [hpages, ← hs.size]
      exact (size_setBuffer m _).trans (Buffer.size_write _ _ _)
    · rw [History.byte_append_written, op.byte?_eq, ← hs.byte]
      change (m.setBuffer _).buffer.get a = _
      rw [buffer_setBuffer, Buffer.get_write hroom]
      split <;> rfl
  · rw [if_neg (by simpa using hle), if_neg hle]
    exact ⟨rfl, hs.append (hgained .outside) Answer.noConfusion⟩

/-- A memory answers as its history says, and goes on to be what its history says. -/
theorem Shows.perform (hs : m.Shows first most h) (hfits : op.Fits) :
    (m.perform op).1 = h.answer first most op ∧
      (m.perform op).2.Shows first most (h ++ [(op, h.answer first most op)]) := by
  cases op with
  | grow delta => exact hs.perform_grow delta
  | writeByte start v | writeWord start v | writeLong start v | write start bytes =>
    exact hs.perform_write (fun _ => Operation.noConfusion) hfits

theorem Shows.performFrom (hs : m.Shows first most h) {ops : List Operation} (hfits : ∀ op ∈ ops, op.Fits) :
    (m.performFrom h ops).1 = h.follow first most ops ∧
      (m.performFrom h ops).2.Shows first most (h.follow first most ops) := by
  induction ops generalizing h m with
  | nil => exact ⟨rfl, hs⟩
  | cons op ops ih =>
    obtain ⟨hop, hops⟩ := List.forall_mem_cons.mp hfits
    obtain ⟨hanswer, hs'⟩ := hs.perform hop
    rw [Memory.performFrom, History.follow, hanswer]
    exact ih hs' hops

/-- What fails, and growing by no pages, leaves a memory as it is. -/
theorem perform_unchanged (h : (m.perform op).1.failed = true ∨ op = .grow 0) :
    (m.perform op).2 = m := by
  have hput {o : Option (Memory ρ)} (ho : (m.put o).1.failed = true) : (m.put o).2 = m := by
    cases o with
    | none => rfl
    | some m' => cases ho
  cases op with
  | grow delta =>
    rcases h with h | h
    · simp only [perform] at h ⊢
      cases hgrow : m.grow delta.toNat with
      | ok m' =>
        rw [hgrow] at h
        cases h
      | error r => rfl
    · cases h
      rfl
  | writeByte start v | writeWord start v | writeLong start v | write start bytes =>
    exact hput (h.resolve_right Operation.noConfusion)

/-- Whatever is done to a memory, it answers and has the bytes that its history says, and what fails leaves it as it
is. -/
def Abides (first most : Nat) (m : Memory ρ) : Prop :=
  ∀ ops : List Operation, (∀ op ∈ ops, op.Fits) →
    (m.performAll ops).1 = .ofAll first most ops ∧
    (m.performAll ops).2.contents = (History.ofAll first most ops).contents first ∧
    ∀ op, ((m.performAll ops).2.perform op).1.failed = true ∨ op = .grow 0 →
      ((m.performAll ops).2.perform op).2 = (m.performAll ops).2

theorem shows_of_create {guarded : Bool} (hle : first ≤ most) (h : create first most guarded = .ok m) :
    m.Shows first most [] := by
  obtain ⟨m', hm', -, hmax, hroomy, hbuffer⟩ := exists_create (ρ := ρ) hle guarded
  cases h.symm.trans hm'
  refine ⟨hmax, hroomy, ?_, hle, fun a => ?_⟩
  · rw [size, hbuffer]
    rfl
  · rw [hbuffer]
    simp [Buffer.get, Buffer.zeros, History.byte]

theorem abides_of_create {guarded : Bool} (hle : first ≤ most)
    (h : create first most guarded = .ok m) : m.Abides first most := by
  intro ops hfits
  obtain ⟨hanswers, hshows⟩ := (shows_of_create hle h).performFrom hfits
  exact ⟨hanswers, hshows.contents_eq, fun op => perform_unchanged⟩

/-- A memory in a block and one in a reserved range answer alike, whatever is done to them, and have the same bytes all
the time: the pages of the memory are those that it had at first and those that were added, and its bytes are those
that were written last. -/
theorem create_alike (hle : first ≤ most) :
    ∃ block reserved : Memory ρ, create first most false = .ok block ∧ create first most true = .ok reserved ∧
      block.isGuarded = false ∧ reserved.isGuarded = true ∧
      (∀ ops : List Operation, (∀ op ∈ ops, op.Fits) →
        (block.performAll ops).1 = (reserved.performAll ops).1 ∧
        (block.performAll ops).2.contents = (reserved.performAll ops).2.contents) ∧
      block.Abides first most ∧ reserved.Abides first most := by
  obtain ⟨block, hblock, hopen, -⟩ := exists_create (ρ := ρ) hle false
  obtain ⟨reserved, hreserved, hguarded, -⟩ := exists_create (ρ := ρ) hle true
  have hfirst := abides_of_create hle hblock
  have hsecond := abides_of_create hle hreserved
  refine ⟨block, reserved, hblock, hreserved, hopen, hguarded, fun ops hfits => ?_, hfirst, hsecond⟩
  obtain ⟨hanswers, hcontents, -⟩ := hfirst ops hfits
  obtain ⟨hanswers', hcontents', -⟩ := hsecond ops hfits
  exact ⟨hanswers.trans hanswers'.symm, hcontents.trans hcontents'.symm⟩

/-- A word is written across the end of the first page, before and after there is a second one. -/
def crossing : List Operation :=
  [.writeWord 65534 0x04030201, .grow 1, .writeWord 65534 0x04030201, .grow 1, .writeByte 131072 9]

theorem create_alike_crossing : (∀ op ∈ crossing, op.Fits) ∧
    (History.ofAll 1 2 crossing).map Prod.snd =
      [.outside, .grew 1, .written, .refused (.growLimit 2 1 2), .outside] ∧
    (History.ofAll 1 2 crossing).pages 1 = 2 ∧
    [65533, 65534, 65535, 65536, 65537, 65538].map (History.ofAll 1 2 crossing).byte = [0, 1, 2, 3, 4, 0] ∧
    ∃ block reserved : Memory Nat, create 1 2 false = .ok block ∧ create 1 2 true = .ok reserved ∧
      (block.performAll crossing).1 = .ofAll 1 2 crossing ∧ (reserved.performAll crossing).1 = .ofAll 1 2 crossing ∧
      (block.performAll crossing).2.contents = (reserved.performAll crossing).2.contents := by
  have hfits : ∀ op ∈ crossing, op.Fits := by simp [crossing, Operation.Fits]
  obtain ⟨block, reserved, hblock, hreserved, -, -, halike, hfirst, hsecond⟩ :=
    create_alike (ρ := Nat) (Nat.le_succ 1)
  exact ⟨hfits, by decide, by decide, by decide, block, reserved, hblock, hreserved, (hfirst _ hfits).1,
    (hsecond _ hfits).1, (halike _ hfits).2⟩

end ProtoWasm.Memory
