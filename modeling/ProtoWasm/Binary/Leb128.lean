import ProtoWasm.Numbers

/-! # Variable-length integers

Integers as groups of seven bits, lowest group first; every byte but the last has its high bit set.
A number of `w` bits takes at most `⌈w / 7⌉` bytes, and the last of so many holds only the bits that
are left over. Reading tells apart a number that does not fit from one that the bytes cut short.
-/
namespace ProtoWasm.Leb128

inductive Width where
  | w32
  | w64
deriving DecidableEq, Repr, Inhabited

def Width.bits : Width → Nat
  | w32 => 32
  | w64 => 64

inductive Fault where
  | truncated
  | overflow
deriving DecidableEq, Repr

/-- The unsigned number at the start of the bytes, of which `bits` bits are still wanted, and how many
bytes it takes. -/
def readUnsigned (bits : Nat) : List UInt8 → Except Fault (Nat × Nat)
  | [] => .error .truncated
  | b :: rest =>
    if bits ≤ 7 then
      if b.toNat < 2 ^ bits then .ok (b.toNat, 1) else .error .overflow
    else if b.toNat < 128 then .ok (b.toNat, 1)
    else match readUnsigned (bits - 7) rest with
      | .ok (v, n) => .ok (b.toNat - 128 + 128 * v, n + 1)
      | .error e => .error e

/-- The signed number at the start of the bytes. The sign is the highest bit of the last group, and the
bits that the last possible group has too many agree with it. -/
def readSigned (bits : Nat) : List UInt8 → Except Fault (Int × Nat)
  | [] => .error .truncated
  | b :: rest =>
    if bits ≤ 7 then
      if b.toNat < 2 ^ (bits - 1) then .ok (b.toNat, 1)
      else if 128 - 2 ^ (bits - 1) ≤ b.toNat ∧ b.toNat < 128 then .ok ((b.toNat : Int) - 128, 1)
      else .error .overflow
    else if b.toNat < 64 then .ok (b.toNat, 1)
    else if b.toNat < 128 then .ok ((b.toNat : Int) - 128, 1)
    else match readSigned (bits - 7) rest with
      | .ok (v, n) => .ok ((b.toNat : Int) - 128 + 128 * v, n + 1)
      | .error e => .error e

def decodeUnsigned (w : Width) (bytes : List UInt8) : Except Fault (Nat × Nat) :=
  readUnsigned w.bits bytes

def decodeSigned (w : Width) (bytes : List UInt8) : Except Fault (Int × Nat) :=
  readSigned w.bits bytes

def encodeUnsigned (n : Nat) : List UInt8 :=
  if n < 128 then [UInt8.ofNat n]
  else UInt8.ofNat (n % 128 + 128) :: encodeUnsigned (n / 128)
termination_by n
decreasing_by omega

def encodeSigned (n : Int) : List UInt8 :=
  if -64 ≤ n ∧ n < 64 then [UInt8.ofNat (n % 128).toNat]
  else UInt8.ofNat ((n % 128).toNat + 128) :: encodeSigned (n / 128)
termination_by n.natAbs
decreasing_by omega

end ProtoWasm.Leb128
