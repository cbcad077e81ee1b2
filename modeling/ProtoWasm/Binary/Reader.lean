import ProtoWasm.Binary.LittleEndian
import ProtoWasm.Fault

/-! # Reading bytes

A reader takes bytes from the front of an input and either gives a value and what is left, or stops
with a fault and the offset at which it arose. Offsets are absolute: they count from the start of the
module and not from the start of the input at hand.
-/
namespace ProtoWasm

/-- Bytes not read yet, and the absolute offset of the first of them. -/
structure Input where
  bytes : List UInt8
  offset : Int
deriving DecidableEq, Repr, Inhabited

namespace Input

def remaining (i : Input) : Nat := i.bytes.length

def skip (i : Input) (n : Nat) : Input := ⟨i.bytes.drop n, i.offset + n⟩

end Input

structure ReadError where
  offset : Int
  fault : Fault
deriving DecidableEq, Repr

abbrev Reader := StateT Input (Except ReadError)

namespace Reader

def failAt {α : Type} (offset : Int) (fault : Fault) : Reader α := fun _ => .error ⟨offset, fault⟩

def refuse (broken : Prop) [Decidable broken] (offset : Int) (fault : Fault) : Reader Unit :=
  if broken then failAt offset fault else return ()

def offset : Reader Int := fun i => .ok (i.offset, i)

def remaining : Reader Nat := fun i => .ok (i.remaining, i)

def measured {α : Type} (r : Reader α) : Reader (α × Nat) := fun i => do
  let (a, rest) ← r i
  return ((a, i.remaining - rest.remaining), rest)

def take (n : Nat) (what : String) : Reader (List UInt8) := fun i =>
  if n ≤ i.remaining then .ok (i.bytes.take n, i.skip n)
  else .error ⟨i.offset, .short what n⟩

def byte (what : String) : Reader UInt8 := fun i =>
  match i.bytes with
  | b :: rest => .ok (b, ⟨rest, i.offset + 1⟩)
  | [] => .error ⟨i.offset, .short what 1⟩

def word (n : Nat) (what : String) : Reader Nat := do
  return LittleEndian.decode (← take n what)

private def varintFault (what : String) (w : Leb128.Width) : Leb128.Fault → Fault
  | .overflow => .varint what w
  | .truncated => .missing what

def unsigned (w : Leb128.Width) (what : String) : Reader Nat := fun i =>
  match Leb128.decodeUnsigned w i.bytes with
  | .ok (v, n) => .ok (v, i.skip n)
  | .error e => .error ⟨i.offset, varintFault what w e⟩

def signed (w : Leb128.Width) (what : String) : Reader Int := fun i =>
  match Leb128.decodeSigned w i.bytes with
  | .ok (v, n) => .ok (v, i.skip n)
  | .error e => .error ⟨i.offset, varintFault what w e⟩

def u32 (what : String) : Reader Nat := unsigned .w32 what

def name (what : String) : Reader String := do
  let start ← offset
  let n ← u32 (what ++ " length")
  let bytes ← take n what
  match String.fromUTF8? ⟨bytes.toArray⟩ with
  | some s => return s
  | none => failAt start (.notUtf8 what)

def window (n : Nat) (what : String) : Reader Input := do
  let start ← offset
  return ⟨← take n what, start⟩

/-- Reads all of a window with `r`. What `r` leaves is given back. -/
def inside {α : Type} (w : Input) (r : Reader α) : Reader (α × Input) := fun i =>
  match r w with
  | .ok a => .ok (a, i)
  | .error e => .error e

def times {α : Type} (n : Nat) (r : Nat → Reader α) : Reader (List α) :=
  (List.range n).mapM r

end Reader

end ProtoWasm
