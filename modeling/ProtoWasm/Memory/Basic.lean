import ProtoWasm.Memory.Reservation

/-! # Linear memory

A memory has a number of pages and may grow up to a maximum. Its bytes are either in a block that is replaced by a
larger one when the memory grows, or in a range that was reserved for the maximum. Whoever depends on where the bytes
are is listed with the memory and is told when it grows.
-/
namespace ProtoWasm

inductive Backing where
  | block (buffer : Buffer)
  | reserved (r : Reservation)
deriving Inhabited

structure Memory (ρ : Type) where
  min : Nat
  max : Nat
  backing : Backing
  dependents : List ρ := []
  moves : Nat := 0
deriving Inhabited

namespace Memory

variable {ρ : Type}

def create (min max : Nat) (guarded : Bool) : Except Reason (Memory ρ) :=
  if guarded then
    match Reservation.reserve (bytesOfPages max) (bytesOfPages min) with
    | .ok r => .ok { min, max, backing := .reserved r }
    | .error _ => .error (.reserve max (bytesOfPages min) (bytesOfPages max))
  else .ok { min, max, backing := .block (.zeros (bytesOfPages min)) }

def buffer (m : Memory ρ) : Buffer :=
  match m.backing with
  | .block b => b
  | .reserved r => r.buffer

def isGuarded (m : Memory ρ) : Bool :=
  match m.backing with
  | .block _ => false
  | .reserved _ => true

def size (m : Memory ρ) : Nat := m.buffer.size

def pages (m : Memory ρ) : Nat := m.size / pageSize

def addDependent (m : Memory ρ) (r : ρ) : Memory ρ := { m with dependents := m.dependents ++ [r] }

def removeDependent [BEq ρ] (m : Memory ρ) (r : ρ) : Memory ρ :=
  { m with dependents := m.dependents.erase r }

def setBuffer (m : Memory ρ) (b : Buffer) : Memory ρ :=
  { m with backing := match m.backing with
      | .block _ => .block b
      | .reserved r => .reserved { r with buffer := b } }

def hasRange (m : Memory ρ) (offset n : UInt32) : Bool := offset.toNat + n.toNat ≤ m.size

def read (m : Memory ρ) (offset n : UInt32) : Except Defect (Option (List UInt8)) :=
  if m.hasRange offset n then (m.buffer.slice offset.toNat (offset + n).toNat).map some
  else .ok none

def readByte (m : Memory ρ) (offset : UInt32) : Option UInt8 :=
  if m.hasRange offset 1 then some (m.buffer.get offset.toNat) else none

def readWord (m : Memory ρ) (n offset : UInt32) : Except Defect (Option Nat) := do
  return (← m.read offset n).map LittleEndian.decode

/-- Replaces the bytes at an offset, if they are all in the memory. Their number is taken as a 32-bit
word. -/
def write (m : Memory ρ) (offset : UInt32) (bs : List UInt8) : Option (Memory ρ) :=
  if m.hasRange offset (.ofNat bs.length) then some (m.setBuffer (m.buffer.write offset.toNat bs))
  else none

def writeWord (m : Memory ρ) (n : Nat) (offset : UInt32) (v : Nat) : Option (Memory ρ) :=
  m.write offset (LittleEndian.encode n v)

/-- The memory with so many bytes, which are not fewer than it has. -/
def resize (m : Memory ρ) (size : Nat) : Except Reason (Memory ρ) :=
  match m.backing with
  | .block b => .ok { m with backing := .block (b.extend size), moves := m.moves + 1 }
  | .reserved r => match r.commit size with
    | .ok r => .ok { m with backing := .reserved r }
    | .error _ => .error (.growCommit size r.capacity)

def grow (m : Memory ρ) (delta : Nat) : Except Reason (Memory ρ) :=
  if delta = 0 then .ok m
  else if m.max < m.pages + delta then .error (.growLimit m.pages delta m.max)
  else m.resize (bytesOfPages (m.pages + delta))

def notified (m : Memory ρ) (delta : Nat) : List ρ := if delta = 0 then [] else m.dependents

/-- Ends the use of a memory. A reserved range is given back. -/
def close (m : Memory ρ) : Memory ρ :=
  { m with
    dependents := []
    backing := match m.backing with
      | .block b => .block b
      | .reserved r => .reserved r.release }

end Memory

end ProtoWasm
