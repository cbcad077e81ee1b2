import ProtoWasm.Error
import Std.Data.HashMap

/-! # Function tables

A table has elements that are uninitialized until a function is written to them. With the function goes
the number of its signature, which an indirect call compares with the one it expects.
-/
namespace ProtoWasm

structure Element (φ : Type) where
  typeId : Nat
  function : φ
deriving DecidableEq, Repr

structure Table (φ : Type) where
  size : Nat
  min : Nat
  max : Nat
  cells : Std.HashMap Nat (Element φ) := ∅
deriving Inhabited

namespace Table

variable {φ : Type}

def uninitialized : Nat := 2 ^ 32 - 1

def create (min max : Nat) : Table φ := { size := min, min, max }

def get? (t : Table φ) (i : Nat) : Option (Element φ) := t.cells[i]?

def set (t : Table φ) (i : Nat) (e : Element φ) : Table φ :=
  { t with cells := if e.typeId = uninitialized then t.cells.erase i else t.cells.insert i e }

def lookup (t : Table φ) (i typeId : Nat) : Except TrapKind φ :=
  if t.size ≤ i then .error .tableOutOfBounds
  else match t.get? i with
    | none => .error .tableOutOfBounds
    | some e => if e.typeId = typeId then .ok e.function else .error .signatureMismatch

end Table

end ProtoWasm
