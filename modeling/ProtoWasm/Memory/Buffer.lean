import ProtoWasm.Binary.LittleEndian
import ProtoWasm.Defect
import Std.Data.HashMap

/-! # Ranges of bytes of which only those ever written are kept -/
namespace ProtoWasm

structure Buffer where
  size : Nat := 0
  cells : Std.HashMap Nat UInt8 := ∅
deriving Inhabited

namespace Buffer

def zeros (size : Nat) : Buffer := { size }

def get (b : Buffer) (i : Nat) : UInt8 := b.cells.getD i 0

def set (b : Buffer) (i : Nat) (v : UInt8) : Buffer := { b with cells := b.cells.insert i v }

def extend (b : Buffer) (size : Nat) : Buffer := { b with size }

def bytes (b : Buffer) (offset n : Nat) : List UInt8 := (List.range n).map fun i => b.get (offset + i)

def slice (b : Buffer) (lo hi : Nat) : Except Defect (List UInt8) :=
  if lo ≤ hi ∧ hi ≤ b.size then .ok (b.bytes lo (hi - lo)) else .error .range

def write (b : Buffer) (offset : Nat) (bs : List UInt8) : Buffer :=
  (bs.take (b.size - offset)).zipIdx.foldl (fun b (v, i) => b.set (offset + i) v) b

end Buffer

end ProtoWasm
