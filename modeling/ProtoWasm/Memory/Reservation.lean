import ProtoWasm.Error
import ProtoWasm.Memory.Buffer

/-! # Ranges of addresses of which a first part is committed -/
namespace ProtoWasm

structure Reservation where
  capacity : Nat := 0
  buffer : Buffer := {}
deriving Inhabited

namespace Reservation

def commit (r : Reservation) (size : Nat) : Except Reason Reservation :=
  if r.capacity < size then .error (.commit size r.capacity)
  else if r.buffer.size < size then .ok { r with buffer := r.buffer.extend size }
  else .ok r

def reserve (capacity committed : Nat) : Except Reason Reservation := { capacity : Reservation }.commit committed

def release (_ : Reservation) : Reservation := {}

end Reservation

end ProtoWasm
