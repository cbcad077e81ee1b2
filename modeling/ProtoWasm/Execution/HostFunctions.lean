import ProtoWasm.Execution.Process

/-! # What functions of the host do to the instance that calls them -/
namespace ProtoWasm

inductive HostBehaviour where
  | sum
  | echo
  | fail
  | trap
  /-- Grows the memory of the caller and gives the pages before, or the error. -/
  | grow
  /-- Grows the memory of the caller and gives the pages before, or the largest 32-bit number. -/
  | tryGrow
  | callback
  | close
  | nothing
deriving DecidableEq, Repr, Inhabited

namespace HostBehaviour

/-- The behaviour of a name. Some names mean something else in an embedding than in a store. -/
def ofName (embedded : Bool) : String → HostBehaviour
  | "sum" => sum
  | "echo" => echo
  | "fail" => fail
  | "trap" => if embedded then nothing else trap
  | "grow" => if embedded then tryGrow else grow
  | "callback" => callback
  | "close" => if embedded then close else nothing
  | _ => nothing

def run (caller : String) (params : List UInt64) : HostBehaviour → Task (List UInt64)
  | sum => return [params.sum]
  | echo => return params
  | fail => throw (.ofText "host boom")
  | trap => throw (.trap .divideByZero 7 none)
  | grow => do
    let delta := (params.headD 0).toNat % 2 ^ 32
    return [.ofNat (← Task.grow delta)]
  | tryGrow => do
    if ← Task.request .hasMemory then
      let delta := (params.headD 0).toNat % 2 ^ 32
      match ← Task.request (.grow delta) with
      | .ok pages => return [.ofNat pages]
      | .error _ => return [0xffffffff]
    else throw (.ofText "no memory")
  | callback => do
    match ← Task.request (.callExport "cb" params) with
    | none => throw (.ofText "no cb")
    | some r => MonadExcept.ofExcept r
  | close => throw (.because (.closeByHost caller))
  | nothing => return []

/-- A function of the host that leaves its call in the log under a name, with the caller as `shown`. -/
def toFunction (b : HostBehaviour) (name label : String) (type : FuncType)
    (shown : String → String) : HostFunction where
  name
  type
  run caller params := do
    Task.note (.host label (shown caller) params)
    b.run caller params

end HostBehaviour

end ProtoWasm
