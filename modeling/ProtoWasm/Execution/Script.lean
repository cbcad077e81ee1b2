import ProtoWasm.Execution.Process

/-! # An executor that follows scripts in the place of graphs -/
namespace ProtoWasm.Script

inductive Action where
  | call (site : NodeId) (params : List UInt64) (caught : Bool)
  | callIndirect (site : NodeId) (key : Nat) (params : List UInt64) (caught : Bool)
  | grow (site : NodeId) (delta : Nat) (caught : Bool)
  | reference (site : NodeId)
  | finish (results : List UInt64)
  | finishLast
  | finishParams
  | trap (kind : TrapKind) (offset : Nat)
  | fail (message : String)
deriving DecidableEq, Repr, Inhabited

structure Scripts where
  /-- Actions by the name of an instance and the index of a function, as in `name:0`. -/
  byKey : List (String × List Action) := []
  otherwise : List Action := []
deriving DecidableEq, Repr, Inhabited

/-- Performs an action that gives results and keeps them, or goes on without any if it failed and the
failure is caught. -/
def perform (name : String) (site : NodeId) (caught : Bool) (t : Task (List UInt64)) :
    Task (List UInt64) := do
  let act : Task (List UInt64) := do
    let results ← t
    Task.note (.performed name site results)
    return results
  if caught then
    tryCatch act fun e => do
      Task.note (.caught e.message)
      return []
  else act

/-- Follows a script. `last` are the results that an action left. -/
def follow (params : List UInt64) : List Action → (last : List UInt64) → Task (List UInt64)
  | [], _ => return []
  | a :: rest, last => do
    match a with
    | .call site args caught =>
      follow params rest (← perform "call" site caught (Task.call site args))
    | .callIndirect site key args caught =>
      follow params rest (← perform "call_indirect" site caught (Task.callIndirect site key args))
    | .grow site delta caught =>
      let pages : Task (List UInt64) := do return [.ofNat (← Task.grow delta)]
      follow params rest (← perform "grow" site caught pages)
    | .reference site =>
      match ← Task.request (.reference site) with
      | none => Task.note (.noReference site)
      | some (.base current) => Task.note (.baseReference site current)
      | some (.size bytes) => Task.note (.sizeReference site bytes)
      follow params rest last
    | .finish results => return results
    | .finishLast => return last
    | .finishParams => return params
    | .trap kind offset => throw (.trap kind offset none)
    | .fail message => throw (.ofText message)

def executor (s : Scripts) : Executor := fun inv => do
  let key := s!"{inv.instanceName}:{inv.function}"
  Task.note (.enter key inv.params)
  follow inv.params ((s.byKey.lookup key).getD s.otherwise) []

end ProtoWasm.Script
