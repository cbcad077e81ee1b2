import ProtoWasm.Embedding.Basic

/-! # Definitions of the host, registered together under a name -/
namespace ProtoWasm

inductive HostDef where
  /-- A function, of which nothing but the type may be known. -/
  | func (type : FuncType) (run : Option (String → List UInt64 → Task (List UInt64)))
  | memory (min max : Nat)
  | table (min max : Nat)
  | global (type : GlobalType) (v : UInt64)

namespace HostDef

def badType? (t : FuncType) : Option ValType := (t.params ++ t.results).find? fun t => !t.isValue

def check (limit : Nat) : HostDef → Option Reason
  | func t run =>
    if 1 < t.results.length then some .multipleResults
    else match badType? t with
      | some t => some (.valueType t.toByte)
      | none => if run.isNone then some .functionMissing else none
  | memory min max =>
    if limit < max then some (.hostMemoryLimit max limit)
    else if max < min then some (.hostMemoryOrder min max)
    else none
  | table min max => if max < min then some (.hostTableOrder min max) else none
  | global t _ => if t.valType.isValue then none else some (.valueType t.valType.toByte)

end HostDef

/-- Definitions under their names, in the order in which the names were first used. -/
structure HostModule where
  name : String
  exports : List (String × HostDef) := []
  errors : List Error := []

namespace HostModule

def exportError (m : HostModule) (name : String) (e : Error) : Error :=
  .labelled s!"{m.name}.{name}" e

/-- Adds a definition. The last one of a name counts. -/
def add (m : HostModule) (limit : Nat) (name : String) (d : HostDef) : HostModule :=
  match d.check limit with
  | some r => { m with errors := m.errors ++ [m.exportError name (.because r)] }
  | none => { m with exports := assign name d m.exports }

def make (m : HostModule) (name : String) : HostDef → Action Extern
  | .func type run =>
    return .host { name := s!"{m.name}.{name}", type, run := run.getD fun _ _ => return [] }
  | .memory min max => do
    match Memory.create min max (← get).config.guarded with
    | .ok mem => return .memory (some (← Store.addMemory mem))
    | .error r => throw (m.exportError name (.because r))
  | .table min max => do return .table (← Store.addTable (.create min max))
  | .global type v => do return .global (← Store.addHostGlobal type v)

def memories (values : List (String × Extern)) : List MemoryId :=
  values.filterMap fun
    | (_, .memory m) => m
    | _ => none

def instantiate (m : HostModule) : EmbeddingAction Unit := do
  match Error.combine? m.errors with
  | some e => throw e
  | none =>
    match (← get).store.names.requireUnused m.name with
    | .error e => throw e
    | .ok () =>
      let values ← Embedding.onStoreAction (m.exports.mapM fun (name, d) => do
        return (name, ← m.make name d))
      Embedding.onStoreAction (values.forM fun (name, v) => Store.register m.name name v)
      modify fun e => { e with hostMemories := e.hostMemories ++ memories values }

end HostModule

end ProtoWasm
