import ProtoWasm.Code.Compile
import ProtoWasm.Execution.Process
import ProtoWasm.Memory.Basic
import ProtoWasm.Namespace
import ProtoWasm.Table

/-! # The store

The store holds everything that instances are made of. Functions, tables, memories, globals and
instances are known by their numbers, so that instances can share them.
-/
namespace ProtoWasm

abbrev InstanceId := Nat
abbrev TableId := Nat
abbrev MemoryId := Nat
abbrev GlobalId := Nat
abbrev StorageId := Nat

structure FunctionInstance where
  owner : InstanceId
  index : Nat
  type : FuncType
  typeId : Nat
  name : String
  host : Option HostFunction := none

/-- A view of the storage that holds the value of a global. -/
structure GlobalInstance where
  type : GlobalType
  storage : StorageId
  offset : Nat
deriving DecidableEq, Repr, Inhabited

inductive Extern where
  | func (f : FunctionId)
  | host (f : HostFunction)
  /-- A value that claims to be a function and cannot be called, with the name of its type. -/
  | foreignFunc (typeName : String)
  | table (t : TableId)
  /-- A memory, or none: a module that has no memory may still export it. -/
  | memory (m : Option MemoryId)
  | global (g : GlobalId)

def Extern.kind : Extern → ExternKind
  | func _ | host _ | foreignFunc _ => .func
  | table _ => .table
  | memory _ => .memory
  | global _ => .global

inductive Address where
  /-- Nowhere: the memory has no range. -/
  | null
  /-- The one place of all blocks without bytes. -/
  | empty
  /-- The block of a memory after so many moves. -/
  | block (m : MemoryId) (moves : Nat)
  | reserved (m : MemoryId)
  | foreign (n : Nat)
deriving DecidableEq, Repr, Inhabited

structure Extent where
  address : Address
  size : Nat
deriving DecidableEq, Repr, Inhabited

def Memory.extent {ρ : Type} (m : Memory ρ) (id : MemoryId) : Extent where
  address := match m.backing with
    | .block b => if b.size = 0 then .empty else .block id m.moves
    | .reserved r => if r.capacity = 0 then .null else .reserved id
  size := m.size

inductive Embedded where
  | base (a : Address)
  | size (bytes : Nat)
deriving DecidableEq, Repr, Inhabited

def Embedded.of (kind : MemoryRefKind) (e : Extent) : Embedded :=
  match kind with
  | .base => .base e.address
  | .size => .size e.size

def Embedded.relocate (e : Embedded) (target : Extent) : Embedded :=
  match e with
  | .base _ => .base target.address
  | .size _ => .size target.size

structure MemorySite where
  function : Nat
  node : NodeId
  value : Embedded
deriving DecidableEq, Repr, Inhabited

structure LinkedCode where
  name : String
  compiled : CompiledModule
  table : CodeTable
  memorySites : List MemorySite := []
  closed : Bool := false
deriving DecidableEq, Repr, Inhabited

namespace LinkedCode

def close (c : LinkedCode) : LinkedCode := { c with closed := true, table := {}, memorySites := [] }

def sitesOf (t : CodeTable) (e : Extent) : List MemorySite :=
  t.entries.flatMap fun
    | .function i g => g.memoryRefs.toList.map fun r => ⟨i, r.node, .of r.kind e⟩
    | _ => []

def relocate (c : LinkedCode) (target : Extent) : LinkedCode :=
  { c with memorySites := c.memorySites.map fun s => { s with value := s.value.relocate target } }

def stale (c : LinkedCode) (target : Extent) : Nat :=
  c.memorySites.countP fun s => s.value != s.value.relocate target

def memoryValue? (c : LinkedCode) (function : Nat) (node : NodeId) : Option Embedded :=
  (c.memorySites.find? fun s => s.function == function && s.node == node).map MemorySite.value

end LinkedCode

/-- An instance of a module. Entries of its index spaces are set when imports are bound and definitions
are made. -/
structure Instance where
  name : String
  module : Module
  functions : List (Option FunctionId)
  globals : List (Option GlobalId)
  storage : StorageId := 0
  tables : List (Option TableId)
  memory : Option MemoryId := none
  ownsMemory : Bool := false
  code : Option LinkedCode := none
  exports : List Export := []
  exported : List (String × Extern) := []
  closed : Bool := false

namespace Instance

def ofModule (name : String) (m : Module) : Instance where
  name
  module := m
  functions := List.replicate m.functions.length none
  globals := List.replicate m.globals.length none
  tables := List.replicate m.tables.length none

def exported? (i : Instance) (name : String) : Option Extern := i.exported.lookup name

def exportedFunction? (i : Instance) (name : String) : Option FunctionId :=
  match i.exported? name with
  | some (.func f) => some f
  | _ => none

def exportedMemory? (i : Instance) (name : String) : Option MemoryId :=
  match i.exported? name with
  | some (.memory m) => m
  | _ => none

def exportedGlobal? (i : Instance) (name : String) : Option GlobalId :=
  match i.exported? name with
  | some (.global g) => some g
  | _ => none

end Instance

structure Metrics where
  functionsCompiled : Nat := 0
  functionsFailed : Nat := 0
  modulesCompiled : Nat := 0
  instantiated : Nat := 0
  instantiationsFailed : Nat := 0
  pagesGrown : Nat := 0
deriving DecidableEq, Repr, Inhabited

/-- The metrics under their names. Counts of instances that were never made are left out. -/
def Metrics.samples (m : Metrics) : List (String × Nat) :=
  let instances (result : String) (n : Nat) : List (String × Nat) :=
    if n = 0 then [] else [(s!"wasmengine_store_instantiations_total\x7bresult={result}\x7d", n)]
  [("wasmengine_compile_functions_total", m.functionsCompiled),
   ("wasmengine_compile_failures_total", m.functionsFailed),
   ("wasmengine_compile_module_duration_seconds", m.modulesCompiled),
   ("wasmengine_memory_pages_grown_total", m.pagesGrown)] ++
  instances "error" m.instantiationsFailed ++ instances "ok" m.instantiated

structure StoreConfig where
  options : CompileOptions := {}
  /-- Functions of other instances are called by their code and not by way of their instance. -/
  shortcut : Bool := false
  /-- Memories of instances grow in place. -/
  guarded : Bool := false
  executor : Executor := Executor.none

structure Store where
  config : StoreConfig := {}
  nextKey : ModuleKey := 0
  cache : CodeCache := {}
  signatures : List String := []
  functions : Array FunctionInstance := #[]
  tables : Array (Table FunctionId) := #[]
  memories : Array (Memory InstanceId) := #[]
  storages : Array (List UInt8) := #[]
  globals : Array GlobalInstance := #[]
  instances : Array Instance := #[]
  names : Namespace Extern := {}
  metrics : Metrics := {}
  log : Array Event := #[]
  foreignBlocks : Nat := 0

/-- What is done with a store. A defect ends it. -/
abbrev StoreM := StateT Store (Except Defect)

/-- What may fail with an error. The store keeps what was done to it before. -/
abbrev Action := ExceptT Error StoreM

namespace StoreM

def defect {α : Type} (d : Defect) : StoreM α := fun _ => .error d

def expect {α : Type} (d : Defect) : Option α → StoreM α
  | some a => return a
  | none => defect d

def checked {α : Type} : Except Defect α → StoreM α
  | .ok a => return a
  | .error d => defect d

end StoreM

namespace Store

open StoreM

def instance? (s : Store) (i : InstanceId) : Option Instance := s.instances[i]?

def getInstance (i : InstanceId) : StoreM Instance := do expect .unset (← get).instances[i]?

def modifyInstance (i : InstanceId) (f : Instance → Instance) : StoreM Unit :=
  modify fun s => { s with instances := s.instances.modify i f }

def getFunction (f : FunctionId) : StoreM FunctionInstance := do expect .unset (← get).functions[f]?

def getTable (t : TableId) : StoreM (Table FunctionId) := do expect .unset (← get).tables[t]?

def getMemory (m : MemoryId) : StoreM (Memory InstanceId) := do expect .unset (← get).memories[m]?

def setMemory (m : MemoryId) (mem : Memory InstanceId) : StoreM Unit :=
  modify fun s => { s with memories := s.memories.setIfInBounds m mem }

def getGlobal (g : GlobalId) : StoreM GlobalInstance := do expect .unset (← get).globals[g]?

def getCode (i : InstanceId) : StoreM LinkedCode := do expect .unset (← getInstance i).code

def entry {α : Type} (xs : List (Option α)) (i : Nat) : StoreM α :=
  match xs[i]? with
  | none => defect .index
  | some x => expect .unset x

def addFunction (f : FunctionInstance) : StoreM FunctionId :=
  modifyGet fun s => (s.functions.size, { s with functions := s.functions.push f })

def addTable (t : Table FunctionId) : StoreM TableId :=
  modifyGet fun s => (s.tables.size, { s with tables := s.tables.push t })

def addMemory (m : Memory InstanceId) : StoreM MemoryId :=
  modifyGet fun s => (s.memories.size, { s with memories := s.memories.push m })

def addStorage (bytes : List UInt8) : StoreM StorageId :=
  modifyGet fun s => (s.storages.size, { s with storages := s.storages.push bytes })

def addGlobal (g : GlobalInstance) : StoreM GlobalId :=
  modifyGet fun s => (s.globals.size, { s with globals := s.globals.push g })

def addInstance (i : Instance) : StoreM InstanceId :=
  modifyGet fun s => (s.instances.size, { s with instances := s.instances.push i })

def register (module field : String) (v : Extern) : StoreM Unit :=
  modify fun s => { s with names := s.names.register module field v }

def note (e : Event) : StoreM Unit := modify fun s => { s with log := s.log.push e }

def typeId (t : FuncType) : StoreM Nat :=
  modifyGet fun s =>
    match s.signatures.findIdx? (· == t.text) with
    | some i => (i, s)
    | none => (s.signatures.length, { s with signatures := s.signatures ++ [t.text] })

end Store

end ProtoWasm
