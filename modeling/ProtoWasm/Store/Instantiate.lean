import ProtoWasm.Store.Invoke
import ProtoWasm.Store.Link

/-! # Instances

A module is instantiated in steps: memory and storage are made, imports are bound in their order, definitions follow,
segments are checked and only then written, the start function runs, and exports are registered. A step that fails
gives back what the instance has by then and registers nothing.
-/
namespace ProtoWasm.Store

open StoreM

def failStage {α : Type} (name stage : String) (e : Error) : Action α :=
  throw (.instantiation name stage e)

def stage {α : Type} (name stage : String) (a : Action α) : Action α :=
  tryCatch a fun e => failStage name stage e

def requireFit (fits : Bool) (r : Reason) : Action Unit :=
  if fits then return () else throw (.because r)

def bindFunction (i : InstanceId) (index : Nat) (expected : FuncType) : Extern → Action FunctionId
  | .func f => do
    let found := (← getFunction f).type
    requireFit (found = expected) (.importSignature found expected)
    return f
  | .host f => do
    requireFit (f.type = expected) (.importSignature f.type expected)
    let id ← typeId expected
    addFunction { owner := i, index, type := expected, typeId := id, name := f.name, host := some f }
  | .foreignFunc typeName => throw (.because (.importValue typeName))
  | _ => defect .unset

def setEntry {α : Type} (xs : List (Option α)) (i : Nat) (a : α) : StoreM (List (Option α)) :=
  if i < xs.length then return xs.set i (some a) else defect .index

/-- Binds an import to the value that was found for it. Tables, memories and globals are bound before it
is known whether they fit. -/
def bindImport (i : InstanceId) (imp : Import) (v : Extern) : Action Unit := do
  requireFit (v.kind = imp.desc.kind) (.importKind imp.desc.kind v.kind)
  let inst ← getInstance i
  let put (inst : Instance) : StoreM Unit := modifyInstance i fun _ => inst
  match imp.desc, v with
  | .func sig, v =>
    let expected ← (expect .index inst.module.signatures[sig]? : StoreM FuncType)
    let f ← bindFunction i imp.indexPerType expected v
    put { inst with functions := ← setEntry inst.functions imp.indexPerType f }
  | .table desc, .table t =>
    let table ← getTable t
    put { inst with tables := ← setEntry inst.tables imp.indexPerType t }
    requireFit (desc.min ≤ table.size && table.max ≤ desc.max)
      (.importTable table.size table.max desc.min desc.max)
  | .memory desc, .memory m =>
    let m ← (expect .unset m : StoreM MemoryId)
    let mem ← getMemory m
    put { inst with memory := some m }
    requireFit (desc.min ≤ mem.pages && mem.max ≤ desc.max)
      (.importMemory mem.pages mem.max desc.min desc.max)
  | .global desc, .global g =>
    let found := (← getGlobal g).type
    put { inst with globals := ← setEntry inst.globals imp.indexPerType g }
    requireFit (found.valType = desc.valType) (.importGlobalType found.valType desc.valType)
    requireFit (found.isMutable = desc.isMutable) .importMutability
  | _, _ => return ()

def bindAll (i : InstanceId) (name : String) : List (Import × Nat) → Action Unit
  | [] => return ()
  | (imp, n) :: rest => do
    stage name s!"import[{n}] {imp.module}.{imp.name}" do
      match (← get).names.resolve? imp.module imp.name with
      | none => throw (.ofMark .importNotFound)
      | some v => bindImport i imp v
    bindAll i name rest

def defineFunctions (i : InstanceId) : Instance → List Nat → StoreM Instance
  | inst, [] => return inst
  | inst, index :: rest => do
    let f ← expect .index inst.module.functions[index]?
    let id ← typeId f.type
    let f ← addFunction
      { owner := i, index, type := f.type, typeId := id, name := inst.module.functionName index }
    defineFunctions i { inst with functions := ← setEntry inst.functions index f } rest

def defineGlobals : Instance → List (Global × Nat) → StoreM Instance
  | inst, [] => return inst
  | inst, (g, index) :: rest => do
    let id ← addInstanceGlobal g.type inst.storage g.offset
    setGlobal id (← evalConst inst.globals g.init)
    defineGlobals { inst with globals := ← setEntry inst.globals index id } rest

def defineTables : Instance → List (TableType × Nat) → StoreM Instance
  | inst, [] => return inst
  | inst, (t, index) :: rest => do
    let id ← addTable (.create t.min t.max)
    defineTables { inst with tables := ← setEntry inst.tables index id } rest

def define (i : InstanceId) (inst : Instance) : StoreM Instance := do
  let m := inst.module
  let inst ← defineFunctions i inst m.definedIndices
  let inst ← defineGlobals inst (m.globals.zipIdx.drop m.importedGlobals)
  defineTables inst (m.tables.zipIdx.drop m.importedTables)

def outOfBounds (offset : Int) (count size : Nat) : Bool := offset < 0 || (size : Int) < offset + count

def checkData (inst : Instance) : List (DataSegment × Nat) → Action Unit
  | [] => return ()
  | (d, n) :: rest => do
    let offset ← evalOffset inst.globals d.offset
    let size ← match inst.memory with
      | none => pure 0
      | some m => do
        let mem ← getMemory m
        pure mem.size
    if outOfBounds offset d.init.length size then
      failStage inst.name s!"data[{n}]" (.because (.dataBounds offset d.init.length size))
    else checkData inst rest

def checkElements (inst : Instance) : List (ElementSegment × Nat) → Action Unit
  | [] => return ()
  | (e, n) :: rest => do
    let offset ← evalOffset inst.globals e.offset
    let t ← (entry inst.tables e.table : StoreM TableId)
    let size := (← getTable t).size
    if outOfBounds offset e.init.length size then
      failStage inst.name s!"element[{n}]" (.because (.elementBounds offset e.init.length size))
    else checkElements inst rest

def writeFunctions (inst : Instance) (t : TableId) : (index : Int) → List Nat → StoreM Unit
  | _, [] => return ()
  | at_, index :: rest => do
    let id ← entry inst.functions index
    let f ← getFunction id
    let size := (← getTable t).size
    if at_ < 0 ∨ (size : Int) ≤ at_ then defect .index
    else
      modify fun s =>
        { s with tables := s.tables.modify t fun table => table.set at_.toNat ⟨f.typeId, id⟩ }
      writeFunctions inst t (at_ + 1) rest

def writeElements (inst : Instance) : List ElementSegment → StoreM Unit
  | [] => return ()
  | e :: rest => do
    let offset ← evalOffset inst.globals e.offset
    writeFunctions inst (← entry inst.tables e.table) offset e.init
    writeElements inst rest

def writeData (inst : Instance) : List DataSegment → StoreM Unit
  | [] => return ()
  | d :: rest => do
    let offset ← evalOffset inst.globals d.offset
    let id ← expect .unset inst.memory
    let mem ← getMemory id
    if offset < 0 ∨ (mem.size : Int) < offset then defect .range
    else
      setMemory id (mem.setBuffer (mem.buffer.write offset.toNat d.init))
      writeData inst rest

def exportValue (inst : Instance) (e : Export) : StoreM Extern :=
  match e.kind with
  | .func => do return .func (← entry inst.functions e.index)
  | .table => do return .table (← entry inst.tables e.index)
  | .memory => return .memory inst.memory
  | .global => do return .global (← entry inst.globals e.index)
  | .unknown _ => defect .exportKind

def exportValues (inst : Instance) : List Export → List (String × Extern) → StoreM (List (String × Extern))
  | [], values => return values
  | e :: rest, values => do exportValues inst rest (assign e.name (← exportValue inst e) values)

/-- The export that a flag of the memory stands for, unless there is one of its name. -/
def implicitExport (m : Module) : List Export :=
  match m.memory with
  | some mem =>
    if mem.exported && !m.exports.any (·.name == "memory") then [⟨.memory, "memory", 0⟩] else []
  | none => []

def buildExports (inst : Instance) : StoreM Instance := do
  let exports := inst.module.exports ++ implicitExport inst.module
  return { inst with exports, exported := ← exportValues inst exports [] }

def release (i : InstanceId) : StoreM Unit := do
  let inst ← getInstance i
  modifyInstance i fun x => { x with closed := true, code := x.code.map LinkedCode.close }
  match inst.memory with
  | none => return ()
  | some id =>
    let mem ← getMemory id
    let mem := if inst.code.isSome then mem.removeDependent i else mem
    setMemory id (if inst.ownsMemory then mem.close else mem)

def closeInstance (i : InstanceId) : StoreM Unit := do
  if (← getInstance i).closed then return ()
  else release i

def makeMemory (inst : Instance) : Action Instance := do
  match inst.module.memory with
  | none => return inst
  | some t =>
    if t.imported then return inst
    else match Memory.create t.min t.max (← get).config.guarded with
      | .error r => failStage inst.name "memory" (.because r)
      | .ok mem => return { inst with memory := some (← addMemory mem), ownsMemory := true }

def runStart (inst : Instance) (canceled : Bool) : Action Unit := do
  match inst.module.start with
  | none => return ()
  | some f =>
    let f ← (entry inst.functions f : StoreM FunctionId)
    let start : Action (List UInt64) := call f [] canceled
    let _ ← tryCatch start fun e => failStage inst.name "start" (.marked .startFunction e)

/-- The last steps before the start function: segments are checked, the code is linked, and segments are
written. -/
def activate (i : InstanceId) (key : ModuleKey) (inst : Instance) : Action Instance := do
  checkData inst inst.module.data.zipIdx
  checkElements inst inst.module.elements.zipIdx
  let code ← stage inst.name "engine" (linkInstance inst.name key inst.module inst.functions inst.memory)
  let inst := { inst with code := some code }
  modifyInstance i fun _ => inst
  match inst.memory with
  | none => pure ()
  | some id =>
    let mem ← getMemory id
    setMemory id (mem.addDependent i)
  writeElements inst inst.module.elements
  writeData inst inst.module.data
  return inst

/-- The steps up to the definitions. The instance is kept in the store after each of them, so that it can
be given back. -/
def outfit (i : InstanceId) : Action Instance := do
  let put (inst : Instance) : StoreM Unit := modifyInstance i fun _ => inst
  let inst ← makeMemory (← getInstance i)
  let inst := { inst with storage := ← addStorage (List.replicate inst.module.globalsSize 0) }
  put inst
  bindAll i inst.name inst.module.imports.zipIdx
  let inst ← define i (← getInstance i)
  put inst
  return inst

def prepare (i : InstanceId) (key : ModuleKey) : Action Instance := do activate i key (← outfit i)

def publishAt (i : InstanceId) : Action Unit := do
  let inst ← buildExports (← getInstance i)
  modifyInstance i fun _ => inst
  inst.exports.forM fun e =>
    match inst.exported? e.name with
    | some v => register inst.name e.name v
    | none => pure ()

def instantiateAt (i : InstanceId) (key : ModuleKey) (startDisabled canceled : Bool) : Action Unit := do
  let inst ← prepare i key
  if !startDisabled then runStart inst canceled
  publishAt i

def instantiate (key : ModuleKey) (m : Module) (name : String) (startDisabled canceled : Bool) :
    Action InstanceId := do
  let i ← addInstance (.ofModule name m)
  tryCatch (instantiateAt i key startDisabled canceled) fun e => do
    release i
    modify fun s =>
      { s with metrics := { s.metrics with instantiationsFailed := s.metrics.instantiationsFailed + 1 } }
    throw e
  modify fun s => { s with metrics := { s.metrics with instantiated := s.metrics.instantiated + 1 } }
  return i

end ProtoWasm.Store
