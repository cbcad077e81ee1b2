import ProtoWasm.Store.Global

/-! # Calls

A function is entered through its code. The graph of a function that a module defines is run by the
executor, which asks for further calls; entry points, functions of other instances and functions of the
host are entered here. Calls inside an instance are counted, and one that is nested too deep traps.
-/
namespace ProtoWasm

namespace Process

def run {m : Type → Type} [Monad m] {α : Type} (answer : (r : Request) → m r.Answer) :
    Process α → m α
  | done a => pure a
  | ask r next => do (next (← answer r)).run answer

end Process

namespace Store

open StoreM

/-- How many calls may be nested inside the code of an instance. -/
def maxCallDepth : Nat := 1024

/-- How many calls may be nested in all. -/
def maxNesting : Nat := 1000000

abbrev Enter := InstanceId → Code → List UInt64 → (depth : Nat) → StoreM Outcome

structure Entry where
  owner : InstanceId
  code : Code
  params : List UInt64
  depth : Nat

/-- What remains to be done for a result: nothing, or code is entered and its outcome makes the result. -/
inductive Plan (α : Type) where
  | give (a : α)
  | enter (e : Entry) (post : Outcome → α)

namespace Plan

variable {α β : Type}

def map (f : α → β) : Plan α → Plan β
  | give a => give (f a)
  | enter e post => enter e fun o => f (post o)

def follow (enter : Enter) : Plan α → StoreM α
  | give a => return a
  | .enter e post => do return post (← enter e.owner e.code e.params e.depth)

end Plan

def growMemory (i : InstanceId) (delta : Nat) : Action Nat := do
  let inst ← getInstance i
  match inst.memory with
  | none => throw (.because (.moduleWithoutMemory inst.name))
  | some id =>
    let mem ← getMemory id
    match mem.grow delta with
    | .error r => throw (.because r)
    | .ok grown =>
      setMemory id grown
      (mem.notified delta).forM fun d =>
        modifyInstance d fun x => { x with code := x.code.map (·.relocate (grown.extent id)) }
      modify fun s => { s with metrics := { s.metrics with pagesGrown := s.metrics.pagesGrown + delta } }
      return mem.pages

def displayName (f : FunctionInstance) : String := if f.name = "" then s!"${f.index}" else f.name

/-- The error of a call names the function, unless it names one already. -/
def nameCall (module function : String) : Outcome → Outcome
  | .ok results => .ok results
  | .error e => .error (if e.call?.isSome then e else .call module function e)

def hostOutcome : Outcome → Outcome
  | .ok results => .ok results
  | .error e => .error (.trap .hostFunction 0 (some e))

def planThrough (i : InstanceId) (f : FunctionInstance) (params : List UInt64) : StoreM (Plan Outcome) := do
  let code ← getCode i
  let inst ← getInstance i
  if code.closed then return .give (.error (.because (.moduleClosed code.name)))
  else if f.owner ≠ i ∨ inst.functions.length ≤ f.index then
    return .give (.error (.because (.functionElsewhere f.name code.name)))
  else
    let target ← expect .index (code.table.entry? f.index)
    return .enter ⟨i, target, params, 0⟩ (nameCall code.name (displayName f))

def planFunction (f : FunctionId) (params : List UInt64) : StoreM (Plan Outcome) := do
  let f ← getFunction f
  if params.length ≠ f.type.params.length then
    return .give (.error (.because (.paramCount f.type.params.length params.length)))
  else planThrough f.owner f params

/-- Where a process runs: in an instance, and, unless it is a function of the host, in a function at a
depth. -/
structure Frame where
  owner : InstanceId
  body : Option (Nat × Graph)
  depth : Nat

def planCall (fr : Frame) (site : NodeId) (params : List UInt64) : StoreM (Plan Outcome) := do
  match fr.body with
  | none => return .give (.error (.because (.notACall site 0)))
  | some (function, _) =>
    let code ← getCode fr.owner
    match code.compiled.table.site? function site with
    | none => return .give (.error (.because (.notACall site function)))
    | some k =>
      let r ← expect .index code.table.relocs[k]?
      return .enter ⟨fr.owner, r.ref, params, fr.depth + 1⟩ id

def callAt (enter : Enter) (fr : Frame) (site : NodeId) (params : List UInt64) : StoreM Outcome := do
  (← planCall fr site params).follow enter

def callNode (g : Graph) (site : NodeId) : StoreM Node :=
  if site = noNode then return { op := .start } else expect .index (g.node? site)

def findCallee (inst : Instance) (node : Node) (key : Nat) : StoreM (Except TrapKind FunctionId) := do
  match inst.tables with
  | [] => return .error .tableOutOfBounds
  | table :: _ =>
    let id ← typeId (← expect .index inst.module.signatures[node.aux]?)
    return (← getTable (← expect .unset table)).lookup key id

def planIndirect (fr : Frame) (site : NodeId) (key : Nat) (params : List UInt64) : StoreM (Plan Outcome) := do
  match fr.body with
  | none => return .give (.error (.because (.notAnIndirectCall site 0)))
  | some (function, graph) =>
    let node ← callNode graph site
    if node.op ≠ .callIndirect then return .give (.error (.because (.notAnIndirectCall site function)))
    else
      match ← findCallee (← getInstance fr.owner) node key with
      | .error k => return .give (.error (.trap k (node.offset.emod (2 ^ 32)).toNat none))
      | .ok f =>
        let callee ← getFunction f
        if callee.owner = fr.owner then
          let code ← getCode fr.owner
          let c ← expect .index code.table.entries[callee.index]?
          return .enter ⟨fr.owner, c, params, fr.depth + 1⟩ id
        else planFunction f params

def referenceAt (fr : Frame) (node : NodeId) : StoreM (Option Reference) := do
  match fr.body with
  | none => return none
  | some (function, _) =>
    match (← getCode fr.owner).memoryValue? function node with
    | none => return none
    | some (.size n) => return some (.size n)
    | some (.base a) =>
      let id ← expect .unset (← getInstance fr.owner).memory
      return some (.base (a = ((← getMemory id).extent id).address))

def storeBytes (i : InstanceId) (address : Nat) (bytes : List UInt8) : StoreM Unit := do
  let id ← expect .unset (← getInstance i).memory
  let mem ← getMemory id
  if mem.size < address + bytes.length then defect .range
  else setMemory id (mem.setBuffer (mem.buffer.write address bytes))

/-- Plans the answer to a request of a process. Only calls enter code. -/
def planAnswer (fr : Frame) : (r : Request) → StoreM (Plan r.Answer)
  | .call site params => planCall fr site params
  | .callIndirect site key params => planIndirect fr site key params
  | .callExport name params => do
    match (← getInstance fr.owner).exportedFunction? name with
    | none => return .give none
    | some f => return (← planFunction f params).map some
  | .reference node => do return .give (← referenceAt fr node)
  | .getGlobal i => do return .give (← globalValue (← entry (← getInstance fr.owner).globals i))
  | .setGlobal i v => do return .give (← setGlobal (← entry (← getInstance fr.owner).globals i) v)
  | .load address n => do
    let id ← expect .unset (← getInstance fr.owner).memory
    return .give (← checked ((← getMemory id).buffer.slice address (address + n)))
  | .store address bytes => do return .give (← storeBytes fr.owner address bytes)
  | .hasMemory => do return .give (← getInstance fr.owner).memory.isSome
  | .grow delta => do return .give (← (growMemory fr.owner delta).run)
  | .note e => do return .give (← note e)

def answer (enter : Enter) (fr : Frame) (r : Request) : StoreM r.Answer := do
  (← planAnswer fr r).follow enter

inductive Turn where
  | pass (e : Entry)
  | call (plan : Plan Outcome)
  | run (fr : Frame) (p : Process Outcome)
  | host (fr : Frame) (p : Process Outcome)

def turn (e : Entry) : StoreM Turn := do
  match e.code with
  | .function index graph =>
    let name := (← getInstance e.owner).name
    let task := (← get).config.executor ⟨name, index, graph, e.params⟩
    return .run ⟨e.owner, some (index, graph), e.depth⟩ task.run
  | .exportWrapper _ k =>
    let r ← expect .index (← getCode e.owner).table.relocs[k]?
    return .pass { e with code := r.ref }
  | .reuse _ f =>
    let f ← getFunction f
    let callee ← getCode f.owner
    if callee.closed then return .call (.give (.error (.because (.moduleClosed callee.name))))
    else return .pass ⟨f.owner, ← expect .index callee.table.entries[f.index]?, e.params, e.depth + 1⟩
  | .importAdapter _ f =>
    match (← getFunction f).host with
    | none => return .call (← planFunction f e.params)
    | some h =>
      let task := h.run (← getInstance e.owner).name e.params
      return .host ⟨e.owner, none, e.depth⟩ task.run
  | c => return .call (.give (.error (.because (.functionUnlinked c.index))))

def Turn.take (enter : Enter) : Turn → StoreM Outcome
  | pass e => enter e.owner e.code e.params e.depth
  | call plan => plan.follow enter
  | run fr p => p.run (answer enter fr)
  | host fr p => do return hostOutcome (← p.run (answer enter fr))

def runCode (enter : Enter) (i : InstanceId) (code : Code) (params : List UInt64) (depth : Nat) :
    StoreM Outcome := do
  (← turn ⟨i, code, params, depth⟩).take enter

def enterCode (canceled : Bool) (enter : Enter) : Enter := fun i code params depth =>
  if maxCallDepth ≤ depth then return .error (.trap .callStackOverflow 0 none)
  else if canceled then return .error (.ofMark .canceled)
  else runCode enter i code params depth

/-- Enters code. The number bounds how deep calls are followed. -/
def invoke (canceled : Bool) : Nat → Enter
  | 0 => fun _ _ _ _ => defect .nesting
  | fuel + 1 => enterCode canceled (invoke canceled fuel)

def call (f : FunctionId) (params : List UInt64) (canceled : Bool) : StoreM Outcome := do
  (← planFunction f params).follow (invoke canceled maxNesting)

/-- Calls a function by way of an instance, which need not be the one it belongs to. -/
def callVia (i : InstanceId) (f : FunctionId) (params : List UInt64) (canceled : Bool) :
    StoreM Outcome := do
  (← planThrough i (← getFunction f) params).follow (invoke canceled maxNesting)

end Store

end ProtoWasm
