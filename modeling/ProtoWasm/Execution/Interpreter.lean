import ProtoWasm.Execution.Process
import ProtoWasm.Value

/-! # Running graphs in order

A simple executor for functions without branches. It goes over the nodes of a graph by their numbers
and keeps a word for each of them. Of the operations on numbers it knows three.
-/
namespace ProtoWasm.Interpreter

abbrev Words := Array UInt64

def wordOf (ws : Words) (n : NodeId) : UInt64 := ws.getD n 0

def valueInputs (ns : List NodeId) : List NodeId := ns.dropLast.dropLast

def nodeTrap (k : TrapKind) (n : Node) : Error := .trap k (n.offset.emod (2 ^ 32)).toNat none

def extend (a : MemoryAccess) (bytes : List UInt8) : UInt64 :=
  let n : Int := LittleEndian.decode bytes
  let v := Value.ofI64 (if a.signed then n.bmod (2 ^ (8 * a.size)) else n)
  if a.type = .i32 ∨ a.type = .f32 then Value.low32 v else v

def binop? (op : Opcode) (x y : UInt64) : Option UInt64 :=
  match op.name with
  | "i32.add" => some (Value.low32 (x + y))
  | "i32.sub" => some (Value.low32 (x - y))
  | "i32.mul" => some (Value.low32 (x * y))
  | _ => none

inductive Step where
  | word (v : UInt64)
  | finish (results : List UInt64)
deriving Repr, Inhabited

def unsupported {α : Type} (what : String) : Task α := throw (.ofText s!"unsupported {what}")

def address? (n : Node) (index size : UInt64) : Option Nat :=
  let address := (Value.low32 index).toNat + n.aux
  if address + n.access.size ≤ size.toNat then some address else none

def firstResult (results : List UInt64) : Step := .word (results.headD 0)

def step (params : List UInt64) (ws : Words) (id : NodeId) (n : Node) : Task Step := do
  let input (i : Nat) : UInt64 := wordOf ws (n.inputs.getD i noNode)
  let args := (valueInputs n.inputs).map (wordOf ws)
  match n.op with
  | .start => return .word 0
  | .param => return .word (params.getD n.aux 0)
  | .int32Constant | .int64Constant | .float32Constant | .float64Constant => return .word (.ofNat n.aux)
  | .binop => match binop? n.opcode (input 0) (input 1) with
    | some v => return .word v
    | none => unsupported n.opcode.name
  | .unop => unsupported n.opcode.name
  | .loadGlobal => return .word (← Task.request (.getGlobal n.aux))
  | .storeGlobal =>
    Task.request (.setGlobal n.aux (input 0))
    return .word 0
  | .memoryBase | .memorySize => match ← Task.request (.reference id) with
    | none => throw (.ofText s!"#{id} is not relocated")
    | some (.base false) => throw (.ofText s!"#{id} is stale")
    | some (.base true) => return .word 0
    | some (.size bytes) => return .word (.ofNat bytes)
  | .loadMem => match address? n (input 2) (input 1) with
    | none => throw (nodeTrap .memoryOutOfBounds n)
    | some a => return .word (extend n.access (← Task.request (.load a n.access.size)))
  | .storeMem => match address? n (input 2) (input 1) with
    | none => throw (nodeTrap .memoryOutOfBounds n)
    | some a =>
      Task.request (.store a (LittleEndian.encode n.access.size (input 3).toNat))
      return .word 0
  | .memPages => return .word (input 0 >>> 16)
  | .growMemory => match ← Task.request (.grow (Value.low32 (input 0)).toNat) with
    | .ok pages => return .word (.ofNat pages)
    | .error _ => return .word 0xffffffff
  | .call => return firstResult (← Task.call id args)
  | .callIndirect => match args with
    | key :: rest => return firstResult (← Task.callIndirect id (Value.low32 key).toNat rest)
    | [] => return firstResult (← Task.callIndirect id 0 [])
  | .ret => return .finish args
  | .unreachable => throw (nodeTrap .unreachable n)
  | op => unsupported op.name

def runNodes (params : List UInt64) : List (NodeId × Node) → Words → Task (List UInt64)
  | [], _ => throw (.ofText "no return")
  | (id, n) :: rest, ws => do
    match ← step params ws id n with
    | .word v => runNodes params rest (ws.push v)
    | .finish results => return results

def executor : Executor := fun inv => runNodes inv.params inv.graph.numbered #[0]

end ProtoWasm.Interpreter
