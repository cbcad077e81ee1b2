import ProtoWasm.Opcode

/-! # Graphs of functions

A function is a sea of nodes. A node has its value inputs first and then, if it reads or writes state or may stop, the
effect and the control that it depends on. A `phi` or `effectPhi` has the join it belongs to as its last input. Nodes
are numbered from one in the order in which they were emitted, and zero stands for no node. A number has 32 bits:
graphs are taken to have fewer than 2^32 nodes.
-/
namespace ProtoWasm

/-- The number of a node, below 2^32. -/
abbrev NodeId := Nat

def noNode : NodeId := 0

inductive Op where
  | start
  | param
  | int32Constant
  | int64Constant
  | float32Constant
  | float64Constant
  | unop
  | binop
  | branch
  | ifTrue
  | ifFalse
  | switch
  | ifValue
  | ifDefault
  | merge
  | loop
  | phi
  | effectPhi
  | terminate
  | ret
  | unreachable
  | loadGlobal
  | storeGlobal
  /-- The address of the memory, which changes when the memory moves. -/
  | memoryBase
  /-- The size of the memory in bytes, which changes when the memory grows. -/
  | memorySize
  | loadMem
  | storeMem
  | memPages
  | growMemory
  | call
  | callIndirect
deriving DecidableEq, Repr, Inhabited

namespace Op

def all : List Op :=
  [start, param, int32Constant, int64Constant, float32Constant, float64Constant, unop, binop, branch,
   ifTrue, ifFalse, switch, ifValue, ifDefault, merge, loop, phi, effectPhi, terminate, ret,
   unreachable, loadGlobal, storeGlobal, memoryBase, memorySize, loadMem, storeMem, memPages,
   growMemory, call, callIndirect]

def name : Op → String
  | start => "Start"
  | param => "Param"
  | int32Constant => "Int32Constant"
  | int64Constant => "Int64Constant"
  | float32Constant => "Float32Constant"
  | float64Constant => "Float64Constant"
  | unop => "Unop"
  | binop => "Binop"
  | branch => "Branch"
  | ifTrue => "IfTrue"
  | ifFalse => "IfFalse"
  | switch => "Switch"
  | ifValue => "IfValue"
  | ifDefault => "IfDefault"
  | merge => "Merge"
  | loop => "Loop"
  | phi => "Phi"
  | effectPhi => "EffectPhi"
  | terminate => "Terminate"
  | ret => "Return"
  | unreachable => "Unreachable"
  | loadGlobal => "LoadGlobal"
  | storeGlobal => "StoreGlobal"
  | memoryBase => "MemoryBase"
  | memorySize => "MemorySize"
  | loadMem => "LoadMem"
  | storeMem => "StoreMem"
  | memPages => "MemPages"
  | growMemory => "GrowMemory"
  | call => "Call"
  | callIndirect => "CallIndirect"

def nameOfNumber (n : Nat) : String :=
  match if n = 0 then none else all[n - 1]? with
  | some op => op.name
  | none => s!"Op({n})"

end Op

structure Node where
  op : Op
  type : ValType := .void
  inputs : List NodeId := []
  /-- The immediate: bits of a constant, an index, a case, an offset in memory or a number of
  parameters. -/
  aux : Nat := 0
  opcode : Opcode := ⟨0⟩
  access : MemoryAccess := {}
  /-- The absolute offset of the opcode that gave rise to the node, if it is known. -/
  offset : Int := -1
deriving DecidableEq, Repr, Inhabited

structure CallSite where
  node : NodeId
  /-- The function that is called, or the signature that is expected of an indirect call. -/
  target : Nat
  indirect : Bool := false
deriving DecidableEq, Repr, Inhabited

inductive MemoryRefKind where
  | base
  | size
deriving DecidableEq, Repr, Inhabited

namespace MemoryRefKind

def name : MemoryRefKind → String
  | base => "base"
  | size => "size"

def ofNumber (n : Nat) : MemoryRefKind := if n = 0 then base else size

end MemoryRefKind

structure MemoryRef where
  node : NodeId
  kind : MemoryRefKind
deriving DecidableEq, Repr, Inhabited

/-- The control and the effect that the next operation depends on. -/
structure Chain where
  control : NodeId := noNode
  effect : NodeId := noNode
deriving DecidableEq, Repr, Inhabited

structure Graph where
  signature : FuncType := {}
  nodes : Array Node := #[]
  start : NodeId := noNode
  /-- Returns, traps and ends of loops, in the order in which they were emitted. -/
  exits : Array NodeId := #[]
  callSites : Array CallSite := #[]
  memoryRefs : Array MemoryRef := #[]
deriving DecidableEq, Repr, Inhabited

namespace Graph

def size (g : Graph) : Nat := g.nodes.size

def node? (g : Graph) (n : NodeId) : Option Node := if n = 0 then none else g.nodes[n - 1]?

def numbered (g : Graph) : List (NodeId × Node) :=
  g.nodes.toList.zipIdx.map fun (n, i) => (i + 1, n)

def accesses (g : Graph) : List (NodeId × MemoryAccess) :=
  g.numbered.filterMap fun (id, n) =>
    if n.op = .loadMem ∨ n.op = .storeMem then some (id, n.access) else none

def inputs (g : Graph) (n : NodeId) : List NodeId := ((g.node? n).map Node.inputs).getD []

def inputCount (g : Graph) (n : NodeId) : Nat := (g.inputs n).length

end Graph

end ProtoWasm
