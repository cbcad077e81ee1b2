import ProtoWasm.Graph.Basic

/-! # Building graphs

Every operation adds a node, or a few, and gives its number. Operations on state take the chain and
give it back with themselves on it.
-/
namespace ProtoWasm.Graph

abbrev Emitter := Graph → Chain → NodeId × Chain × Graph

def add (g : Graph) (n : Node) : NodeId × Graph :=
  (g.nodes.size + 1, { g with nodes := g.nodes.push n })

def modifyNode (g : Graph) (n : NodeId) (f : Node → Node) : Graph :=
  if n = 0 then g else { g with nodes := g.nodes.modify (n - 1) f }

def addExit (g : Graph) (n : Node) : NodeId × Graph :=
  let (id, g) := g.add n
  (id, { g with exits := g.exits.push id })

def emitStart (g : Graph) (params : Nat) : Chain × Graph :=
  let (id, g) := g.add { op := .start, aux := params }
  (⟨id, id⟩, { g with start := id })

def emitParam (g : Graph) (index : Nat) (t : ValType) : NodeId × Graph :=
  g.add { op := .param, type := t, inputs := [g.start], aux := index }

def emitInt32 (g : Graph) (bits : Nat) : NodeId × Graph :=
  g.add { op := .int32Constant, type := .i32, aux := bits }

def emitInt64 (g : Graph) (bits : Nat) : NodeId × Graph :=
  g.add { op := .int64Constant, type := .i64, aux := bits }

def emitFloat32 (g : Graph) (bits : Nat) : NodeId × Graph :=
  g.add { op := .float32Constant, type := .f32, aux := bits }

def emitFloat64 (g : Graph) (bits : Nat) : NodeId × Graph :=
  g.add { op := .float64Constant, type := .f64, aux := bits }

def numericType (op : Opcode) : ValType := (op.numeric?.map FuncType.resultType).getD .void

def emitUnop (g : Graph) (op : Opcode) (x : NodeId) : NodeId × Graph :=
  g.add { op := .unop, type := numericType op, inputs := [x], opcode := op }

def emitBinop (g : Graph) (op : Opcode) (x y : NodeId) : NodeId × Graph :=
  g.add { op := .binop, type := numericType op, inputs := [x, y], opcode := op }

def emitBranch (g : Graph) (cond control : NodeId) : (NodeId × NodeId) × Graph :=
  let (br, g) := g.add { op := .branch, inputs := [cond, control] }
  let (t, g) := g.add { op := .ifTrue, inputs := [br] }
  let (f, g) := g.add { op := .ifFalse, inputs := [br] }
  ((t, f), g)

def emitSwitch (g : Graph) (count : Nat) (key control : NodeId) : NodeId × Graph :=
  g.add { op := .switch, inputs := [key, control], aux := count }

def emitIfValue (g : Graph) (value : Nat) (sw : NodeId) : NodeId × Graph :=
  g.add { op := .ifValue, inputs := [sw], aux := value }

def emitIfDefault (g : Graph) (sw : NodeId) : NodeId × Graph :=
  g.add { op := .ifDefault, inputs := [sw] }

def emitMerge (g : Graph) (controls : List NodeId) : NodeId × Graph :=
  g.add { op := .merge, inputs := controls }

def emitLoop (g : Graph) (entry : NodeId) : NodeId × Graph :=
  g.add { op := .loop, inputs := [entry] }

/-- Keeps a loop, which may never end, as an exit of the graph. -/
def emitTerminate (g : Graph) (c : Chain) : Graph :=
  (g.addExit { op := .terminate, inputs := [c.effect, c.control] }).2

def emitPhi (g : Graph) (t : ValType) (join : NodeId) (values : List NodeId) : NodeId × Graph :=
  g.add { op := .phi, type := t, inputs := values ++ [join] }

def emitEffectPhi (g : Graph) (join : NodeId) (effects : List NodeId) : NodeId × Graph :=
  g.add { op := .effectPhi, inputs := effects ++ [join] }

def appendToMerge (g : Graph) (join control : NodeId) : Graph :=
  g.modifyNode join fun n => { n with inputs := n.inputs ++ [control] }

def appendToPhi (g : Graph) (join phi value : NodeId) : Graph :=
  g.modifyNode phi fun n => { n with inputs := n.inputs.dropLast ++ [value, join] }

def isPhiOf (g : Graph) (phi join : NodeId) : Bool :=
  match g.node? phi with
  | some n => (n.op == .phi || n.op == .effectPhi) && n.inputs.getLast? == some join
  | none => false

def emitReturn (g : Graph) (c : Chain) (values : List NodeId) : NodeId × Chain × Graph :=
  let (id, g) := g.addExit { op := .ret, inputs := values ++ [c.effect, c.control] }
  (id, ⟨id, id⟩, g)

def emitUnreachable (g : Graph) (c : Chain) : NodeId × Chain × Graph :=
  let (id, g) := g.addExit { op := .unreachable, inputs := [c.effect, c.control] }
  (id, ⟨id, id⟩, g)

def emitLoadGlobal (g : Graph) (c : Chain) (index : Nat) (t : ValType) : NodeId × Chain × Graph :=
  let (id, g) := g.add { op := .loadGlobal, type := t, inputs := [c.effect, c.control], aux := index }
  (id, { c with effect := id }, g)

def emitStoreGlobal (g : Graph) (c : Chain) (index : Nat) (value : NodeId) :
    NodeId × Chain × Graph :=
  let (id, g) := g.add { op := .storeGlobal, inputs := [value, c.effect, c.control], aux := index }
  (id, { c with effect := id }, g)

def emitMemoryRef (g : Graph) (kind : MemoryRefKind) : NodeId × Graph :=
  let (id, g) := match kind with
    | .base => g.add { op := .memoryBase, type := .i64 }
    | .size => g.add { op := .memorySize, type := .i32 }
  (id, { g with memoryRefs := g.memoryRefs.push ⟨id, kind⟩ })

def emitLoadMem (g : Graph) (c : Chain) (access : MemoryAccess) (index : NodeId) (offset : Nat) :
    NodeId × Chain × Graph :=
  let (base, g) := g.emitMemoryRef .base
  let (size, g) := g.emitMemoryRef .size
  let (id, g) := g.add
    { op := .loadMem, type := access.type, inputs := [base, size, index, c.effect, c.control],
      aux := offset, access }
  (id, { c with effect := id }, g)

def emitStoreMem (g : Graph) (c : Chain) (access : MemoryAccess) (index : NodeId) (offset : Nat)
    (value : NodeId) : NodeId × Chain × Graph :=
  let (base, g) := g.emitMemoryRef .base
  let (size, g) := g.emitMemoryRef .size
  let (id, g) := g.add
    { op := .storeMem, inputs := [base, size, index, value, c.effect, c.control],
      aux := offset, access }
  (id, { c with effect := id }, g)

def emitMemSize (g : Graph) : NodeId × Graph :=
  let (size, g) := g.emitMemoryRef .size
  g.add { op := .memPages, type := .i32, inputs := [size] }

def emitGrowMemory (g : Graph) (c : Chain) (delta : NodeId) : NodeId × Chain × Graph :=
  let (id, g) := g.add { op := .growMemory, type := .i32, inputs := [delta, c.effect, c.control] }
  (id, ⟨id, id⟩, g)

def emitCall (g : Graph) (c : Chain) (function : Nat) (sig : FuncType) (args : List NodeId) :
    NodeId × Chain × Graph :=
  let (id, g) := g.add
    { op := .call, type := sig.resultType, inputs := args ++ [c.effect, c.control], aux := function }
  (id, ⟨id, id⟩, { g with callSites := g.callSites.push ⟨id, function, false⟩ })

def emitCallIndirect (g : Graph) (c : Chain) (signature : Nat) (sig : FuncType) (key : NodeId)
    (args : List NodeId) : NodeId × Chain × Graph :=
  let (id, g) := g.add
    { op := .callIndirect, type := sig.resultType, inputs := key :: args ++ [c.effect, c.control],
      aux := signature }
  (id, ⟨id, id⟩, { g with callSites := g.callSites.push ⟨id, signature, true⟩ })

def setOffset (g : Graph) (n : NodeId) (offset : Int) : Graph :=
  g.modifyNode n fun x => { x with offset }

end ProtoWasm.Graph
