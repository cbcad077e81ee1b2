import ProtoWasm.Error
import ProtoWasm.Graph.Basic

/-! # The text of a graph, one line for every node -/
namespace ProtoWasm.Graph

open Text

private def immediateText (n : Node) : String :=
  match n.op with
  | .unop | .binop => s!" {n.opcode.name}"
  | .start | .param | .switch | .ifValue | .loadGlobal | .storeGlobal | .call | .callIndirect =>
    s!" {n.aux}"
  | .int32Constant => s!" {(n.aux : Int).bmod (2 ^ 32)}"
  | .int64Constant => s!" {(n.aux : Int).bmod (2 ^ 64)}"
  | .float32Constant | .float64Constant => s!" {hexNumber n.aux}"
  | .loadMem | .storeMem => s!" size={n.access.size} offset={n.aux}"
  | _ => ""

def nodeLine (id : NodeId) (n : Node) : String :=
  let type := if n.type = .void then "" else s!":{n.type.exprName}"
  let inputs := String.join (n.inputs.map fun i => s!" #{i}")
  let position := n.offset.bmod (2 ^ 64)
  let offset := if 0 ≤ position then s!" @+{position}" else ""
  s!"#{id} = {n.op.name}{type}{immediateText n}{inputs}{offset}"

def lines (g : Graph) : List String := g.numbered.map fun (id, n) => nodeLine id n

def text (g : Graph) : String := String.join (g.lines.map (· ++ "\n"))

end ProtoWasm.Graph
