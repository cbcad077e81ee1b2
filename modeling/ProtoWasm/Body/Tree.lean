import ProtoWasm.Graph.Basic
import ProtoWasm.Text.Hex

/-! # Expression trees -/
namespace ProtoWasm

/-- An expression with its type, its absolute offset, the node of its value in the graph, if there is
one, and its children. -/
inductive Tree where
  | missing
  | expr (opcode : Opcode) (type : ValType) (offset : Int) (node : NodeId) (children : List Tree)
deriving Inhabited

namespace Tree

def opcode : Tree → Opcode
  | missing => ⟨0⟩
  | expr op .. => op

def type : Tree → ValType
  | missing => .void
  | expr _ t .. => t

def offset : Tree → Int
  | missing => 0
  | expr _ _ o .. => o

def node : Tree → NodeId
  | missing => noNode
  | expr _ _ _ n _ => n

def children : Tree → List Tree
  | missing => []
  | expr _ _ _ _ cs => cs

def opcodeText (op : Opcode) : String :=
  if op.name = "" then Text.hexNumber op.code.toNat else op.name

mutual

def text : Tree → String
  | missing => "<nil>"
  | expr op _ _ _ cs => s!"({opcodeText op}{childrenText cs})"

def childrenText : List Tree → String
  | [] => ""
  | t :: ts => s!" {text t}{childrenText ts}"

end

mutual

def preorder : Tree → List Tree
  | missing => []
  | expr op t o n cs => expr op t o n cs :: preorderAll cs

def preorderAll : List Tree → List Tree
  | [] => []
  | t :: ts => preorder t ++ preorderAll ts

end

end Tree

end ProtoWasm
