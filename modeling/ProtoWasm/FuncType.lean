import ProtoWasm.ValType

/-! # Function signatures -/
namespace ProtoWasm

structure FuncType where
  params : List ValType := []
  results : List ValType := []
deriving DecidableEq, Repr, Inhabited

namespace FuncType

def listText : List ValType → String
  | [] => "v"
  | ts => String.join (ts.map ValType.name)

/-- Parameters, an underscore and results; an empty side is `v`. -/
def text (t : FuncType) : String := listText t.params ++ "_" ++ listText t.results

def resultType (t : FuncType) : ValType := t.results.head?.getD .void

def isValue (t : FuncType) : Bool := t.params.all ValType.isValue && t.results.all ValType.isValue

end FuncType

end ProtoWasm
