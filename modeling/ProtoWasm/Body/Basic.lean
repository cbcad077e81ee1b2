import ProtoWasm.Binary.Reader
import ProtoWasm.Body.Tree
import ProtoWasm.Module.Basic

/-! # Function bodies -/
namespace ProtoWasm

structure FunctionBody where
  module : Module := {}
  index : Nat := 0
  signature : FuncType := {}
  locals : List ValType := []
  code : List UInt8 := []
  offset : Int := 0
deriving DecidableEq, Repr, Inhabited

namespace FunctionBody

def ofModule (m : Module) (index : Nat) : FunctionBody :=
  let f := m.functions[index]?.getD default
  { module := m, index, signature := f.type, locals := f.locals, code := f.body
    offset := f.bodyOffset }

def localTypes (b : FunctionBody) : List ValType := b.signature.params ++ b.locals

def returnType (b : FunctionBody) : ValType := b.signature.resultType

def input (b : FunctionBody) : Input := ⟨b.code, b.offset⟩

end FunctionBody

end ProtoWasm
