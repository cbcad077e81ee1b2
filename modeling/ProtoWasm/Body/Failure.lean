import ProtoWasm.Error

/-! # What can be wrong with a function body -/
namespace ProtoWasm.Body

open Text

inductive Issue where
  -- the code is malformed
  | localCount (found : Nat) (limit : Int)
  | localType (type : ValType) (index : Nat)
  | operand (fault : Fault)
  | arity (found remaining : Nat)
  | opcode (code : UInt8)
  | unterminated (found expected : Nat)
  -- the code is well formed and breaks a rule
  | breakDepth (depth nesting : Nat)
  | tableDepth (entry depth nesting : Nat)
  | localIndex (index : Nat)
  | globalIndex (index : Nat)
  | globalImmutable (index : Nat)
  | functionIndex (index : Nat)
  | tableMissing
  | signatureIndex (index : Nat)
  | memoryMissing
  | alignment (found limit : Nat)
  | selectOperand
  | childType (position : Nat) (expected : ValType) (child : Opcode) (found : ValType)
  | returnMissing
  | returnType (expected : ValType) (child : Opcode) (found : ValType)
  -- the decoder lost track of its own state
  | internal
deriving DecidableEq, Repr

structure Failure where
  offset : Int
  opcode : Opcode
  issue : Issue
deriving DecidableEq, Repr

namespace Failure

def text (f : Failure) : String :=
  match f.issue with
  | .localCount n limit => s!"{n} locals exceed the maximum of {limit}"
  | .localType t i => s!"invalid type {hexNumber t.toByte.toNat} of local {i}"
  | .operand fault =>
    if fault.mark? = some .endOfBuffer then s!"beyond end of code: {fault.message}"
    else fault.message
  | .arity n rest => s!"block arity {n} exceeds the {rest} remaining bytes"
  | .opcode code => s!"invalid opcode {hexNumber code.toNat}"
  | .unterminated n arity =>
    s!"unterminated control structure: {f.opcode.name} has {n} of {arity} children"
  | .breakDepth depth nesting => s!"invalid break depth {depth}: nesting is {nesting}"
  | .tableDepth i depth nesting =>
    s!"invalid branch table entry {i}: depth {depth}, nesting is {nesting}"
  | .localIndex i => s!"invalid local index {i}"
  | .globalIndex i => s!"invalid global index {i}"
  | .globalImmutable i => s!"global {i} is immutable"
  | .functionIndex i => s!"invalid function index {i}"
  | .tableMissing => "call_indirect requires a table"
  | .signatureIndex i => s!"invalid signature index {i}"
  | .memoryMissing => "memory instruction requires a memory"
  | .alignment a max => s!"alignment {a} exceeds natural alignment {max}"
  | .selectOperand => "select operand should be expression"
  | .childType i expected child found =>
    s!"{f.opcode.name}[{i}] expected type {expected.exprName}, found {child.name} " ++
      s!"of type {found.exprName}"
  | .returnMissing => "implicit return expects 1 value, found none"
  | .returnType expected child found =>
    s!"implicit return expected type {expected.exprName}, found {child.name} " ++
      s!"of type {found.exprName}"
  | .internal => "internal error"

private def isMalformed : Issue → Bool
  | .localCount .. | .localType .. | .operand .. | .arity .. | .opcode .. | .unterminated .. => true
  | _ => false

private def typeNames : Issue → String × String
  | .childType _ expected _ found | .returnType expected _ found =>
    (expected.exprName, found.exprName)
  | _ => ("", "")

private def cause : Issue → Option Error
  | .operand fault => fault.mark?.map Error.ofMark
  | _ => none

/-- The error of a function: of decoding if the code is malformed, of validation otherwise. -/
def toError (f : Failure) (function : Nat) : Error :=
  if isMalformed f.issue then .decode f.offset s!"function ${function}" f.text (cause f.issue)
  else
    let (expected, found) := typeNames f.issue
    .validation { function, offset := f.offset, opcode := f.opcode, expected, found, text := f.text }

end Failure

end ProtoWasm.Body
