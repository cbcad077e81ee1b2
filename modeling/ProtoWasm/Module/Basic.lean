import ProtoWasm.ExternKind
import ProtoWasm.Numbers
import ProtoWasm.Opcode

/-! # Modules

A module as it is described by its binary form. Functions, tables and globals are index spaces: the
imported entries come first and the ones that the module defines follow.
-/
namespace ProtoWasm

structure ConstExpr where
  opcode : Opcode
  data : List UInt8
deriving DecidableEq, Repr, Inhabited

structure GlobalType where
  valType : ValType
  isMutable : Bool
deriving DecidableEq, Repr, Inhabited

structure TableType where
  min : Nat
  max : Nat
  imported : Bool := false
deriving DecidableEq, Repr, Inhabited

structure MemoryType where
  min : Nat
  max : Nat
  /-- The memory is exported under the name `memory` by a flag of its section. -/
  exported : Bool := false
  imported : Bool := false
deriving DecidableEq, Repr, Inhabited

structure Global where
  type : GlobalType
  init : Option ConstExpr := none
  offset : Nat := 0
  imported : Bool := false
deriving DecidableEq, Repr, Inhabited

structure Function where
  typeIndex : Nat
  type : FuncType
  imported : Bool := false
  /-- The position among the imports of a function that is imported. -/
  importIndex : Nat := 0
  exported : Bool := false
  name : String := ""
  locals : List ValType := []
  body : List UInt8 := []
  bodyOffset : Nat := 0
deriving DecidableEq, Repr, Inhabited

inductive ImportDesc where
  | func (signature : Nat)
  | table (t : TableType)
  | memory (m : MemoryType)
  | global (t : GlobalType)
  | unknown (kind : UInt8)
deriving DecidableEq, Repr, Inhabited

def ImportDesc.kind : ImportDesc → ExternKind
  | func _ => .func
  | table _ => .table
  | memory _ => .memory
  | global _ => .global
  | unknown k => .unknown k

structure Import where
  module : String
  name : String
  desc : ImportDesc
  indexPerType : Nat := 0
deriving DecidableEq, Repr, Inhabited

structure Export where
  kind : ExternKind
  name : String
  index : Nat
deriving DecidableEq, Repr, Inhabited

structure ElementSegment where
  table : Nat
  offset : Option ConstExpr
  init : List Nat
deriving DecidableEq, Repr, Inhabited

structure DataSegment where
  offset : Option ConstExpr
  sourceOffset : Nat := 0
  init : List UInt8
deriving DecidableEq, Repr, Inhabited

structure Module where
  signatures : List FuncType := []
  imports : List Import := []
  functions : List Function := []
  importedFunctions : Nat := 0
  tables : List TableType := []
  importedTables : Nat := 0
  memory : Option MemoryType := none
  globals : List Global := []
  importedGlobals : Nat := 0
  globalsSize : Nat := 0
  elements : List ElementSegment := []
  data : List DataSegment := []
  exports : List Export := []
  start : Option Nat := none
deriving DecidableEq, Repr, Inhabited

namespace Function

def offsetWord (n : Nat) : Nat := n % 2 ^ 32

def codeRange (f : Function) : Nat × Nat :=
  (f.bodyOffset, offsetWord (f.bodyOffset + f.body.length))

end Function

namespace Module

def functionType? (m : Module) (index : Nat) : Option FuncType :=
  m.functions[index]?.map Function.type

def definedFunctions (m : Module) : List Function := m.functions.drop m.importedFunctions

def definedCount (m : Module) : Nat := m.functions.length - m.importedFunctions

def definedIndices (m : Module) : List Nat :=
  (List.range m.definedCount).map (m.importedFunctions + ·)

def exportByName? (m : Module) (name : String) : Option Export :=
  m.exports.find? fun e => e.name == name

def functionName (m : Module) (index : Nat) : String :=
  match m.functions[index]? with
  | some f => if f.name = "" then s!"${index}" else f.name
  | none => s!"${index}"

end Module

end ProtoWasm
