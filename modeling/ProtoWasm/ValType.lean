/-! # Value types

The types that parameters, results, locals, globals and expressions can have. A type is one byte in
the binary format. Four bytes name the types of values; two more serve expressions that have no value
or never complete, and the rest have no meaning.
-/
namespace ProtoWasm

inductive ValType where
  | void
  | i32
  | i64
  | f32
  | f64
  | unreachable
  | unknown (code : UInt8)
deriving DecidableEq, Repr, Inhabited

namespace ValType

def ofByte (b : UInt8) : ValType :=
  if b = 0 then void
  else if b = 1 then i32
  else if b = 2 then i64
  else if b = 3 then f32
  else if b = 4 then f64
  else if b = 0xff then unreachable
  else unknown b

def toByte : ValType → UInt8
  | void => 0
  | i32 => 1
  | i64 => 2
  | f32 => 3
  | f64 => 4
  | unreachable => 0xff
  | unknown b => b

theorem toByte_ofByte (b : UInt8) : (ofByte b).toByte = b := by
  unfold ofByte
  repeat' split
  all_goals simp_all [toByte]

def isValue : ValType → Bool
  | i32 | i64 | f32 | f64 => true
  | _ => false

theorem ofByte_toByte_of_isValue {t : ValType} (h : t.isValue) : ofByte t.toByte = t := by
  cases t <;> simp_all [isValue] <;> decide

def name : ValType → String
  | i32 => "i32"
  | i64 => "i64"
  | f32 => "f32"
  | f64 => "f64"
  | _ => "unknown"

def exprName : ValType → String
  | void => "void"
  | unreachable => "unreachable"
  | t => t.name

/-- The bytes that a value takes in storage, which is its alignment too. -/
def size : ValType → Nat
  | i32 | f32 => 4
  | i64 | f64 => 8
  | _ => 0

end ValType

end ProtoWasm
