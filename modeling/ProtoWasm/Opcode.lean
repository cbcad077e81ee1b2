import ProtoWasm.FuncType

/-! # Opcodes

Every opcode is one byte. A body is written in pre-order: an opcode, its immediates, its children.
The form of an opcode says which rule of the body decoder applies to it.
-/
namespace ProtoWasm

/-- What a load or store does: the type it moves, the bytes it touches, and whether a narrow load
extends the sign. -/
structure MemoryAccess where
  type : ValType := .void
  size : Nat := 0
  signed : Bool := false
  store : Bool := false
deriving DecidableEq, Repr, Inhabited

namespace MemoryAccess

/-- The largest alignment exponent of an access that touches `size` bytes. -/
def alignmentOfSize (size : Nat) : Nat :=
  match size with
  | 1 => 0
  | 2 => 1
  | 4 => 2
  | _ => 3

def maxAlignment (a : MemoryAccess) : Nat := alignmentOfSize a.size

def arity (a : MemoryAccess) : Nat := if a.store then 2 else 1

end MemoryAccess

structure Opcode where
  code : UInt8
deriving DecidableEq, Repr, Inhabited

inductive Form where
  | nop
  | block
  | loop
  | ifThen
  | ifElse
  | select
  | br
  | brIf
  | brTable
  | constI8
  | constI32
  | constI64
  | constF32
  | constF64
  | getLocal
  | setLocal
  | getGlobal
  | setGlobal
  | call
  | callIndirect
  | ret
  | unreachable
  | growMemory
  | memorySize
  | access (a : MemoryAccess)
  | numeric (sig : FuncType)
  | undefined
deriving DecidableEq, Repr, Inhabited

namespace Opcode

/-- Names of the opcodes from 0x00 on. -/
def controlNames : List String :=
  ["nop", "block", "loop", "if", "if_else", "select", "br", "br_if", "br_table", "i8.const",
   "i32.const", "i64.const", "f32.const", "f64.const", "get_local", "set_local", "get_global",
   "set_global", "call_function", "call_indirect", "return", "unreachable", "end"]

/-- Names and accesses of the loads and stores, from 0x20 on. -/
def accessTable : List (String × MemoryAccess) :=
  [("i32.load8_s", ⟨.i32, 1, true, false⟩), ("i32.load8_u", ⟨.i32, 1, false, false⟩),
   ("i32.load16_s", ⟨.i32, 2, true, false⟩), ("i32.load16_u", ⟨.i32, 2, false, false⟩),
   ("i64.load8_s", ⟨.i64, 1, true, false⟩), ("i64.load8_u", ⟨.i64, 1, false, false⟩),
   ("i64.load16_s", ⟨.i64, 2, true, false⟩), ("i64.load16_u", ⟨.i64, 2, false, false⟩),
   ("i64.load32_s", ⟨.i64, 4, true, false⟩), ("i64.load32_u", ⟨.i64, 4, false, false⟩),
   ("i32.load", ⟨.i32, 4, false, false⟩), ("i64.load", ⟨.i64, 8, false, false⟩),
   ("f32.load", ⟨.f32, 4, false, false⟩), ("f64.load", ⟨.f64, 8, false, false⟩),
   ("i32.store8", ⟨.i32, 1, false, true⟩), ("i32.store16", ⟨.i32, 2, false, true⟩),
   ("i64.store8", ⟨.i64, 1, false, true⟩), ("i64.store16", ⟨.i64, 2, false, true⟩),
   ("i64.store32", ⟨.i64, 4, false, true⟩), ("i32.store", ⟨.i32, 4, false, true⟩),
   ("i64.store", ⟨.i64, 8, false, true⟩), ("f32.store", ⟨.f32, 4, false, true⟩),
   ("f64.store", ⟨.f64, 8, false, true⟩)]

/-- Names, parameters and results of the numeric opcodes, from 0x40 on. -/
def numericTable : List (String × List ValType × ValType) :=
  [("i32.add", [.i32, .i32], .i32), ("i32.sub", [.i32, .i32], .i32),
   ("i32.mul", [.i32, .i32], .i32), ("i32.div_s", [.i32, .i32], .i32),
   ("i32.div_u", [.i32, .i32], .i32), ("i32.rem_s", [.i32, .i32], .i32),
   ("i32.rem_u", [.i32, .i32], .i32), ("i32.and", [.i32, .i32], .i32),
   ("i32.or", [.i32, .i32], .i32), ("i32.xor", [.i32, .i32], .i32),
   ("i32.shl", [.i32, .i32], .i32), ("i32.shr_u", [.i32, .i32], .i32),
   ("i32.shr_s", [.i32, .i32], .i32), ("i32.eq", [.i32, .i32], .i32),
   ("i32.ne", [.i32, .i32], .i32), ("i32.lt_s", [.i32, .i32], .i32),
   ("i32.le_s", [.i32, .i32], .i32), ("i32.lt_u", [.i32, .i32], .i32),
   ("i32.le_u", [.i32, .i32], .i32), ("i32.gt_s", [.i32, .i32], .i32),
   ("i32.ge_s", [.i32, .i32], .i32), ("i32.gt_u", [.i32, .i32], .i32),
   ("i32.ge_u", [.i32, .i32], .i32), ("i32.clz", [.i32], .i32), ("i32.ctz", [.i32], .i32),
   ("i32.popcnt", [.i32], .i32), ("i32.eqz", [.i32], .i32), ("i64.add", [.i64, .i64], .i64),
   ("i64.sub", [.i64, .i64], .i64), ("i64.mul", [.i64, .i64], .i64),
   ("i64.div_s", [.i64, .i64], .i64), ("i64.div_u", [.i64, .i64], .i64),
   ("i64.rem_s", [.i64, .i64], .i64), ("i64.rem_u", [.i64, .i64], .i64),
   ("i64.and", [.i64, .i64], .i64), ("i64.or", [.i64, .i64], .i64),
   ("i64.xor", [.i64, .i64], .i64), ("i64.shl", [.i64, .i64], .i64),
   ("i64.shr_u", [.i64, .i64], .i64), ("i64.shr_s", [.i64, .i64], .i64),
   ("i64.eq", [.i64, .i64], .i32), ("i64.ne", [.i64, .i64], .i32),
   ("i64.lt_s", [.i64, .i64], .i32), ("i64.le_s", [.i64, .i64], .i32),
   ("i64.lt_u", [.i64, .i64], .i32), ("i64.le_u", [.i64, .i64], .i32),
   ("i64.gt_s", [.i64, .i64], .i32), ("i64.ge_s", [.i64, .i64], .i32),
   ("i64.gt_u", [.i64, .i64], .i32), ("i64.ge_u", [.i64, .i64], .i32), ("i64.clz", [.i64], .i64),
   ("i64.ctz", [.i64], .i64), ("i64.popcnt", [.i64], .i64), ("f32.add", [.f32, .f32], .f32),
   ("f32.sub", [.f32, .f32], .f32), ("f32.mul", [.f32, .f32], .f32),
   ("f32.div", [.f32, .f32], .f32), ("f32.min", [.f32, .f32], .f32),
   ("f32.max", [.f32, .f32], .f32), ("f32.abs", [.f32], .f32), ("f32.neg", [.f32], .f32),
   ("f32.copysign", [.f32, .f32], .f32), ("f32.ceil", [.f32], .f32), ("f32.floor", [.f32], .f32),
   ("f32.trunc", [.f32], .f32), ("f32.nearest", [.f32], .f32), ("f32.sqrt", [.f32], .f32),
   ("f32.eq", [.f32, .f32], .i32), ("f32.ne", [.f32, .f32], .i32), ("f32.lt", [.f32, .f32], .i32),
   ("f32.le", [.f32, .f32], .i32), ("f32.gt", [.f32, .f32], .i32), ("f32.ge", [.f32, .f32], .i32),
   ("f64.add", [.f64, .f64], .f64), ("f64.sub", [.f64, .f64], .f64),
   ("f64.mul", [.f64, .f64], .f64), ("f64.div", [.f64, .f64], .f64),
   ("f64.min", [.f64, .f64], .f64), ("f64.max", [.f64, .f64], .f64), ("f64.abs", [.f64], .f64),
   ("f64.neg", [.f64], .f64), ("f64.copysign", [.f64, .f64], .f64), ("f64.ceil", [.f64], .f64),
   ("f64.floor", [.f64], .f64), ("f64.trunc", [.f64], .f64), ("f64.nearest", [.f64], .f64),
   ("f64.sqrt", [.f64], .f64), ("f64.eq", [.f64, .f64], .i32), ("f64.ne", [.f64, .f64], .i32),
   ("f64.lt", [.f64, .f64], .i32), ("f64.le", [.f64, .f64], .i32), ("f64.gt", [.f64, .f64], .i32),
   ("f64.ge", [.f64, .f64], .i32), ("i32.trunc_s/f32", [.f32], .i32),
   ("i32.trunc_s/f64", [.f64], .i32), ("i32.trunc_u/f32", [.f32], .i32),
   ("i32.trunc_u/f64", [.f64], .i32), ("i32.wrap/i64", [.i64], .i32),
   ("i64.trunc_s/f32", [.f32], .i64), ("i64.trunc_s/f64", [.f64], .i64),
   ("i64.trunc_u/f32", [.f32], .i64), ("i64.trunc_u/f64", [.f64], .i64),
   ("i64.extend_s/i32", [.i32], .i64), ("i64.extend_u/i32", [.i32], .i64),
   ("f32.convert_s/i32", [.i32], .f32), ("f32.convert_u/i32", [.i32], .f32),
   ("f32.convert_s/i64", [.i64], .f32), ("f32.convert_u/i64", [.i64], .f32),
   ("f32.demote/f64", [.f64], .f32), ("f32.reinterpret/i32", [.i32], .f32),
   ("f64.convert_s/i32", [.i32], .f64), ("f64.convert_u/i32", [.i32], .f64),
   ("f64.convert_s/i64", [.i64], .f64), ("f64.convert_u/i64", [.i64], .f64),
   ("f64.promote/f32", [.f32], .f64), ("f64.reinterpret/i64", [.i64], .f64),
   ("i32.reinterpret/f32", [.f32], .i32), ("i64.reinterpret/f64", [.f64], .i64),
   ("i32.ror", [.i32, .i32], .i32), ("i32.rol", [.i32, .i32], .i32),
   ("i64.ror", [.i64, .i64], .i64), ("i64.rol", [.i64, .i64], .i64), ("i64.eqz", [.i64], .i32)]

@[match_pattern] def loop : Opcode := ⟨0x02⟩
@[match_pattern] def i32Const : Opcode := ⟨0x0a⟩
@[match_pattern] def i64Const : Opcode := ⟨0x0b⟩
@[match_pattern] def f32Const : Opcode := ⟨0x0c⟩
@[match_pattern] def f64Const : Opcode := ⟨0x0d⟩
@[match_pattern] def setLocal : Opcode := ⟨0x0f⟩
@[match_pattern] def getGlobal : Opcode := ⟨0x10⟩
@[match_pattern] def ret : Opcode := ⟨0x14⟩
/-- Ends an initializer; no opcode of a body. -/
@[match_pattern] def finish : Opcode := ⟨0x16⟩

def access? (op : Opcode) : Option MemoryAccess :=
  if 0x20 ≤ op.code.toNat then (accessTable[op.code.toNat - 0x20]?).map (·.2) else none

def numeric? (op : Opcode) : Option FuncType :=
  if 0x40 ≤ op.code.toNat then
    (numericTable[op.code.toNat - 0x40]?).map fun row => ⟨row.2.1, [row.2.2]⟩
  else none

def name (op : Opcode) : String :=
  let n := op.code.toNat
  if n < 0x20 then (controlNames[n]?).getD ""
  else if n = 0x39 then "grow_memory"
  else if n = 0x3b then "memory_size"
  else if n < 0x40 then ((accessTable[n - 0x20]?).map (·.1)).getD ""
  else ((numericTable[n - 0x40]?).map (·.1)).getD ""

def controlForms : List Form :=
  [.nop, .block, .loop, .ifThen, .ifElse, .select, .br, .brIf, .brTable, .constI8, .constI32,
   .constI64, .constF32, .constF64, .getLocal, .setLocal, .getGlobal, .setGlobal, .call,
   .callIndirect, .ret, .unreachable]

def form (op : Opcode) : Form :=
  let n := op.code.toNat
  if n < 0x20 then (controlForms[n]?).getD .undefined
  else if n = 0x39 then .growMemory
  else if n = 0x3b then .memorySize
  else match op.access? with
    | some a => .access a
    | none => match op.numeric? with
      | some sig => .numeric sig
      | none => .undefined

end Opcode

end ProtoWasm
