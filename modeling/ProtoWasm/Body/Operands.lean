import ProtoWasm.Binary.Progress
import ProtoWasm.Module.Basic

/-! # Immediates of opcodes -/
namespace ProtoWasm.Body

inductive Operands where
  | none
  /-- A number of children, an index or a depth. -/
  | index (n : Nat)
  /-- The depths of a branch table, the last of which is the default. -/
  | targets (depths : List Nat)
  | access (alignment offset : Nat)
  | bits (n : Nat)
deriving DecidableEq, Repr, Inhabited

structure Instruction where
  offset : Int
  opcode : Opcode
  operands : Operands
deriving DecidableEq, Repr, Inhabited

def maxBranchTable : Nat := 2 ^ 24

open Reader

def available (n : Nat) (what : String) : Reader Unit := fun i =>
  if n ≤ i.remaining then .ok ((), i) else .error ⟨i.offset, .short what n⟩

def readBranchTable : Reader (List Nat) := do
  let start ← offset
  let n ← u32 "branch table count"
  refuse (maxBranchTable ≤ n) start (.branchTable n)
  available ((n + 1) * 4) "branch table"
  times (n + 1) fun _ => word 4 "branch table entry"

def wordOfInt (bits : Nat) (v : Int) : Nat := (v % (2 ^ bits : Nat)).toNat

def readOperands : Form → Reader Operands
  | .block | .loop => do return .index (← u32 "block arity")
  | .br | .brIf => do return .index (← u32 "break depth")
  | .brTable => do return .targets (← readBranchTable)
  | .constI8 => do
    let b ← byte "i8 immediate"
    return .bits (wordOfInt 32 ((b.toNat : Int).bmod 256))
  | .constI32 => do return .bits (wordOfInt 32 (← signed .w32 "i32 immediate"))
  | .constI64 => do return .bits (wordOfInt 64 (← signed .w64 "i64 immediate"))
  | .constF32 => do return .bits (← word 4 "f32 immediate")
  | .constF64 => do return .bits (← word 8 "f64 immediate")
  | .getLocal | .setLocal => do return .index (← u32 "local index")
  | .getGlobal | .setGlobal => do return .index (← u32 "global index")
  | .call => do return .index (← u32 "function index")
  | .callIndirect => do return .index (← u32 "signature index")
  | .access _ => do
    let alignment ← u32 "memory alignment"
    return .access alignment (← u32 "memory offset")
  | .nop | .ifThen | .ifElse | .select | .ret | .unreachable | .growMemory | .memorySize
  | .numeric _ | .undefined => return .none

/-- How many children an opcode has, in a function with so many results. A call of an unknown function
or signature counts no parameters, and an opcode without a meaning has no answer. -/
def childCount (m : Module) (results : Nat) : Form → Operands → Option Nat
  | .nop, _ | .unreachable, _ | .memorySize, _ => some 0
  | .constI8, _ | .constI32, _ | .constI64, _ | .constF32, _ | .constF64, _ => some 0
  | .getLocal, _ | .getGlobal, _ => some 0
  | .block, .index n | .loop, .index n => some n
  | .ifThen, _ | .brIf, _ | .brTable, _ => some 2
  | .ifElse, _ | .select, _ => some 3
  | .br, _ | .setLocal, _ | .setGlobal, _ | .growMemory, _ => some 1
  | .call, .index f => some (((m.functionType? f).map (·.params.length)).getD 0)
  | .callIndirect, .index s => some (1 + ((m.signatures[s]?).map (·.params.length)).getD 0)
  | .ret, _ => some results
  | .access a, _ => some a.arity
  | .numeric sig, _ => some sig.params.length
  | _, _ => none

theorem advances_available (n : Nat) (what : String) : Advances (available n what) := by
  intro i u j h
  unfold available at h
  split at h
  · cases h
    exact ⟨[], by simp⟩
  · cases h

theorem advances_readBranchTable : Advances readBranchTable :=
  advances_offset.bind fun _ => (advances_unsigned _ _).bind fun _ => (advances_refuse _ _ _).bind fun _ =>
    (advances_available _ _).bind fun _ => advances_mapM (fun _ => advances_word _ _) _

theorem advances_readOperands (form : Form) : Advances (readOperands form) := by
  cases form <;> simp only [readOperands]
  all_goals first
    | exact advances_pure _
    | exact (advances_unsigned _ _).bind fun _ => advances_pure _
    | exact (advances_signed _ _).bind fun _ => advances_pure _
    | exact (advances_word _ _).bind fun _ => advances_pure _
    | exact (advances_byte _).bind fun _ => advances_pure _
    | exact advances_readBranchTable.bind fun _ => advances_pure _
    | exact (advances_unsigned _ _).bind fun _ => (advances_unsigned _ _).bind fun _ => advances_pure _

theorem shrinks_readOperands (form : Form) : Shrinks (readOperands form) := (advances_readOperands form).shrinks

end ProtoWasm.Body
