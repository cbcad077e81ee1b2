import ProtoWasm.Text.Hex

/-! # Kinds of imports and exports -/
namespace ProtoWasm

inductive ExternKind where
  | func
  | table
  | memory
  | global
  | unknown (code : UInt8)
deriving DecidableEq, Repr, Inhabited

namespace ExternKind

def ofByte (b : UInt8) : ExternKind :=
  if b = 0 then func
  else if b = 1 then table
  else if b = 2 then memory
  else if b = 3 then global
  else unknown b

def toByte : ExternKind → UInt8
  | func => 0
  | table => 1
  | memory => 2
  | global => 3
  | unknown b => b

theorem toByte_ofByte (b : UInt8) : (ofByte b).toByte = b := by
  unfold ofByte
  repeat' split
  all_goals simp_all [toByte]

def name : ExternKind → String
  | func => "func"
  | table => "table"
  | memory => "memory"
  | global => "global"
  | unknown b => Text.hexNumber b.toNat

end ExternKind

end ProtoWasm
