import ProtoWasm.Module.Basic

/-! # Finding functions by name -/
namespace ProtoWasm.Module

def decimalIndex? (digits : List Char) : Option Nat :=
  if digits.isEmpty || !digits.all Char.isDigit then none
  else
    let n := digits.foldl (fun n c => 10 * n + (c.toNat - '0'.toNat)) 0
    if n < 2 ^ 32 then some n else none

def dollarIndex? (name : String) : Option Nat :=
  match name.toList with
  | '$' :: digits => decimalIndex? digits
  | _ => none

def findFunction? (m : Module) (name : String) : Option Nat :=
  match m.exportByName? name with
  | some ⟨.func, _, i⟩ => some i
  | _ => match m.functions.findIdx? fun f => f.name == name with
    | some i => some i
    | none => (dollarIndex? name).filter (· < m.functions.length)

end ProtoWasm.Module
