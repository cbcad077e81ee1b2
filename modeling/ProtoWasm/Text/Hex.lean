/-! # Lower-case hexadecimal text of numbers and bytes -/
namespace ProtoWasm.Text

def hexDigits (n : Nat) : String := String.ofList (Nat.toDigits 16 n)

def hexPadded (width n : Nat) : String :=
  let ds := Nat.toDigits 16 n
  String.ofList (List.replicate (width - ds.length) '0' ++ ds)

def hexNumber (n : Nat) : String := "0x" ++ hexDigits n

def hexBytes (bs : List UInt8) : String :=
  String.join (bs.map fun b => hexPadded 2 b.toNat)

def hexValue? (c : Char) : Option Nat :=
  if '0' ≤ c ∧ c ≤ '9' then some (c.toNat - 48)
  else if 'a' ≤ c ∧ c ≤ 'f' then some (c.toNat - 87)
  else if 'A' ≤ c ∧ c ≤ 'F' then some (c.toNat - 55)
  else none

def bytesOfHex? : List Char → Option (List UInt8)
  | [] => some []
  | [_] => none
  | h :: l :: rest => do
    let hi ← hexValue? h
    let lo ← hexValue? l
    let bs ← bytesOfHex? rest
    return UInt8.ofNat (16 * hi + lo) :: bs

end ProtoWasm.Text
