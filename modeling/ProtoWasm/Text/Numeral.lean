import ProtoWasm.Numbers
import ProtoWasm.Text.Quoted

/-! # Reading numbers and truth values

A number is written in decimal, or in another base with a mark in front: `0x` for hexadecimal, `0o` or
a zero for octal, `0b` for binary. Underscores may separate digits and stand after the mark.
-/
namespace ProtoWasm.Text

inductive NumeralFault where
  | malformed
  | outOfRange
deriving DecidableEq, Repr, Inhabited

def NumeralFault.text : NumeralFault → String
  | malformed => "invalid syntax"
  | outOfRange => "value out of range"

def digitValue? (c : Char) : Option Nat :=
  if c.isDigit then some (c.toNat - '0'.toNat)
  else if 'a' ≤ c ∧ c ≤ 'z' then some (c.toNat - 'a'.toNat + 10)
  else if 'A' ≤ c ∧ c ≤ 'Z' then some (c.toNat - 'A'.toNat + 10)
  else none

/-- Every underscore stands between digits, where the mark of a base counts as a digit. -/
def underscoresFit (afterDigit : Bool) : List Char → Bool
  | [] => true
  | '_' :: c :: rest => afterDigit && c != '_' && underscoresFit false (c :: rest)
  | ['_'] => false
  | _ :: rest => underscoresFit true rest

def numeralBase : List Char → Nat × List Char × Bool
  | '0' :: c :: rest =>
    if c = 'x' ∨ c = 'X' then (16, rest, true)
    else if c = 'o' ∨ c = 'O' then (8, rest, true)
    else if c = 'b' ∨ c = 'B' then (2, rest, true)
    else (8, c :: rest, true)
  | cs => (10, cs, false)

/-- The value of digits in a base, below `2 ^ 64`. Underscores are passed over. The first digit that is
wrong or makes the number too large decides. -/
def readDigits (base : Nat) (cs : List Char) : Except NumeralFault Nat :=
  cs.foldlM (fun n c =>
    if c = '_' then .ok n
    else match (digitValue? c).filter (· < base) with
      | none => .error .malformed
      | some d => if base * n + d < 2 ^ 64 then .ok (base * n + d) else .error .outOfRange) 0

def readNatural (cs : List Char) : Except NumeralFault Nat := do
  let (base, digits, marked) := numeralBase cs
  let n ← readDigits base digits
  if digits.isEmpty || !underscoresFit marked digits then .error .malformed else return n

def readInt64 (s : String) : Except NumeralFault Int := do
  let (negative, digits) := match s.toList with
    | '-' :: rest => (true, rest)
    | '+' :: rest => (false, rest)
    | cs => (false, cs)
  let n ← readNatural digits
  if negative then if n ≤ 2 ^ 63 then return -n else .error .outOfRange
  else if n < 2 ^ 63 then return n else .error .outOfRange

def readBool (s : String) : Except NumeralFault Bool :=
  if s ∈ ["1", "t", "T", "TRUE", "true", "True"] then .ok true
  else if s ∈ ["0", "f", "F", "FALSE", "false", "False"] then .ok false
  else .error .malformed

end ProtoWasm.Text
