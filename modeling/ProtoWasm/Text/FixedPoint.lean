import ProtoWasm.Numbers

/-! # Binary floating point as decimals

A finite binary number is `mantissa * 2 ^ exponent`. It is written with six decimals, rounded to the
nearest, and an exact tie goes to the even last digit.
-/
namespace ProtoWasm.Text

/-- A quotient rounded to the nearest number, and to the even one of two. -/
def roundDiv (num den : Nat) : Nat :=
  let q := num / den
  let r := num % den
  if 2 * r < den then q
  else if den < 2 * r then q + 1
  else if q % 2 = 0 then q else q + 1

/-- The layout of a binary format: its fraction bits and the bits of its exponent. -/
structure FloatFormat where
  fraction : Nat
  exponent : Nat

namespace FloatFormat

def single : FloatFormat := ⟨23, 8⟩
def double : FloatFormat := ⟨52, 11⟩

def bias (f : FloatFormat) : Nat := 2 ^ (f.exponent - 1) - 1

def fractionOf (f : FloatFormat) (bits : Nat) : Nat := bits % 2 ^ f.fraction
def exponentOf (f : FloatFormat) (bits : Nat) : Nat := bits / 2 ^ f.fraction % 2 ^ f.exponent
def isNegative (f : FloatFormat) (bits : Nat) : Bool := bits / 2 ^ (f.fraction + f.exponent) % 2 = 1

def isSpecial (f : FloatFormat) (bits : Nat) : Bool := f.exponentOf bits = 2 ^ f.exponent - 1

def isNaN (f : FloatFormat) (bits : Nat) : Bool := f.isSpecial bits && f.fractionOf bits != 0

/-- The magnitude of a finite number in units of `10 ^ (-decimals)`, rounded. -/
def scaled (f : FloatFormat) (decimals bits : Nat) : Nat :=
  let e := f.exponentOf bits
  let m := if e = 0 then f.fractionOf bits else f.fractionOf bits + 2 ^ f.fraction
  let shift := max e 1
  let unit := f.bias + f.fraction
  if unit ≤ shift then m * 2 ^ (shift - unit) * 10 ^ decimals
  else roundDiv (m * 10 ^ decimals) (2 ^ (unit - shift))

end FloatFormat

def decimals : Nat := 6

def padded (width n : Nat) : String :=
  let ds := Nat.toDigits 10 n
  String.ofList (List.replicate (width - ds.length) '0' ++ ds)

def fixedPoint (f : FloatFormat) (bits : Nat) : String :=
  if f.isNaN bits then "NaN"
  else if f.isSpecial bits then if f.isNegative bits then "-Inf" else "+Inf"
  else
    let v := f.scaled decimals bits
    let sign := if f.isNegative bits then "-" else ""
    sign ++ toString (v / 10 ^ decimals) ++ "." ++ padded decimals (v % 10 ^ decimals)

end ProtoWasm.Text
