import ProtoWasm.Text.FixedPoint

/-! # Integers as binary floating point -/
namespace ProtoWasm.Text.FloatFormat

/-- The bits of the number nearest to an integer that is small enough for the format. The even one of
two is taken. -/
def ofInt (f : FloatFormat) (n : Int) : Nat :=
  let sign := if n < 0 then 2 ^ (f.fraction + f.exponent) else 0
  let magnitude := n.natAbs
  if magnitude = 0 then 0
  else
    let log := magnitude.log2
    -- a mantissa that is rounded up to the next power of two carries into the exponent
    let mantissa :=
      if log ≤ f.fraction then magnitude * 2 ^ (f.fraction - log)
      else roundDiv magnitude (2 ^ (log - f.fraction))
    sign + (f.bias + log) * 2 ^ f.fraction + mantissa - 2 ^ f.fraction

end ProtoWasm.Text.FloatFormat
