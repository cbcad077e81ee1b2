/-! # Powers and sums of numbers

Powers of numbers and the zero that a sum starts from are the ones that the types of the numbers define themselves.
Inside of `ProtoWasm` these instances come before those of rings, so that `2 ^ bits` and `sizes.sum` are the same terms
in all modules.
-/
namespace ProtoWasm

-- A default cannot be scoped. This one is used where nothing else tells the type of an exponent.
@[default_instance 100000]
scoped instance (priority := 2000) ownPower {α : Type} [NatPow α] : Pow α Nat := instPowNat

scoped instance (priority := 2000) ownZero : Zero Nat := Zero.ofOfNat0

scoped instance (priority := 2000) ownZeroWord : Zero UInt64 := Zero.ofOfNat0

end ProtoWasm
