import ProtoWasm.Text.FloatOfInt
import ProtoWasm.ValType

/-! # Values as raw bits

Parameters, results and globals are 64-bit words. Values of 32 bits take the low half and leave the
other one zero.
-/
namespace ProtoWasm.Value

open Text (FloatFormat)

def low32 (v : UInt64) : UInt64 := v &&& 0xffffffff

def ofI32 (n : Int) : UInt64 := .ofNat (n.emod (2 ^ 32)).toNat

def ofI64 (n : Int) : UInt64 := .ofNat (n.emod (2 ^ 64)).toNat

def ofF32Bits (v : UInt64) : UInt64 := low32 v

def f32OfInt (n : Int) : UInt64 := .ofNat (FloatFormat.single.ofInt n)

def f64OfInt (n : Int) : UInt64 := .ofNat (FloatFormat.double.ofInt n)

def isNaN32 (v : UInt64) : Bool := FloatFormat.single.isNaN (low32 v).toNat

def isNaN64 (v : UInt64) : Bool := FloatFormat.double.isNaN v.toNat

def toI32 (v : UInt64) : Int := ((low32 v).toNat : Int).bmod (2 ^ 32)

def toI64 (v : UInt64) : Int := (v.toNat : Int).bmod (2 ^ 64)

end ProtoWasm.Value
