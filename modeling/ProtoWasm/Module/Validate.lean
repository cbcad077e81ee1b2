import ProtoWasm.Body.Decode
import ProtoWasm.Module.Decode

/-! # Checking the functions of a module -/
namespace ProtoWasm.Module

def validateFunction (m : Module) (index : Nat) : Except Error Unit :=
  match Body.check (.ofModule m index) {} with
  | .ok _ => .ok ()
  | .error e => .error (e.toError index)

/-- A check of the function at an index. -/
abbrev Validator := Module → Nat → Except Error Unit

def errorsUnder (m : Module) (validate : Validator) : List Error :=
  m.definedIndices.filterMap fun i =>
    match validate m i with
    | .ok _ => none
    | .error e => some e

def functionErrors (m : Module) : List Error := m.errorsUnder validateFunction

def report? (all : Bool) (errors : List Error) : Option Error :=
  if all then Error.combine? errors else errors.head?

structure Checks where
  validate : Validator := validateFunction
  /-- All errors are reported and not only the first. -/
  reportAll : Bool := false

/-- Decodes a module and, where that is asked for, checks its functions. -/
def decodeUnder (source : List UInt8) (maxPages : Nat) (checks : Option Checks) : Except Error Module := do
  let m ← decode source maxPages
  match checks.bind fun c => report? c.reportAll (m.errorsUnder c.validate) with
  | some e => .error e
  | none => return m

def decodeValid (source : List UInt8) (maxPages : Nat) (reportAll : Bool) : Except Error Module :=
  decodeUnder source maxPages (some { reportAll })

end ProtoWasm.Module
