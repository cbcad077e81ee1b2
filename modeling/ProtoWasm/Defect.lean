/-! # Defects

What must never happen to modules that were checked: a reference that leads nowhere, or a value that no
rule covers. A defect stops everything at once and is not an error that a caller can handle.
-/
namespace ProtoWasm

inductive Defect where
  /-- The bounds of a range of bytes are out of order or out of range. -/
  | range
  | index
  /-- Something that is referred to was never set. -/
  | unset
  | globalType
  | initializer
  | exportKind
  /-- Calls are nested deeper than the store follows them. -/
  | nesting
deriving DecidableEq, Repr, Inhabited

end ProtoWasm
