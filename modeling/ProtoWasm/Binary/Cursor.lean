import ProtoWasm.Binary.Reader

/-! # Cursors

A cursor reads a buffer up to a limit and keeps the first error it meets: from then on every read gives the zero of its
type. A window is a cursor over the next bytes of another one, its parent, which keeps the window's first error as
well. Cursors that share errors live in one family and are known by their number.
-/
namespace ProtoWasm

structure Cursor where
  buffer : List UInt8 := []
  base : Int := 0
  pos : Nat := 0
  limit : Nat := 0
  error : Option ReadError := none
  parent : Option Nat := none
deriving Repr, Inhabited

namespace Cursor

def ofBytes (buffer : List UInt8) (base : Int) : Cursor :=
  { buffer, base, limit := buffer.length }

def offset (c : Cursor) : Int := c.base + c.pos

def remaining (c : Cursor) : Nat := c.limit - c.pos

def ok (c : Cursor) : Bool := c.error.isNone

def done (c : Cursor) : Bool := !c.ok || c.limit ≤ c.pos

def input (c : Cursor) : Input := ⟨(c.buffer.take c.limit).drop c.pos, c.offset⟩

def peek (c : Cursor) : UInt8 := if c.done then 0 else c.input.bytes.headD 0

def rest (c : Cursor) : Option (List UInt8) := if c.ok then some c.input.bytes else none

def seek (c : Cursor) (pos : Int) : Cursor :=
  if c.ok ∧ 0 ≤ pos ∧ pos ≤ c.limit then { c with pos := pos.toNat } else c

def inRange (c : Cursor) (pos : Int) (n : Nat) : Bool :=
  0 ≤ pos && pos + n ≤ c.limit

def stop (c : Cursor) (e : ReadError) : Cursor := { c with error := some e, pos := c.limit }

end Cursor

abbrev Cursors := List Cursor

namespace Cursors

/-- Records an error on a cursor and on the ones it was taken from, up to the first that has an error
already. -/
def record (cs : Cursors) (c : Nat) (e : ReadError) : Cursors :=
  match cs[c]? with
  | none => cs
  | some cur =>
    if cur.ok then
      let cs := cs.set c (cur.stop e)
      match cur.parent with
      | none => cs
      | some p => if p < c then record cs p e else cs
    else cs
termination_by c

def read {α : Type} [Inhabited α] (cs : Cursors) (c : Nat) (r : Reader α) : α × Cursors :=
  match cs[c]? with
  | none => (default, cs)
  | some cur =>
    if cur.ok then
      match r cur.input with
      | .ok (a, left) => (a, cs.set c { cur with pos := cur.limit - left.remaining })
      | .error e => (default, cs.record c e)
    else (default, cs)

def checkRange (cs : Cursors) (c : Nat) (pos : Int) (n : Nat) (what : String) : Bool × Cursors :=
  match cs[c]? with
  | none => (false, cs)
  | some cur =>
    if !cur.ok then (false, cs)
    else if cur.inRange pos n then (true, cs)
    else (false, cs.record c ⟨cur.base + pos, .short what n⟩)

/-- Takes a window of `n` bytes, which becomes the last cursor of the family. A window that cannot be
taken is empty and has the error of its parent. -/
def window (cs : Cursors) (c : Nat) (n : Nat) (what : String) : Cursors :=
  match cs[c]? with
  | none => cs ++ [{}]
  | some cur =>
    match cs.checkRange c cur.pos n what with
    | (true, cs) =>
      cs.set c { cur with pos := cur.pos + n } ++
        [{ buffer := cur.buffer.take (cur.pos + n), base := cur.base, pos := cur.pos,
           limit := cur.pos + n, parent := some c }]
    | (false, cs) =>
      let failed := cs[c]?.getD {}
      cs ++ [{ base := failed.offset, error := failed.error }]

end Cursors

end ProtoWasm
