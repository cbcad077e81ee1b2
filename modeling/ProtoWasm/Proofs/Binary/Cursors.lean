import Mathlib.Data.List.Basic
import ProtoWasm.Binary.Cursor
import ProtoWasm.Binary.Progress

/-! # Cursors in use

The cursors of a family are read, moved, asked for windows and told of errors in any order. None of them leaves its
buffer, and each keeps the first error that is raised on it or on a window that was taken from it.
-/
namespace ProtoWasm

open List

/-! ## Operations -/

namespace Cursors

/-- What can be done with a cursor and changes it. What is read is read by a reader that gives no bytes back. -/
inductive Operation : Type 1 where
  | read {α : Type} [Inhabited α] (r : Reader α) (h : r.Shrinks)
  | seek (pos : Int)
  | check (pos : Int) (n : Nat) (what : String)
  | window (n : Nat) (what : String)
  | report (offset : Int) (text : String)

def perform (cs : Cursors) (c : Nat) : Operation → Cursors
  | @Operation.read _ _ r _ => (cs.read c r).2
  | .seek pos => cs.modify c fun x => x.seek pos
  | .check pos n what => (cs.checkRange c pos n what).2
  | .window n what => cs.window c n what
  | .report offset text => cs.record c ⟨offset, .note text⟩

end Cursors

namespace Cursor

open Cursors

def missing (x : Cursor) (pos : Int) (n : Nat) (what : String) : Option ReadError :=
  if x.inRange pos n then none else some ⟨x.base + pos, .short what n⟩

/-- The error that an operation raises on a cursor. After an error there is no other. -/
def raised (x : Cursor) (op : Operation) : Option ReadError :=
  if x.ok then
    match op with
    | @Operation.read _ _ r _ =>
      match r x.input with
      | .ok _ => none
      | .error e => some e
    | .seek _ => none
    | .check pos n what => x.missing pos n what
    | .window n what => x.missing x.pos n what
    | .report offset text => some ⟨offset, .note text⟩
  else none

def moved (x : Cursor) (op : Operation) : Nat :=
  if x.ok then
    match op with
    | @Operation.read _ _ r _ =>
      match r x.input with
      | .ok (_, left) => x.limit - left.remaining
      | .error _ => x.pos
    | .seek pos => (x.seek pos).pos
    | .window n _ => x.pos + n
    | .check _ _ _ | .report _ _ => x.pos
  else x.pos

/-- A cursor after an error on it or on a window that was taken from it: the first error stays. -/
def fail (x : Cursor) (e : ReadError) : Cursor := if x.ok then x.stop e else x

def next (x : Cursor) (op : Operation) : Cursor :=
  match x.raised op with
  | some e => x.stop e
  | none => { x with pos := x.moved op }

def part (x : Cursor) (c n : Nat) : Cursor :=
  { buffer := x.buffer.take (x.pos + n), base := x.base, pos := x.pos, limit := x.pos + n, parent := some c }

def remnant (x : Cursor) : Cursor := { base := x.offset, error := x.error }

/-- The windows that an operation on a cursor with a number adds to its family. -/
def given (x : Cursor) (c : Nat) : Operation → Cursors
  | .window n what => [if (x.next (.window n what)).ok then x.part c n else (x.next (.window n what)).remnant]
  | _ => []

/-- A cursor stands before its limit, and its bytes are some of those that a cursor was first made over. -/
structure Within (bytes : List UInt8) (start : Int) (x : Cursor) : Prop where
  pos : x.pos ≤ x.limit
  limit : x.limit ≤ x.buffer.length
  buffer : x.buffer <+: bytes
  base : start ≤ x.base
  last : x.base + x.limit ≤ start + bytes.length

variable {x : Cursor} {n c : Nat} {start : Int} {e : ReadError} {op : Operation} {what : String} {bytes : List UInt8}

theorem ok_iff : x.ok = true ↔ x.error = none := Option.isNone_iff_eq_none

theorem seek_eq (x : Cursor) (pos : Int) : x.seek pos = { x with pos := (x.seek pos).pos } := by
  unfold seek
  split <;> rfl

theorem le_of_inRange (h : x.inRange x.pos n = true) : x.pos + n ≤ x.limit := by
  simp only [inRange, Bool.and_eq_true, decide_eq_true_eq] at h
  omega

theorem raised_of_stopped (h : x.ok = false) (op : Operation) : x.raised op = none := by
  simp [raised, h]

theorem moved_of_stopped (h : x.ok = false) (op : Operation) : x.moved op = x.pos := by
  simp [moved, h]

theorem ok_of_raised (h : x.raised op = some e) : x.ok = true := by
  by_contra hno
  rw [raised_of_stopped (Bool.eq_false_iff.mpr hno)] at h
  cases h

theorem fail_of_stopped (h : x.ok = false) (e : ReadError) : x.fail e = x := by
  simp [fail, h]

theorem fail_of_ok (h : x.ok = true) (e : ReadError) : x.fail e = x.stop e := if_pos h

theorem error_fail (x : Cursor) (e : ReadError) : (x.fail e).error = x.error.or (some e) := by
  cases h : x.error with
  | none => simp [fail, ok, stop, h]
  | some e' => simp [fail, ok, h]

theorem error_next (x : Cursor) (op : Operation) : (x.next op).error = x.error.or (x.raised op) := by
  unfold next
  cases hr : x.raised op with
  | none => simp
  | some e =>
    simp [stop, ok_iff.mp (ok_of_raised hr)]

theorem ok_fail (x : Cursor) (e : ReadError) : (x.fail e).ok = false := by
  rw [ok, error_fail]
  cases x.error <;> rfl

/-- A window can be taken of bytes before the limit. -/
theorem inRange_of_next (h : (x.next (.window n what)).ok = true) : x.ok = true ∧ x.inRange x.pos n = true := by
  rw [ok_iff, error_next, Option.or_eq_none_iff] at h
  obtain ⟨hnone, hr⟩ := h
  have hok := ok_iff.mpr hnone
  simp only [raised, hok, missing, if_true] at hr
  split at hr
  · exact ⟨hok, ‹_›⟩
  · cases hr

theorem mem_given {y : Cursor} (h : y ∈ x.given c op) : ∃ n what, op = .window n what ∧
    ((x.next op).ok = true ∧ y = x.part c n ∨ (x.next op).ok = false ∧ y = (x.next op).remnant) := by
  cases op with
  | window n what =>
    refine ⟨n, what, rfl, ?_⟩
    rw [given, mem_singleton] at h
    cases hok : (x.next (.window n what)).ok <;> simp [hok] at h <;> simp [h]
  | read r h' | seek pos | check pos n what | report offset text => exact absurd h not_mem_nil

theorem moved_le (h : x.pos ≤ x.limit) (hr : x.raised op = none) : x.moved op ≤ x.limit := by
  unfold moved
  split
  · rename_i hok
    cases op with
    | read r _ =>
      simp only
      split
      · exact Nat.sub_le _ _
      · exact h
    | seek pos =>
      simp only [seek]
      split
      · simp only
        omega
      · exact h
    | window n what =>
      refine le_of_inRange (@inRange_of_next x n what ?_).2
      rw [ok_iff, error_next, hr, ok_iff.mp hok]
      rfl
    | check pos n what | report offset text => exact h
  · exact h

namespace Within

variable (h : x.Within bytes start)
include h

theorem offset : start ≤ x.offset ∧ x.offset ≤ start + bytes.length := by
  have hpos := h.pos
  have hbase := h.base
  have hlast := h.last
  unfold Cursor.offset
  omega

theorem part (hn : x.inRange x.pos n = true) : (x.part c n).Within bytes start := by
  have hle := le_of_inRange hn
  have hlimit := h.limit
  have hlast := h.last
  have hbuffer := take_prefix (x.pos + n) x.buffer
  refine ⟨Nat.le_add_right _ _, ?_, hbuffer.trans h.buffer, h.base, ?_⟩
  · simp only [Cursor.part, length_take]
    omega
  · simp only [Cursor.part]
    omega

theorem remnant : x.remnant.Within bytes start := by
  obtain ⟨hfirst, hlast⟩ := h.offset
  exact ⟨Nat.le_refl 0, Nat.le_refl 0, nil_prefix, hfirst, by simpa [Cursor.remnant] using hlast⟩

end Within

end Cursor

/-! ## Errors go up -/

namespace Cursors

variable {cs : Cursors} {c k p : Nat} {x z : Cursor} {op : Operation} {bytes : List UInt8} {start : Int}

def line (cs : Cursors) (c : Nat) : List Nat :=
  match cs[c]?.bind Cursor.parent with
  | none => [c]
  | some p => if p < c then c :: line cs p else [c]
termination_by c

/-- A window comes from an earlier cursor, which has an error when the window has one. -/
def Up (cs : Cursors) (k : Nat) : Prop :=
  ∀ x p, cs[k]? = some x → x.parent = some p → p < k ∧ ∃ y, cs[p]? = some y ∧ (x.ok = false → y.ok = false)

theorem line_of_parent (hx : cs[c]? = some x) (hp : x.parent = some p) (hlt : p < c) :
    cs.line c = c :: cs.line p := by
  rw [line, hx, Option.bind_some, hp]
  simp only [hlt, if_true]

theorem line_of_root (hx : cs[c]?.bind Cursor.parent = none) : cs.line c = [c] := by
  rw [line, hx]

theorem self_mem_line (cs : Cursors) (c : Nat) : c ∈ cs.line c := by
  rw [line]
  split
  · exact mem_singleton_self c
  · split
    · exact mem_cons_self
    · exact mem_singleton_self c

theorem le_of_mem_line (h : k ∈ cs.line c) : k ≤ c := by
  fun_induction line cs c with
  | case1 c hx => exact Nat.le_of_eq (mem_singleton.mp h)
  | case2 c p hx hlt ih =>
    rcases mem_cons.mp h with rfl | h
    · exact Nat.le_refl _
    · exact Nat.le_trans (ih h) (Nat.le_of_lt hlt)
  | case3 c p hx hlt => exact Nat.le_of_eq (mem_singleton.mp h)

theorem line_set (hlt : p < c) (z : Cursor) : line (cs.set c z) p = cs.line p := by
  fun_induction line cs p with
  | case1 p hx => rw [line_of_root (by rwa [getElem?_set_ne (by omega)])]
  | case2 p q hx hq ih =>
    rw [line, getElem?_set_ne (by omega), hx]
    simp only [hq, if_true, ih (by omega)]
  | case3 p q hx hq =>
    rw [line, getElem?_set_ne (by omega), hx]
    simp only [hq, if_false]

/-- The line of a cursor goes on as its windows' does. -/
theorem parent_mem_line (hup : Up cs k) (hz : cs[k]? = some z) (hp : z.parent = some p) (h : k ∈ cs.line c) :
    p ∈ cs.line c := by
  have hk : p ∈ cs.line k := by
    rw [line_of_parent hz hp (hup z p hz hp).1]
    exact mem_cons_of_mem _ (self_mem_line cs p)
  fun_induction line cs c with
  | case1 c hx => rwa [mem_singleton.mp h, line_of_root hx] at hk
  | case2 c q hx hq ih =>
    rcases mem_cons.mp h with rfl | h
    · rw [line, hx] at hk
      simpa only [hq, if_true] using hk
    · exact mem_cons_of_mem _ (ih h)
  | case3 c q hx hq =>
    rw [mem_singleton.mp h, line, hx] at hk
    simpa only [hq, if_false] using hk

theorem stopped_of_mem_line (hup : ∀ j ≤ c, Up cs j) (hx : cs[c]? = some x) (hok : x.ok = false) (h : k ∈ cs.line c)
    (hz : cs[k]? = some z) : z.ok = false := by
  fun_induction line cs c generalizing x with
  | case1 c hc =>
    obtain rfl := mem_singleton.mp h
    cases hx.symm.trans hz
    exact hok
  | case2 c p hc hlt ih =>
    rcases mem_cons.mp h with rfl | h
    · cases hx.symm.trans hz
      exact hok
    · rw [hx, Option.bind_some] at hc
      obtain ⟨-, y, hy, hstopped⟩ := hup c (Nat.le_refl c) x p hx hc
      exact ih (fun j hj => hup j (by omega)) hy (hstopped hok) h
  | case3 c p hc hlt =>
    obtain rfl := mem_singleton.mp h
    cases hx.symm.trans hz
    exact hok

theorem set_eq_mapIdx (hx : cs[c]? = some x) (f : Cursor → Cursor) :
    cs.set c (f x) = cs.mapIdx fun k z => if k = c then f z else z := by
  refine ext_getElem? fun k => ?_
  rw [getElem?_mapIdx]
  by_cases hk : k = c
  · subst hk
    simp [getElem?_set_self (List.getElem?_eq_some_iff.mp hx).1, hx]
  · simp [getElem?_set_ne (Ne.symm hk), hk]

/-- An error is recorded on the whole line of a cursor, but for the cursors that have one. -/
theorem record_eq (hup : ∀ j ≤ c, Up cs j) (e : ReadError) :
    cs.record c e = cs.mapIdx fun k z => if k ∈ cs.line c then z.fail e else z := by
  fun_induction record cs c e with
  | case1 cs c hx =>
    rw [line_of_root (by rw [hx]; rfl)]
    refine ext_getElem? fun k => ?_
    rw [getElem?_mapIdx]
    by_cases hk : k = c
    · rw [hk, hx]
      rfl
    · simp [hk]
  | case2 cs c x hx hok cs' hp =>
    rw [line_of_root (by rw [hx]; exact hp)]
    simp only [mem_singleton]
    rw [← set_eq_mapIdx hx, Cursor.fail_of_ok hok]
  | case3 cs c x hx hok cs' p hp hlt ih =>
    have hup' : ∀ j ≤ p, Up cs' j := by
      intro j hj z q hz hq
      rw [getElem?_set_ne (by omega)] at hz
      obtain ⟨hlt', y, hy, hstopped⟩ := hup j (by omega) z q hz hq
      exact ⟨hlt', y, by rwa [getElem?_set_ne (by omega)], hstopped⟩
    have hcs : cs' = cs.mapIdx fun k z => if k = c then z.fail e else z := by
      rw [← set_eq_mapIdx hx, Cursor.fail_of_ok hok]
    rw [ih hup', line_set hlt, hcs, mapIdx_mapIdx, line_of_parent hx hp hlt]
    congr 1
    ext1 k
    ext1 z
    by_cases hk : k = c
    · have hnot : k ∉ cs.line p := fun hmem => absurd (le_of_mem_line hmem) (by omega)
      simp [hk ▸ hnot, hk]
    · simp [hk]
  | case4 cs c x hx hok cs' p hp hlt => exact absurd (hup c (Nat.le_refl c) x p hx hp).1 hlt
  | case5 cs c x hx hok =>
    refine ext_getElem? fun k => ?_
    rw [getElem?_mapIdx]
    cases hz : cs[k]? with
    | none => rfl
    | some z =>
      rw [Option.map_some]
      split
      · rename_i hk
        rw [Cursor.fail_of_stopped (stopped_of_mem_line hup hx (Bool.eq_false_iff.mpr hok) hk hz)]
      · rfl

/-- What an operation on one cursor makes of another one of its family. -/
def changed (cs : Cursors) (c : Nat) (x : Cursor) (op : Operation) (k : Nat) (z : Cursor) : Cursor :=
  match x.raised op with
  | some e => if k ∈ cs.line c then z.fail e else z
  | none => if k = c then { z with pos := x.moved op } else z

theorem changed_self (cs : Cursors) (c : Nat) (x : Cursor) (op : Operation) : cs.changed c x op c x = x.next op := by
  unfold changed Cursor.next
  cases hr : x.raised op with
  | some e => simp [self_mem_line, Cursor.fail_of_ok (Cursor.ok_of_raised hr)]
  | none => simp

section

variable (hup : ∀ k, Up cs k) (hx : cs[c]? = some x)
include hup hx

theorem mapIdx_changed (op : Operation) : cs.mapIdx (cs.changed c x op) = match x.raised op with
    | some e => cs.record c e
    | none => cs.set c { x with pos := x.moved op } := by
  unfold changed
  cases x.raised op with
  | some e => exact (record_eq (fun j _ => hup j) e).symm
  | none => exact (set_eq_mapIdx hx fun z => { z with pos := x.moved op }).symm

/-- The cursors after an operation are those that there were and the window that was asked for. -/
theorem perform_eq (op : Operation) : cs.perform c op = cs.mapIdx (cs.changed c x op) ++ x.given c op := by
  have hset : cs.set c x = cs := by
    obtain ⟨hlt, rfl⟩ := List.getElem?_eq_some_iff.mp hx
    exact set_getElem_self hlt
  have hself : (cs.mapIdx (cs.changed c x op))[c]? = some (x.next op) := by
    rw [getElem?_mapIdx, hx, Option.map_some, changed_self]
  rw [mapIdx_changed hup hx] at hself ⊢
  cases op with
  | read r h =>
    simp only [perform, read, hx, Cursor.raised, Cursor.moved, Cursor.given, append_nil]
    cases hok : x.ok with
    | false => simp [hset]
    | true =>
      simp only [if_true]
      cases r x.input <;> rfl
  | seek pos =>
    simp only [perform, modify_eq_set_getElem?, hx, Cursor.raised, Cursor.moved, Cursor.given, append_nil]
    cases hok : x.ok with
    | false => simp [Cursor.seek, hok, hset]
    | true => exact congrArg (cs.set c) (Cursor.seek_eq x pos)
  | check pos n what =>
    simp only [perform, checkRange, hx, Cursor.raised, Cursor.moved, Cursor.missing, Cursor.given, append_nil]
    cases hok : x.ok with
    | false => simp [hset]
    | true => cases x.inRange pos n <;> simp [hset]
  | window n what =>
    simp only [perform, window, checkRange, hx, Cursor.given]
    simp only [Cursor.next, Cursor.raised, Cursor.moved, Cursor.missing] at hself ⊢
    cases hok : x.ok with
    | false => simp [hx, hok, hset, Cursor.remnant]
    | true =>
      rw [hok] at hself
      cases hin : x.inRange x.pos n with
      | false =>
        rw [hin] at hself
        simp only [Bool.false_eq_true, if_true, if_false] at hself
        simp [hself, Cursor.ok, Cursor.stop, Cursor.remnant]
      | true => simp [Cursor.ok, Cursor.part, Cursor.ok_iff.mp hok]
  | report offset text =>
    simp only [perform, Cursor.raised, Cursor.moved, Cursor.given, append_nil]
    cases hok : x.ok with
    | false => simp [record, hx, hok, hset]
    | true => rfl

theorem cases_perform {y : Cursor} (hy : (cs.perform c op)[k]? = some y) :
    (∃ z, cs[k]? = some z ∧ cs.changed c x op k z = y) ∨ k = cs.length ∧ y ∈ x.given c op := by
  rw [perform_eq hup hx, getElem?_append, length_mapIdx] at hy
  split at hy
  · rw [getElem?_mapIdx] at hy
    exact .inl (Option.map_eq_some_iff.mp hy)
  · refine .inr ⟨?_, mem_of_getElem? hy⟩
    have hlt := (List.getElem?_eq_some_iff.mp hy).1
    have hle : (x.given c op).length ≤ 1 := by
      cases op <;> simp [Cursor.given]
    omega

theorem getElem?_perform (op : Operation) (hz : cs[k]? = some z) :
    (cs.perform c op)[k]? = some (cs.changed c x op k z) := by
  have hmap : (cs.mapIdx (cs.changed c x op))[k]? = some (cs.changed c x op k z) := by
    rw [getElem?_mapIdx, hz, Option.map_some]
  rw [perform_eq hup hx, getElem?_append_left (List.getElem?_eq_some_iff.mp hmap).1, hmap]

theorem getElem?_window (n : Nat) (what : String) : (cs.window c n what)[cs.length]? =
    some (if (x.next (.window n what)).ok then x.part c n else (x.next (.window n what)).remnant) := by
  have heq : cs.window c n what = _ := perform_eq hup hx (.window n what)
  rw [heq, Cursor.given, getElem?_append_right (Nat.le_of_eq length_mapIdx), length_mapIdx, Nat.sub_self]
  rfl

end

/-- An operation on a cursor changes no more of another one than where it stands and its error. -/
theorem changed_eq (cs : Cursors) (c k : Nat) (x z : Cursor) (op : Operation) :
    cs.changed c x op k z =
      { z with pos := (cs.changed c x op k z).pos, error := (cs.changed c x op k z).error } := by
  unfold changed Cursor.fail
  repeat' split
  all_goals rfl

theorem changed_of_stopped (hx : cs[c]? = some x) (hz : cs[k]? = some z) (hok : z.ok = false) (op : Operation) :
    cs.changed c x op k z = z := by
  unfold changed
  split
  · rw [Cursor.fail_of_stopped hok, ite_self]
  · split
    · rename_i hk
      subst hk
      cases hx.symm.trans hz
      rw [Cursor.moved_of_stopped hok]
    · rfl

theorem within_changed (hx : cs[c]? = some x) (hz : cs[k]? = some z) (h : z.Within bytes start) (op : Operation) :
    (cs.changed c x op k z).Within bytes start := by
  refine changed_eq cs c k x z op ▸ ⟨?_, h.limit, h.buffer, h.base, h.last⟩
  unfold changed
  cases hr : x.raised op with
  | some e =>
    simp only [Cursor.fail]
    repeat' split
    · exact Nat.le_refl _
    all_goals exact h.pos
  | none =>
    simp only
    split
    · rename_i hk
      subst hk
      cases hx.symm.trans hz
      exact Cursor.moved_le h.pos hr
    · exact h.pos

/-- When an operation stops a window, it stops the cursor that the window was taken from. -/
theorem stopped_changed {y : Cursor} (hup : Up cs k) (hx : cs[c]? = some x) (hz : cs[k]? = some z)
    (hp : z.parent = some p) (hy : cs[p]? = some y) (hok : (cs.changed c x op k z).ok = false) :
    (cs.changed c x op p y).ok = false := by
  obtain ⟨-, y', hy', hstopped⟩ := hup z p hz hp
  cases hy.symm.trans hy'
  cases hzok : z.ok with
  | false => rw [changed_of_stopped hx hy (hstopped hzok), hstopped hzok]
  | true =>
    unfold changed at hok ⊢
    cases hr : x.raised op with
    | some e =>
      simp only [hr] at hok ⊢
      split at hok
      · rename_i hk
        rw [if_pos (parent_mem_line hup hz hp hk), Cursor.ok_fail]
      · simp [hzok] at hok
    | none =>
      simp only [hr] at hok
      split at hok <;> simp [Cursor.ok, Cursor.ok_iff.mp hzok] at hok

/-! ## The first error -/

def follow (cs : Cursors) (o : Nat × Operation) : Cursors := if o.1 < cs.length then cs.perform o.1 o.2 else cs

/-- A cursor over a buffer, after operations on it and on the windows that are taken from it. -/
def use (buffer : List UInt8) (base : Int) (ops : List (Nat × Operation)) : Cursors :=
  ops.foldl follow [.ofBytes buffer base]

/-- The error that an operation brings to a cursor. What is raised on a window goes to the cursors that it was taken
from, and a window that cannot be taken has the error of its parent from the start. -/
def brought (cs : Cursors) (o : Nat × Operation) (k : Nat) : Option ReadError :=
  cs[o.1]?.bind fun x =>
    if k < cs.length then if k ∈ cs.line o.1 then x.raised o.2 else none
    else
      match o.2 with
      | .window _ _ => if k = cs.length then x.error.or (x.raised o.2) else none
      | _ => none

/-- The first error that operations bring to a cursor. -/
def first (k : Nat) : Cursors → List (Nat × Operation) → Option ReadError
  | _, [] => none
  | cs, o :: ops => (cs.brought o k).or (first k (follow cs o) ops)

structure Kept (bytes : List UInt8) (start : Int) (cs : Cursors) : Prop where
  within : ∀ x ∈ cs, x.Within bytes start
  up : ∀ k, Up cs k

theorem follow_cases (cs : Cursors) (o : Nat × Operation) :
    (∃ x, cs[o.1]? = some x ∧ follow cs o = cs.perform o.1 o.2) ∨ cs[o.1]? = none ∧ follow cs o = cs := by
  unfold follow
  split
  · exact .inl ⟨_, getElem?_eq_getElem ‹_›, rfl⟩
  · exact .inr ⟨getElem?_eq_none (by omega), rfl⟩

theorem error_changed (hx : cs[c]? = some x) (hk : k < cs.length) :
    (cs.changed c x op k z).error = z.error.or (cs.brought (c, op) k) := by
  simp only [changed, brought, hx, hk, if_true, Option.bind_some]
  cases x.raised op with
  | none =>
    simp only [ite_self, Option.or_none]
    split <;> rfl
  | some e =>
    simp only
    split
    · exact Cursor.error_fail z e
    · exact Option.or_none.symm

/-- An error that is brought to a number is had by the cursor that takes it. -/
theorem error_perform (hup : ∀ k, Up cs k) (hx : cs[c]? = some x) (op : Operation) (k : Nat) :
    (cs.perform c op)[k]?.bind Cursor.error = (cs[k]?.bind Cursor.error).or (cs.brought (c, op) k) := by
  cases hz : cs[k]? with
  | some z =>
    rw [getElem?_perform hup hx _ hz, Option.bind_some, Option.bind_some,
      error_changed hx (List.getElem?_eq_some_iff.mp hz).1]
  | none =>
    have hk := getElem?_eq_none_iff.mp hz
    have hlength := length_mapIdx (l := cs) (f := cs.changed c x op)
    rw [perform_eq hup hx, getElem?_append_right (by omega), hlength]
    simp only [brought, hx, Nat.not_lt.mpr hk, Option.bind_some, Option.bind_none, Option.none_or, if_false]
    cases op with
    | window n what =>
      by_cases heq : k = cs.length
      · simp only [heq, Cursor.given, Nat.sub_self, if_true, ← Cursor.error_next]
        cases hok : (x.next (.window n what)).ok with
        | true => simp [Cursor.part, Cursor.ok_iff.mp hok]
        | false => simp [Cursor.remnant]
      · have hpast : [if (x.next (.window n what)).ok then x.part c n else (x.next (.window n what)).remnant].length ≤
            k - cs.length := Nat.sub_pos_of_lt (Nat.lt_of_le_of_ne hk (Ne.symm heq))
        rw [Cursor.given, getElem?_eq_none hpast, if_neg heq, Option.bind_none]
    | read r h | seek pos | check pos n what | report offset text => rfl

theorem Kept.follow (h : Kept bytes start cs) (o : Nat × Operation) : Kept bytes start (follow cs o) := by
  obtain ⟨x, hx, heq⟩ | ⟨-, heq⟩ := follow_cases cs o
  · rw [heq]
    constructor
    · intro y hy
      obtain ⟨k, hk⟩ := mem_iff_getElem?.mp hy
      have hwithin := h.within x (mem_of_getElem? hx)
      rcases cases_perform h.up hx hk with ⟨z, hz, rfl⟩ | ⟨-, hgiven⟩
      · exact within_changed hx hz (h.within z (mem_of_getElem? hz)) o.2
      · obtain ⟨n, what, hop, ⟨hok, rfl⟩ | ⟨-, rfl⟩⟩ := Cursor.mem_given hgiven
        · rw [hop] at hok
          exact hwithin.part (Cursor.inRange_of_next hok).2
        · have hnext := within_changed hx hx hwithin o.2
          rw [changed_self] at hnext
          exact hnext.remnant
    · intro k y p hy hp
      rcases cases_perform h.up hx hy with ⟨z, hz, rfl⟩ | ⟨rfl, hgiven⟩
      · rw [changed_eq] at hp
        obtain ⟨hlt, y, hy, -⟩ := h.up k z p hz hp
        exact ⟨hlt, _, getElem?_perform h.up hx _ hy, stopped_changed (h.up k) hx hz hp hy⟩
      · obtain ⟨n, what, -, ⟨-, rfl⟩ | ⟨-, rfl⟩⟩ := Cursor.mem_given hgiven
        · cases hp
          exact ⟨(List.getElem?_eq_some_iff.mp hx).1, _, getElem?_perform h.up hx _ hx, nofun⟩
        · cases hp
  · rwa [heq]

theorem Kept.run (h : Kept bytes start cs) (ops : List (Nat × Operation)) :
    Kept bytes start (ops.foldl Cursors.follow cs) :=
  foldlRecOn ops _ h fun _ hcs o _ => hcs.follow o

theorem kept_ofBytes (bytes : List UInt8) (start : Int) : Kept bytes start [.ofBytes bytes start] := by
  refine ⟨forall_mem_singleton.mpr ?_, fun k x p hx hp => ?_⟩
  · exact ⟨Nat.zero_le _, Nat.le_refl _, prefix_refl bytes, Int.le_refl start, Int.le_refl _⟩
  · obtain rfl := mem_singleton.mp (mem_of_getElem? hx)
    cases hp

theorem error_run (h : Kept bytes start cs) (ops : List (Nat × Operation)) (k : Nat) :
    (ops.foldl follow cs)[k]?.bind Cursor.error = (cs[k]?.bind Cursor.error).or (first k cs ops) := by
  induction ops generalizing cs with
  | nil => exact Option.or_none.symm
  | cons o ops ih =>
    rw [foldl_cons, ih (h.follow o), first, ← Option.or_assoc]
    obtain ⟨x, hx, heq⟩ | ⟨hnone, heq⟩ := follow_cases cs o
    · rw [heq, error_perform h.up hx]
    · rw [heq, brought, hnone, Option.bind_none, Option.or_none]

/-- After an error a cursor stays as it is. -/
theorem Kept.stays (h : Kept bytes start cs) (hx : cs[k]? = some x) (hok : x.ok = false)
    (ops : List (Nat × Operation)) : (ops.foldl Cursors.follow cs)[k]? = some x := by
  induction ops generalizing cs with
  | nil => exact hx
  | cons o ops ih =>
    refine ih (h.follow o) ?_
    obtain ⟨z, hz, heq⟩ | ⟨-, heq⟩ := follow_cases cs o
    · rw [heq, getElem?_perform h.up hz _ hx, changed_of_stopped hz hx hok]
    · rwa [heq]

/-- However a cursor over a buffer and its windows are used, each of them stays in its buffer and has the first error
that was brought to it. With an error it stays as it is, has come to its end and gives nothing. A window that is asked
for is either taken, or it is empty and has the error of its parent. -/
theorem use_safe (buffer : List UInt8) (base : Int) (ops : List (Nat × Operation)) (k : Nat) (x : Cursor)
    (hx : (use buffer base ops)[k]? = some x) :
    let cs := use buffer base ops
    x.pos ≤ x.limit ∧ x.limit ≤ x.buffer.length ∧ x.error = first k [.ofBytes buffer base] ops ∧
    (x.ok = false →
      x.done = true ∧ x.peek = 0 ∧ x.rest = none ∧
      (∀ {α : Type} [Inhabited α] (r : Reader α), (cs.read k r).1 = default) ∧
      (∀ pos n what, (cs.checkRange k pos n what).1 = false) ∧
      ∀ more : List (Nat × Operation), (more.foldl follow cs)[k]? = some x) ∧
    ∀ n what, ∃ w, (cs.window k n what)[cs.length]? = some w ∧
      (w.ok = true ∧ w.parent = some k ∧ w.limit = w.pos + n ∨
        w.error = (cs.window k n what)[k]?.bind Cursor.error ∧ w.ok = false ∧ w.buffer = [] ∧ w.limit = 0) := by
  intro cs
  change cs[k]? = some x at hx
  have h : Kept buffer base cs := (kept_ofBytes buffer base).run ops
  obtain ⟨hpos, hlimit, -⟩ := h.within x (mem_of_getElem? hx)
  have herror : cs[k]?.bind Cursor.error = _ := error_run (kept_ofBytes buffer base) ops k
  refine ⟨hpos, hlimit, ?_, fun hok => ?_, fun n what => ?_⟩
  · have hnone : [Cursor.ofBytes buffer base][k]?.bind Cursor.error = none := by
      cases k <;> rfl
    rwa [hnone, hx, Option.bind_some, Option.none_or] at herror
  · have hdone : x.done = true := by simp [Cursor.done, hok]
    refine ⟨hdone, if_pos hdone, by simp [Cursor.rest, hok], fun r => ?_, fun pos n what => ?_, h.stays hx hok⟩
    · simp [read, hx, hok]
    · simp [checkRange, hx, hok]
  · have hself : (cs.window k n what)[k]? = _ := getElem?_perform h.up hx (.window n what) hx
    rw [hself, changed_self, getElem?_window h.up hx]
    refine ⟨_, rfl, ?_⟩
    split
    · exact .inl ⟨rfl, rfl, rfl⟩
    · rename_i hno
      exact .inr ⟨rfl, Bool.eq_false_iff.mpr hno, rfl, rfl⟩

/-- A window of a window is read past its end, and then a window of it is asked for. -/
def overrun : List (Nat × Operation) :=
  [(0, .window 3 "outer"), (1, .window 2 "inner"),
    (2, .read (Reader.take 3 "bytes") (Reader.advances_take _ _).shrinks), (2, .window 0 "none"), (0, .report 7 "late")]

theorem use_safe_overrun :
    ∃ x y, (use [1, 2, 3, 4] 10 overrun)[0]? = some x ∧ (use [1, 2, 3, 4] 10 overrun)[3]? = some y ∧
      x.error = some ⟨10, .short "bytes" 3⟩ ∧ y.error = x.error ∧ x.done = true ∧
      ∀ more : List (Nat × Operation), (more.foldl follow (use [1, 2, 3, 4] 10 overrun))[0]? = some x := by
  have hlength : (use [1, 2, 3, 4] 10 overrun).length = 4 := by decide +kernel
  have hx := getElem?_eq_getElem (show 0 < (use [1, 2, 3, 4] 10 overrun).length by omega)
  have hy := getElem?_eq_getElem (show 3 < (use [1, 2, 3, 4] 10 overrun).length by omega)
  obtain ⟨-, -, herror, hstopped, -⟩ := use_safe _ _ _ _ _ hx
  obtain ⟨-, -, herror', -⟩ := use_safe _ _ _ _ _ hy
  have hfirst : first 0 [.ofBytes [1, 2, 3, 4] 10] overrun = some ⟨10, .short "bytes" 3⟩ := by decide +kernel
  have hfirst' : first 3 [.ofBytes [1, 2, 3, 4] 10] overrun = some ⟨10, .short "bytes" 3⟩ := by decide +kernel
  rw [hfirst] at herror
  rw [hfirst'] at herror'
  obtain ⟨hdone, -, -, -, -, hstays⟩ := hstopped (by rw [Cursor.ok, herror]; rfl)
  exact ⟨_, _, hx, hy, herror, herror'.trans herror.symm, hdone, hstays⟩

end Cursors

end ProtoWasm
