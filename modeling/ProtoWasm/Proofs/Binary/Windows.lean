import ProtoWasm.Proofs.Binary.Cursors

/-! # Windows

A window keeps its place in the buffer of the cursor that it was taken from. But for positions, which count from the
start of that buffer, it answers as a cursor over its bytes alone, and so do the windows that are taken from it.
-/
namespace ProtoWasm

open List Cursors

namespace Cursors

def Operation.shift (start : Nat) : Operation → Operation
  | seek pos => seek (start + pos)
  | check pos n what => check (start + pos) n what
  | op => op

/-- A position is not one of those before the start of a window. -/
def Operation.Inside (start : Nat) : Operation → Prop
  | seek pos | check pos _ _ => pos < 0 → start + pos < 0
  | _ => True

end Cursors

namespace Cursor

/-- A cursor into a buffer and one over the bytes of the buffer from a place on. -/
structure Shows (start : Nat) (x y : Cursor) : Prop where
  bytes : (x.buffer.drop start).take y.limit = y.buffer.take y.limit
  base : x.base + start = y.base
  pos : x.pos = start + y.pos
  limit : x.limit = start + y.limit
  error : x.error = y.error

/-- The place matters no more after an error. -/
def Alike (start : Nat) (x y : Cursor) : Prop := ∃ k, x.Shows k y ∧ (y.ok = true → k = start)

variable {start c n : Nat} {x y : Cursor} {op : Operation}

namespace Shows

variable (h : x.Shows start y)
include h

theorem ok_eq : x.ok = y.ok := by rw [ok, h.error, ok]

theorem offset_eq : x.offset = y.offset := by
  have hbase := h.base
  have hpos := h.pos
  unfold offset
  omega

theorem remaining_eq : x.remaining = y.remaining := by
  have hpos := h.pos
  have hlimit := h.limit
  unfold remaining
  omega

theorem done_eq : x.done = y.done := by
  have hpos := h.pos
  have hlimit := h.limit
  rw [done, done, h.ok_eq]
  congr 1
  exact decide_eq_decide.mpr (by omega)

theorem input_eq : x.input = y.input := by
  have hbytes : (x.buffer.take x.limit).drop x.pos = (y.buffer.take y.limit).drop y.pos := by
    rw [h.pos, h.limit, ← drop_drop, drop_take, Nat.add_sub_cancel_left, h.bytes]
  rw [input, input, hbytes, h.offset_eq]

theorem inRange_eq {pos : Int} (hpos : pos < 0 → start + pos < 0) : x.inRange (start + pos) n = y.inRange pos n := by
  have hlimit := h.limit
  unfold inRange
  rw [← Bool.decide_and, ← Bool.decide_and]
  exact decide_eq_decide.mpr (by omega)

theorem missing_eq {pos : Int} (hpos : pos < 0 → start + pos < 0) (n : Nat) (what : String) :
    x.missing (start + pos) n what = y.missing pos n what := by
  have hbase := h.base
  have hoffset : x.base + (start + pos) = y.base + pos := by omega
  rw [missing, missing, h.inRange_eq hpos, hoffset]

theorem raised_eq (hop : op.Inside start) : x.raised (op.shift start) = y.raised op := by
  cases op with
  | read r _ => simp only [Operation.shift, raised, h.ok_eq, h.input_eq]
  | seek pos => simp only [Operation.shift, raised, h.ok_eq]
  | check pos n what => simp only [Operation.shift, raised, h.ok_eq, h.missing_eq hop]
  | window n what =>
    have hmissing : x.missing x.pos n what = y.missing y.pos n what := by
      rw [h.pos, Int.natCast_add]
      exact h.missing_eq (by omega) n what
    simp only [Operation.shift, raised, h.ok_eq, hmissing]
  | report offset text => simp only [Operation.shift, raised, h.ok_eq]

theorem moved_eq (hop : op.Inside start) : x.moved (op.shift start) = start + y.moved op := by
  have hpos := h.pos
  have hlimit := h.limit
  cases op with
  | read r hr =>
    simp only [Operation.shift, moved, h.ok_eq, h.input_eq]
    split
    · split
      · rename_i a left hread
        have hleft : left.remaining ≤ y.limit := by
          refine Nat.le_trans (hr _ _ _ hread) ?_
          simp only [input, Input.remaining, length_drop, length_take]
          omega
        omega
      · exact hpos
    · exact hpos
  | seek pos =>
    have hop : pos < 0 → start + pos < 0 := hop
    have hiff : (y.ok = true ∧ 0 ≤ start + pos ∧ start + pos ≤ x.limit) ↔ y.ok = true ∧ 0 ≤ pos ∧ pos ≤ y.limit :=
      and_congr_right fun _ => by omega
    simp only [Operation.shift, moved, seek, h.ok_eq, hiff, apply_ite Cursor.pos]
    split
    · split <;> omega
    · exact hpos
  | check pos n what | window n what | report offset text =>
    simp only [Operation.shift, moved, h.ok_eq]
    split <;> omega

theorem part (hn : y.inRange y.pos n = true) (c d : Nat) : (x.part c n).Shows start (y.part d n) := by
  have hle := le_of_inRange hn
  have hpos := h.pos
  refine ⟨?_, h.base, h.pos, by simp only [Cursor.part]; omega, rfl⟩
  have hbytes := congrArg (List.take (y.pos + n)) h.bytes
  rw [take_take, take_take, Nat.min_eq_left hle] at hbytes
  change ((x.buffer.take (x.pos + n)).drop start).take (y.pos + n) = (y.buffer.take (y.pos + n)).take (y.pos + n)
  have hlast : x.pos + n - start = y.pos + n := by omega
  rw [drop_take, hlast, take_take, take_take, Nat.min_self, hbytes]

end Shows

namespace Alike

theorem raised_eq (h : x.Alike start y) (hop : op.Inside start) : x.raised (op.shift start) = y.raised op := by
  obtain ⟨k, hk, hstart⟩ := h
  cases hok : y.ok with
  | true =>
    obtain rfl := hstart hok
    exact hk.raised_eq hop
  | false => rw [raised_of_stopped hok, raised_of_stopped (hk.ok_eq.trans hok)]

theorem move (h : x.Alike start y) (hop : op.Inside start) :
    Alike start { x with pos := x.moved (op.shift start) } { y with pos := y.moved op } := by
  obtain ⟨k, hk, hstart⟩ := h
  refine ⟨k, ⟨hk.bytes, hk.base, ?_, hk.limit, hk.error⟩, hstart⟩
  cases hok : y.ok with
  | true =>
    obtain rfl := hstart hok
    exact hk.moved_eq hop
  | false =>
    rw [moved_of_stopped hok, moved_of_stopped (hk.ok_eq.trans hok)]
    exact hk.pos

theorem fail (h : x.Alike start y) (e : ReadError) : (x.fail e).Alike start (y.fail e) := by
  obtain ⟨k, hk, hstart⟩ := h
  cases hok : y.ok with
  | true =>
    rw [fail_of_ok hok, fail_of_ok (hk.ok_eq.trans hok)]
    exact ⟨k, ⟨hk.bytes, hk.base, hk.limit, hk.limit, rfl⟩, nofun⟩
  | false =>
    rw [fail_of_stopped hok, fail_of_stopped (hk.ok_eq.trans hok)]
    exact ⟨k, hk, hstart⟩

end Alike

end Cursor

namespace Cursors

/-- The cursors of a family from a number on, and a family of cursors that answer alike. -/
structure Mirrors (w start : Nat) (cs ds : Cursors) : Prop where
  length : cs.length = w + ds.length
  alike : ∀ k y, ds[k]? = some y → ∃ x, cs[w + k]? = some x ∧ x.Alike start y ∧
    ∀ p, x.parent = some (w + p) ↔ y.parent = some p

/-- An operation on a window with a number, which starts at a place of its buffer, or on a window that was taken from
it. -/
def inWindow (w start : Nat) (o : Nat × Operation) : Nat × Operation := (w + o.1, o.2.shift start)

namespace Mirrors

variable {w start c k : Nat} {cs ds : Cursors} {x y v z : Cursor} {op : Operation}
  (h : Mirrors w start cs ds)
include h

theorem mem_line (hds : ∀ k, Up ds k) (hc : c < ds.length) : w + k ∈ cs.line (w + c) ↔ k ∈ ds.line c := by
  induction c using Nat.strongRecOn with
  | _ c ih =>
    obtain ⟨y, hy⟩ : ∃ y, ds[c]? = some y := ⟨_, getElem?_eq_getElem hc⟩
    obtain ⟨x, hx, -, hparent⟩ := h.alike c y hy
    cases hp : y.parent with
    | some p =>
      have hlt := (hds c y p hy hp).1
      rw [line_of_parent hy hp hlt, line_of_parent hx ((hparent p).mpr hp) (by omega), mem_cons, mem_cons,
        ih p hlt (by omega), Nat.add_left_cancel_iff]
    | none =>
      have hroot : ds.line c = [c] := line_of_root (by rw [hy]; exact hp)
      rw [hroot, mem_singleton]
      cases hq : x.parent with
      | none =>
        have hroot : cs.line (w + c) = [w + c] := line_of_root (by rw [hx]; exact hq)
        rw [hroot, mem_singleton, Nat.add_left_cancel_iff]
      | some q =>
        -- the window itself: its line goes on with cursors that are not of its family
        have hlt : q < w := by
          by_contra hle
          have hpar := (hparent (q - w)).mp (by rw [hq, Nat.add_sub_of_le (Nat.not_lt.mp hle)])
          cases hp.symm.trans hpar
        have hnot : w + k ∉ cs.line q := fun hmem => absurd (le_of_mem_line hmem) (by omega)
        rw [line_of_parent hx hq (by omega), mem_cons, Nat.add_left_cancel_iff]
        exact or_iff_left hnot

theorem changed (hds : ∀ k, Up ds k) (hx : cs[w + c]? = some x) (hy : ds[c]? = some y) (hxy : x.Alike start y)
    (hop : op.Inside start) (hv : cs[w + k]? = some v) (hz : ds[k]? = some z) (hvz : v.Alike start z) :
    Cursor.Alike start (cs.changed (w + c) x (op.shift start) (w + k) v) (ds.changed c y op k z) := by
  unfold Cursors.changed
  rw [hxy.raised_eq hop]
  cases y.raised op with
  | some e =>
    simp only [h.mem_line hds (List.getElem?_eq_some_iff.mp hy).1]
    split
    · exact hvz.fail e
    · exact hvz
  | none =>
    simp only [Nat.add_left_cancel_iff]
    split
    · rename_i hk
      subst hk
      cases hx.symm.trans hv
      cases hy.symm.trans hz
      exact hxy.move hop
    · exact hvz

variable (hcs : ∀ k, Up cs k) (hds : ∀ k, Up ds k)
include hcs hds

/-- The windows that are taken on both sides answer alike. -/
theorem window {n : Nat} {what : String} (hx : cs[w + c]? = some x) (hy : ds[c]? = some y) (hxy : x.Alike start y)
    (hz : (ds.window c n what)[ds.length]? = some z) : ∃ v, (cs.window (w + c) n what)[cs.length]? = some v ∧
      v.Alike start z ∧ ∀ p, v.parent = some (w + p) ↔ z.parent = some p := by
  have hinside : (Operation.window n what).Inside start := trivial
  have hnext := h.changed hds hx hy hxy hinside hx hy hxy
  rw [changed_self, changed_self] at hnext
  obtain ⟨k, hk, -⟩ := hnext
  change (x.next (.window n what)).Shows k _ at hk
  rw [getElem?_window hds hy] at hz
  rw [getElem?_window hcs hx, hk.ok_eq]
  refine ⟨_, rfl, ?_⟩
  obtain rfl := Option.some.inj hz
  split
  · rename_i hok
    obtain ⟨hyok, hn⟩ := Cursor.inRange_of_next hok
    obtain ⟨j, hj, hstart⟩ := hxy
    obtain rfl := hstart hyok
    exact ⟨⟨j, hj.part hn _ _, fun _ => rfl⟩, fun p => by simp [Cursor.part]⟩
  · rename_i hno
    refine ⟨⟨0, ?_, fun hok => absurd hok hno⟩, fun p => by simp [Cursor.remnant]⟩
    rw [Cursor.remnant, Cursor.remnant, hk.offset_eq, hk.error]
    exact ⟨rfl, Int.add_zero _, rfl, rfl, rfl⟩

theorem follow (o : Nat × Operation) (hop : o.2.Inside start) :
    Mirrors w start (follow cs (inWindow w start o)) (follow ds o) := by
  obtain ⟨c, op⟩ := o
  have hlength := h.length
  obtain ⟨y, hy, heq⟩ | ⟨hnone, heq⟩ := follow_cases ds (c, op)
  · obtain ⟨x, hx, hxy, -⟩ := h.alike c y hy
    have heq' : Cursors.follow cs (inWindow w start (c, op)) = cs.perform (w + c) (op.shift start) :=
      if_pos (List.getElem?_eq_some_iff.mp hx).1
    rw [heq, heq']
    constructor
    · rw [perform_eq hcs hx, perform_eq hds hy, length_append, length_append, length_mapIdx, length_mapIdx, hlength,
        Nat.add_assoc]
      congr 2
      cases op <;> rfl
    · intro k z' hz'
      rcases cases_perform hds hy hz' with ⟨z, hz, rfl⟩ | ⟨rfl, hgiven⟩
      · obtain ⟨v, hv, hvz, hparent⟩ := h.alike k z hz
        refine ⟨_, getElem?_perform hcs hx _ hv, h.changed hds hx hy hxy hop hv hz hvz, fun p => ?_⟩
        rw [changed_eq, changed_eq ds]
        exact hparent p
      · obtain ⟨n, what, rfl, -⟩ := Cursor.mem_given hgiven
        rw [← hlength]
        exact h.window hcs hds hx hy hxy hz'
  · have heq' : Cursors.follow cs (inWindow w start (c, op)) = cs := if_neg (by
      have := getElem?_eq_none_iff.mp hnone
      simp only [inWindow]
      omega)
    rwa [heq, heq']

omit hcs hds in
theorem run {a b : List UInt8} {i j : Int} (hcs : Kept a i cs) (hds : Kept b j ds) (ops : List (Nat × Operation))
    (hops : ∀ o ∈ ops, o.2.Inside start) :
    Mirrors w start ((ops.map (inWindow w start)).foldl Cursors.follow cs) (ops.foldl Cursors.follow ds) := by
  induction ops generalizing cs ds with
  | nil => exact h
  | cons o ops ih =>
    obtain ⟨hop, hops⟩ := forall_mem_cons.mp hops
    exact ih (h.follow hcs.up hds.up o hop) (hcs.follow _) (hds.follow o) hops

end Mirrors

variable {c n : Nat} {x y : Cursor} {cs : Cursors} {bytes : List UInt8} {start : Int}

theorem length_take_input (h : x.Within bytes start) (hn : x.inRange x.pos n = true) :
    (x.input.bytes.take n).length = n := by
  have hle := Cursor.le_of_inRange hn
  have hlimit := h.limit
  simp only [Cursor.input, length_take, length_drop]
  omega

theorem mirrors_window (what : String) (h : Kept bytes start cs) (hx : cs[c]? = some x)
    (hok : (x.next (.window n what)).ok = true) :
    Mirrors cs.length x.pos (cs.window c n what) [.ofBytes (x.input.bytes.take n) x.offset] := by
  have heq : cs.window c n what = _ := perform_eq h.up hx (.window n what)
  have hn := (Cursor.inRange_of_next hok).2
  have hcount := length_take_input (h.within x (mem_of_getElem? hx)) hn
  have hle := Cursor.le_of_inRange hn
  refine ⟨by rw [heq, length_append, length_mapIdx]; rfl, fun k y hy => ?_⟩
  obtain ⟨rfl, rfl⟩ : k = 0 ∧ Cursor.ofBytes (x.input.bytes.take n) x.offset = y := by
    cases k with
    | zero => exact ⟨rfl, Option.some.inj hy⟩
    | succ k => cases hy
  refine ⟨_, getElem?_window h.up hx n what, ?_⟩
  rw [if_pos hok]
  refine ⟨⟨x.pos, ?_, fun _ => rfl⟩, fun p => ?_⟩
  · refine ⟨?_, rfl, rfl, by simp only [Cursor.part, Cursor.ofBytes, hcount], rfl⟩
    have hall : (x.input.bytes.take n).take (x.input.bytes.take n).length = x.input.bytes.take n := take_length
    have hmin : min n (x.limit - x.pos) = n := by omega
    change ((x.buffer.take (x.pos + n)).drop x.pos).take (x.input.bytes.take n).length = _
    rw [Cursor.ofBytes, hall, hcount, Cursor.input, drop_take, drop_take, take_take, take_take,
      Nat.add_sub_cancel_left, Nat.min_self, hmin]
  · have hlt := (List.getElem?_eq_some_iff.mp hx).1
    simp only [Cursor.part, Cursor.ofBytes, Option.some.injEq, reduceCtorEq, iff_false]
    omega

/-- Two cursors of two families give the same answers to all that can be asked of them, at positions of the first that
count from a place of its buffer. -/
def SameAnswers (start : Nat) (cs : Cursors) (c : Nat) (x : Cursor) (ds : Cursors) (d : Nat) (y : Cursor) : Prop :=
  x.offset = y.offset ∧ x.remaining = y.remaining ∧ x.done = y.done ∧ x.error = y.error ∧ x.peek = y.peek ∧
  x.rest = y.rest ∧ (∀ {α : Type} [Inhabited α] (r : Reader α), (cs.read c r).1 = (ds.read d r).1) ∧
  ∀ (pos : Int) n what, (pos < 0 → start + pos < 0) →
    (cs.checkRange c (start + pos) n what).1 = (ds.checkRange d pos n what).1

theorem sameAnswers {start d : Nat} {ds : Cursors} (hx : cs[c]? = some x) (hy : ds[d]? = some y)
    (h : x.Alike start y) : SameAnswers start cs c x ds d y := by
  obtain ⟨k, hk, hstart⟩ := h
  refine ⟨hk.offset_eq, hk.remaining_eq, hk.done_eq, hk.error, ?_, ?_, fun r => ?_, fun pos n what hpos => ?_⟩
  · rw [Cursor.peek, Cursor.peek, hk.done_eq, hk.input_eq]
  · rw [Cursor.rest, Cursor.rest, hk.ok_eq, hk.input_eq]
  · simp only [read, hx, hy, hk.ok_eq, hk.input_eq]
    split
    · split <;> rfl
    · rfl
  · simp only [checkRange, hx, hy, hk.ok_eq]
    cases hok : y.ok with
    | false => rfl
    | true =>
      obtain rfl := hstart hok
      simp only [hk.inRange_eq hpos]
      cases y.inRange pos n <;> rfl

/-- A window of `n` bytes, after any operations on it and on the windows that are taken from it, answers as a cursor
over these bytes alone, with their offset, when positions count from where the window starts and are not before it. So
do the windows. What they have before them are some of the `n` bytes, and no offset is outside of these. -/
theorem window_confines (buffer : List UInt8) (base : Int) (before ops : List (Nat × Operation)) (what : String)
    (hx : (use buffer base before)[c]? = some x) (hok : x.ok = true) (hn : x.inRange x.pos n = true)
    (hops : ∀ o ∈ ops, o.2.Inside x.pos) :
    let w := (use buffer base before).length
    let cs := (ops.map (inWindow w x.pos)).foldl follow ((use buffer base before).window c n what)
    let bytes := x.input.bytes.take n
    let ds := use bytes x.offset ops
    bytes.length = n ∧ cs.length = w + ds.length ∧ ∀ (k : Nat) (v : Cursor), cs[w + k]? = some v →
      x.offset ≤ v.offset ∧ v.offset ≤ x.offset + n ∧ v.input.bytes <:+: bytes ∧
      ∃ y, ds[k]? = some y ∧ SameAnswers x.pos cs (w + k) v ds k y := by
  intro w cs bytes ds
  have hkept : Kept buffer base (use buffer base before) := (kept_ofBytes buffer base).run before
  have hcount : bytes.length = n := length_take_input (hkept.within x (mem_of_getElem? hx)) hn
  have hnext : (x.next (.window n what)).ok = true := by
    simp [Cursor.ok_iff, Cursor.error_next, Cursor.ok_iff.mp hok, Cursor.raised, Cursor.missing, hok, hn]
  have hwindow : follow (use buffer base before) (c, .window n what) = (use buffer base before).window c n what :=
    if_pos (List.getElem?_eq_some_iff.mp hx).1
  have h : Mirrors w x.pos cs ds := (mirrors_window what hkept hx hnext).run
    (hwindow ▸ hkept.follow (c, .window n what)) (kept_ofBytes bytes x.offset) ops hops
  refine ⟨hcount, h.length, fun k v hv => ?_⟩
  have hk : k < ds.length := by
    have hlt := (List.getElem?_eq_some_iff.mp hv).1
    have hlength := h.length
    omega
  obtain ⟨v', hv', ha, -⟩ := h.alike k _ (getElem?_eq_getElem hk)
  cases hv.symm.trans hv'
  have hwithin := ((kept_ofBytes bytes x.offset).run ops).within _ (getElem_mem hk)
  have hoffset := hwithin.offset
  obtain ⟨j, hj, -⟩ := id ha
  rw [hcount, ← hj.offset_eq] at hoffset
  refine ⟨hoffset.1, hoffset.2, ?_, _, getElem?_eq_getElem hk, sameAnswers hv (getElem?_eq_getElem hk) ha⟩
  rw [hj.input_eq]
  have htaken := take_prefix ds[k].limit ds[k].buffer
  exact (drop_suffix _ _).isInfix.trans (htaken.trans hwithin.buffer).isInfix

def readByte : Operation := .read (Reader.byte "byte") (Reader.advances_byte _).shrinks

/-- The window is moved to its second byte, and a window of the last byte is taken and read to its end and beyond. -/
def inside : List (Nat × Operation) := [(0, .seek 1), (0, .window 1 "inner"), (1, readByte), (1, readByte)]

theorem window_confines_inner :
    ∃ x v, (use [0xaa, 0xbb, 0xcc, 0xdd] 1000 [(0, readByte)])[0]? = some x ∧ x.ok = true ∧
      x.inRange x.pos 2 = true ∧ (∀ o ∈ inside, o.2.Inside x.pos) ∧
      ((inside.map (inWindow 1 x.pos)).foldl follow
        ((use [0xaa, 0xbb, 0xcc, 0xdd] 1000 [(0, readByte)]).window 0 2 "window"))[2]? = some v ∧
      v.error = some ⟨1003, .short "byte" 1⟩ ∧ v.offset = 1003 ∧ v.peek = 0 := by
  obtain ⟨x, hx, hmap⟩ := Option.map_eq_some_iff.mp (show (use [0xaa, 0xbb, 0xcc, 0xdd] 1000 [(0, readByte)])[0]?.map
      (fun x => (x.ok, x.inRange x.pos 2, x.input.bytes.take 2, x.offset)) =
    some (true, true, [0xbb, 0xcc], 1001) by decide +kernel)
  simp only [Prod.mk.injEq] at hmap
  obtain ⟨hok, hn, hbytes, hoffset⟩ := hmap
  have hops : ∀ o ∈ inside, o.2.Inside x.pos := by simp [inside, readByte, Operation.Inside]
  obtain ⟨-, hlength, hall⟩ :=
    window_confines [0xaa, 0xbb, 0xcc, 0xdd] 1000 [(0, readByte)] inside "window" hx hok hn hops
  obtain ⟨y, hy, hmap⟩ := Option.map_eq_some_iff.mp (show (use [0xbb, 0xcc] 1001 inside)[1]?.map
      (fun y => (y.error, y.offset, y.peek)) = some (some ⟨1003, .short "byte" 1⟩, 1003, 0) by decide +kernel)
  simp only [Prod.mk.injEq] at hmap
  have hone : (use [0xaa, 0xbb, 0xcc, 0xdd] 1000 [(0, readByte)]).length = 1 := by decide +kernel
  rw [hbytes, hoffset, hone] at hlength hall
  have hlt := (List.getElem?_eq_some_iff.mp hy).1
  have hv := getElem?_eq_getElem (Nat.lt_of_lt_of_eq (Nat.add_lt_add_left hlt 1) hlength.symm)
  obtain ⟨-, -, -, y', hy', ho, -, -, he, hp, -⟩ := hall 1 _ hv
  cases hy.symm.trans hy'
  exact ⟨x, _, hx, hok, hn, hops, hv, he.trans hmap.1, ho.trans hmap.2.1, hp.trans hmap.2.2⟩

/-- A window that starts after one byte is moved to position 0: it leaves its bytes, as a cursor over them does not. -/
theorem window_escapes :
    let escaped := follow (use [0xaa, 0xbb, 0xcc] 1000 [(0, readByte), (0, .window 2 "window")]) (1, .seek 0)
    escaped[1]?.map (fun x => (x.peek, x.offset)) = some (0xaa, 1000) ∧
    (use [0xbb, 0xcc] 1001 [(0, .seek 0)])[0]?.map (fun x => (x.peek, x.offset)) = some (0xbb, 1001) := by
  decide +kernel

end Cursors

end ProtoWasm
