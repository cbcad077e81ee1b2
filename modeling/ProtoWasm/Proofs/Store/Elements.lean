import ProtoWasm.Proofs.Store.Changes
import ProtoWasm.Proofs.Store.Outcome
import ProtoWasm.Proofs.Store.Signatures

/-! # Elements of tables

What an indirect call finds at an index of a table is what an element segment wrote there last, whichever instance it
belongs to. All of them share the numbers of signatures, so a call gets a function exactly if the function has the
signature that the call expects.
-/
namespace ProtoWasm

open List

namespace Table

variable {φ : Type}

theorem get?_set (t : Table φ) (i k : Nat) (e : Element φ) :
    (t.set i e).get? k = if i = k then (some e).filter (·.typeId ≠ uninitialized) else t.get? k := by
  by_cases he : e.typeId = uninitialized
  · simp [get?, set, he, Option.filter, Std.HashMap.getElem?_erase]
  · simp [get?, set, he, Option.filter, Std.HashMap.getElem?_insert]

end Table

namespace Store

open StoreM

variable {s s' s₀ : Store} {ws vs : List Write} {m : Module} {name : String} {x x' : Instance}
  {key : ModuleKey} {source : List UInt8} {limit k : Nat} {seen : List Section} {t : TableId} {f : FunctionId}

/-- The function that was written last to an index of a table. -/
def lastWrite? (ws : List Write) (t : TableId) (k : Nat) : Option FunctionId :=
  (ws.filter fun w => w.table = t ∧ w.index = k).getLast?.map Write.function

theorem lastWrite?_append (ws vs : List Write) (t : TableId) (k : Nat) :
    lastWrite? (ws ++ vs) t k = (lastWrite? vs t k).or (lastWrite? ws t k) := by
  rw [lastWrite?, filter_append, getLast?_append, Option.map_or]
  rfl

theorem mem_of_lastWrite? (h : lastWrite? ws t k = some f) : ⟨t, k, f⟩ ∈ ws := by
  obtain ⟨w, hw, rfl⟩ := Option.map_eq_some_iff.mp h
  obtain ⟨hmem, hplace⟩ := mem_filter.mp (mem_of_getLast? hw)
  obtain ⟨rfl, rfl⟩ := of_decide_eq_true hplace
  exact hmem

def element? (s : Store) (f : FunctionId) : Option (Element FunctionId) :=
  s.functions[f]?.map fun g => ⟨g.typeId, f⟩

/-- What is found where a function was written: nothing if the number of its signature stands for that. -/
def cell? (s : Store) (f : FunctionId) : Option (Element FunctionId) :=
  (s.element? f).filter (·.typeId ≠ Table.uninitialized)

theorem get?_write {w : Write} (hw : s.Admits w) {table : Table FunctionId} (ht : s.tables[t]? = some table) :
    ∃ table', (s.write w).tables[t]? = some table' ∧
      ∀ k, table'.get? k = if w.table = t ∧ w.index = k then s.cell? w.function else table.get? k := by
  obtain ⟨-, g, -, -, hg⟩ := hw
  rw [write_some hg, Array.getElem?_modify, ht]
  by_cases hwt : w.table = t
  · refine ⟨_, if_pos hwt, fun k => ?_⟩
    rw [Table.get?_set, cell?, element?, hg]
    simp only [hwt, true_and]
    rfl
  · exact ⟨table, if_neg hwt, fun k => (if_neg fun h => hwt h.1).symm⟩

theorem get?_writeAll (hws : ∀ w ∈ ws, s.Admits w) {table : Table FunctionId} (ht : s.tables[t]? = some table) :
    ∃ table', (s.writeAll ws).tables[t]? = some table' ∧
      ∀ k, table'.get? k = (lastWrite? ws t k).elim (table.get? k) s.cell? := by
  induction ws generalizing s table with
  | nil => exact ⟨table, ht, fun _ => rfl⟩
  | cons w ws ih =>
    obtain ⟨hw, hws⟩ := forall_mem_cons.mp hws
    have hwrites := writes_write s w
    obtain ⟨table₁, ht₁, hfirst⟩ := get?_write hw ht
    obtain ⟨table', ht', hcells⟩ := ih (fun v hv => hwrites.admits_iff.mpr (hws v hv)) ht₁
    refine ⟨table', ht', fun k => ?_⟩
    have hcell : (s.write w).cell? = s.cell? := by
      funext f
      rw [cell?, cell?, element?, element?, hwrites.1.functions]
    rw [hcells, hcell, hfirst, ← singleton_append, lastWrite?_append]
    cases lastWrite? ws t k with
    | some f => rfl
    | none => by_cases hplace : w.table = t ∧ w.index = k <;> simp [lastWrite?, hplace]

/-- The tables hold what was written last. No number of a signature must be the one of an element that nothing
was written to. -/
structure Recorded (s : Store) (ws : List Write) : Prop where
  admits : ∀ w ∈ ws, s.Admits w
  cells : s.signatures.length < Table.uninitialized → ∀ (t : TableId) table, s.tables[t]? = some table →
    ∀ k, table.get? k = (lastWrite? ws t k).bind s.element?

theorem Recorded.empty (config : StoreConfig) : Recorded { config } [] where
  admits := by simp
  cells := by simp

section

variable (h : s.Recorded ws)
include h

theorem Recorded.element?_eq (hf : Keeps s.functions s'.functions)
    (hw : lastWrite? ws t k = some f) : s'.element? f = s.element? f := by
  obtain ⟨-, g, -, -, hg⟩ := h.admits _ (mem_of_lastWrite? hw)
  rw [element?, element?, hg, hf f g hg]

theorem Recorded.bind_element?_eq (hf : Keeps s.functions s'.functions) (t : TableId) (k : Nat) :
    (lastWrite? ws t k).bind s'.element? = (lastWrite? ws t k).bind s.element? := by
  cases hw : lastWrite? ws t k with
  | none => rfl
  | some f => exact h.element?_eq hf hw

theorem Recorded.stays (hs : s.Stays s') : s'.Recorded ws where
  admits := by
    intro w hw
    rw [Admits, hs.tables, hs.functions]
    exact h.admits w hw
  cells := by
    intro hfew t table ht k
    have hf : Keeps s.functions s'.functions := hs.functions ▸ .refl _
    rw [h.bind_element?_eq hf]
    rw [hs.tables] at ht
    exact h.cells (Nat.lt_of_le_of_lt hs.numbered.1.length_le hfew) t table ht k

theorem Recorded.lastWrite?_eq_none (ht : s.tables.size ≤ t) (k : Nat) :
    lastWrite? ws t k = none := by
  cases hw : lastWrite? ws t k with
  | none => rfl
  | some f =>
    obtain ⟨table, -, htable, -⟩ := h.admits _ (mem_of_lastWrite? hw)
    exact none_beyond ht htable

theorem Recorded.extend (hfunctions : Keeps s.functions s'.functions)
    (htables : Keeps s.tables s'.tables)
    (hnew : ∀ (t : TableId) table, s.tables.size ≤ t → s'.tables[t]? = some table → table = .create table.min table.max)
    (hnumbered : s.signatures <+: s'.signatures) : s'.Recorded ws where
  admits := by
    intro w hw
    obtain ⟨table, f, htable, hindex, hf⟩ := h.admits w hw
    exact ⟨table, f, htables _ _ htable, hindex, hfunctions _ _ hf⟩
  cells := by
    intro hfew t table ht k
    rw [h.bind_element?_eq hfunctions]
    by_cases hlt : t < s.tables.size
    · have hkept := htables t _ (Array.getElem?_eq_getElem hlt)
      cases ht.symm.trans hkept
      exact h.cells (Nat.lt_of_le_of_lt hnumbered.length_le hfew) t _ (Array.getElem?_eq_getElem hlt) k
    · rw [h.lastWrite?_eq_none (Nat.le_of_not_lt hlt), hnew t table (Nat.le_of_not_lt hlt) ht]
      exact Std.HashMap.getElem?_empty

theorem Recorded.writeAll (ht : s.Typed) (hvs : ∀ w ∈ vs, s.Admits w) :
    (s.writeAll vs).Recorded (ws ++ vs) := by
  have hwrites := writes_writeAll s vs
  obtain ⟨tables, htables⟩ := exists_writeAll_eq s vs
  refine ⟨forall_mem_append.mpr ⟨fun w hw => ?_, fun w hw => ?_⟩, ?_⟩
  · exact hwrites.admits_iff.mpr (h.admits w hw)
  · exact hwrites.admits_iff.mpr (hvs w hw)
  intro hfew t table' ht' k
  have hfew : s.signatures.length < Table.uninitialized := by rwa [htables] at hfew
  obtain ⟨table, htable, -⟩ := getElem?_of_map_eq hwrites.1.tables.symm ht'
  obtain ⟨_, htable', hcells⟩ := get?_writeAll hvs htable
  cases ht'.symm.trans htable'
  have helement : (s.writeAll vs).element? = s.element? := by
    funext f
    rw [element?, element?, hwrites.1.functions]
  rw [hcells, helement, lastWrite?_append]
  cases hlast : lastWrite? vs t k with
  | none => exact h.cells hfew t table htable k
  | some f =>
    -- the number of the signature of a function does not stand for an element that nothing was written to
    obtain ⟨-, g, -, -, hg⟩ := hvs _ (mem_of_lastWrite? hlast)
    have hnumber := (List.getElem?_eq_some_iff.mp (ht.functions f g hg).2).1
    simp [cell?, element?, hg, Nat.ne_of_lt (Nat.lt_trans hnumber hfew)]

end

theorem Typed.stays (h : s.Typed) (hs : s.Stays s') : s'.Typed where
  nodup := hs.numbered.2 h.nodup
  functions := by
    rw [hs.functions]
    intro k f hf
    obtain ⟨hvalue, hnumber⟩ := h.functions k f hf
    exact ⟨hvalue, getElem?_of_first hs.numbered.1 hnumber⟩

theorem Typed.grown (h : s₀.Typed) (hb : m.Built source limit seen) (hg : Grown s₀ m s) : s.Typed where
  nodup := hg.numbered.2 h.nodup
  functions := by
    intro k f hf
    by_cases hlt : k < s₀.functions.size
    · have hkept := hg.kept.functions k _ (Array.getElem?_eq_getElem hlt)
      cases hf.symm.trans hkept
      obtain ⟨hvalue, hnumber⟩ := h.functions k _ (Array.getElem?_eq_getElem hlt)
      exact ⟨hvalue, getElem?_of_first hg.numbered.1 hnumber⟩
    · obtain ⟨-, -, htype, hnumber⟩ := hg.newFunctions k f (Nat.le_of_not_lt hlt) hf
      exact ⟨(hb.signatures _ htype).1, hnumber⟩

/-- The offset of a segment of a new instance can be told before it is made. -/
theorem Complete.offset?_eq (h : Complete s₀ m name s x) (hb : m.Built source limit seen) (hs : s₀.Sound)
    {e : Option ConstExpr} (he : ∃ c, e = some c ∧ c.Initializes m.importedGlobalTypes .i32) :
    s.offset? x e = s₀.offset? x e := by
  obtain ⟨c, rfl, hinit⟩ := he
  obtain ⟨v, hv, hv'⟩ := evalConst_extends h.drafted.2.kept hs (sameImports_of_bound hb hs h.bound) hinit
  rw [Store.offset?_eq (bind_of_ok hv), Store.offset?_eq (bind_of_ok hv')]

theorem Complete.segmentWrites_eq (h : Complete s₀ m name s x) (hb : m.Built source limit seen) (hs : s₀.Sound)
    {e : ElementSegment} (he : e ∈ m.elements) : segmentWrites s x e = segmentWrites s₀ x e :=
  segmentWrites_congr (h.offset?_eq hb hs (hb.elements e he).2.2)

/-- What an instance has written to tables. It gets its code when everything has been checked, right before its
segments are written. -/
def instanceWrites (s : Store) (x : Instance) : List Write :=
  if x.code.isSome then x.module.elements.flatMap (segmentWrites s x) else []

/-- What the instances that are new since an earlier store have written to tables, each offset as it was in the
earlier store. -/
def written (s s' : Store) : List Write :=
  (s'.instances.toList.drop s.instances.size).flatMap (instanceWrites s)

/-- The store comes from an empty one by operations, in the course of which element segments wrote to tables. -/
inductive History : Store → List Write → Prop
  | empty (config : StoreConfig) : History { config } []
  | step {s s' : Store} {ws : List Write} (h : History s ws) (hs : Step s s') : History s' (ws ++ written s s')

theorem History.reachable (h : History s ws) : Reachable s := by
  induction h with
  | empty config => exact .empty config
  | step _ hs ih => exact ih.step hs

theorem instanceWrites_continues (s : Store) (h : x.Continues x') : instanceWrites s x' = instanceWrites s x := by
  have hsegment : segmentWrites s x' = segmentWrites s x := by
    funext e
    unfold segmentWrites functionWrites
    rw [h.functions, h.tables, h.globals]
  rw [instanceWrites, instanceWrites, h.isSome_code, h.module, hsegment]

theorem written_eq_nil (h : s'.instances.size = s.instances.size) : written s s' = [] := by
  rw [written, drop_eq_nil_of_le (Nat.le_of_eq (by rw [Array.length_toList, h])), flatMap_nil]

theorem written_eq (h : s'.instances.size = s.instances.size + 1)
    (hx : s'.instances[s.instances.size]? = some x) : written s s' = instanceWrites s x := by
  have hlt : s.instances.size < s'.instances.toList.length := by
    rw [Array.length_toList]
    omega
  have hget : s'.instances.toList[s.instances.size] = x := by
    rw [Array.getElem_toList]
    exact (Array.getElem?_eq_some_iff.mp hx).2
  rw [written, drop_eq_getElem_cons hlt, hget, drop_eq_nil_of_le (by rw [Array.length_toList]; omega)]
  exact append_nil _

theorem Stays.written_eq (h : s.Stays s') (hcount : s.instances.size = s₀.instances.size + 1)
    (hx : s.instances[s₀.instances.size]? = some x) : written s₀ s' = instanceWrites s₀ x := by
  obtain ⟨x', hx', hcontinues⟩ := h.instances _ x hx
  rw [Store.written_eq (h.count.trans hcount) hx', instanceWrites_continues s₀ hcontinues]

theorem Adds.recorded (h : Adds s m name key s') (hb : m.Built source limit seen) (hs : s.Sound) (ht : s.Typed)
    (hr : s.Recorded ws) : s'.Typed ∧ s'.Recorded (ws ++ written s s') := by
  cases h with
  | pending hx hp hstays =>
    have hg := hp.toGrown
    rw [hstays.written_eq hg.count hx, instanceWrites, hp.code, Option.isSome_none, if_neg Bool.false_ne_true,
      append_nil]
    refine ⟨(ht.grown hb hg).stays hstays, Recorded.stays ?_ hstays⟩
    exact hr.extend hg.kept.functions hg.kept.tables hg.newTables hg.numbered.1
  | @activated s₁ s₂ x₁ x₂ hc ha hstays =>
    have hg := hc.drafted.2.toGrown
    have ht₁ := ht.grown hb hg
    have hr₁ : s₁.Recorded ws := hr.extend hg.kept.functions hg.kept.tables hg.newTables hg.numbered.1
    obtain ⟨code, -, rfl⟩ := ha.linked
    obtain ⟨memories, hs₂⟩ := ha.result
    have hr₂ := hr₁.writeAll ht₁ ha.admits
    have hmodule := hc.drafted.2.module
    have hwritten : written s s' = x₁.module.elements.flatMap (segmentWrites s₁ x₁) := by
      have hcount : s₂.instances.size = s.instances.size + 1 := by rw [hs₂, Array.size_modify, hg.count]
      have hx₂ : s₂.instances[s.instances.size]? = some { x₁ with code := some code } := by
        rw [hs₂]
        exact hg.stored_put _
      rw [hstays.written_eq hcount hx₂]
      change x₁.module.elements.flatMap (segmentWrites s x₁) = _
      refine flatMap_congr fun e he => ?_
      exact (hc.segmentWrites_eq hb hs (hmodule ▸ he)).symm
    have ht₂ : s₂.Typed := by
      obtain ⟨tables, memories, hs₂⟩ := ha.eq_with
      rw [hs₂]
      exact { ht₁ with }
    rw [hwritten]
    refine ⟨ht₂.stays hstays, Recorded.stays ?_ hstays⟩
    rw [hs₂]
    exact { hr₂ with }

theorem Step.recorded (h : Step s s') (hs : s.Sound) (ht : s.Typed) (hr : s.Recorded ws) :
    s'.Typed ∧ s'.Recorded (ws ++ written s s') := by
  cases h.changes with
  | stays h =>
    rw [written_eq_nil h.count, append_nil]
    exact ⟨ht.stays h, hr.stays h⟩
  | @addTable min max h =>
    rw [written_eq_nil (by rw [h]), append_nil]
    subst h
    refine ⟨{ ht with }, hr.extend (.refl _) ((Keeps.refl _).push _) ?_ (prefix_refl _)⟩
    exact forall_push_of_le (fun _ _ => none_beyond) rfl
  | adds hb h => exact h.recorded hb hs ht hr

theorem History.recorded (h : History s ws) : s.Typed ∧ s.Recorded ws := by
  induction h with
  | empty config => exact ⟨⟨.nil, by simp⟩, .empty config⟩
  | step h hs ih => exact hs.recorded h.reachable.sound ih.1 ih.2

/-- An indirect call gets the function that was written last to an element, exactly if it has the signature that the
call expects. It traps beyond the end of a table and where nothing was written, and in another way where a function
of another signature was. -/
theorem History.lookup_typeId (h : History s ws) (hfew : s.signatures.length < Table.uninitialized)
    (sig : FuncType) : ∃ id s', typeId sig s = .ok (id, s') ∧ s'.tables = s.tables ∧
      ∀ (t : TableId) table, s.tables[t]? = some table → ∀ k,
        (∀ f, table.lookup k id = .ok f ↔
          k < table.size ∧ lastWrite? ws t k = some f ∧ ∃ g, s.functions[f]? = some g ∧ g.type = sig) ∧
        (table.lookup k id = .error .tableOutOfBounds ↔ table.size ≤ k ∨ lastWrite? ws t k = none) ∧
        (table.lookup k id = .error .signatureMismatch ↔
          k < table.size ∧ ∃ f g, lastWrite? ws t k = some f ∧ s.functions[f]? = some g ∧ g.type ≠ sig) ∧
        ∀ e, table.lookup k id = .error e → e = .tableOutOfBounds ∨ e = .signatureMismatch := by
  obtain ⟨htyped, hrecorded⟩ := h.recorded
  obtain ⟨id, signatures, hid, hiff⟩ := htyped.typeId_eq_iff sig
  refine ⟨id, _, hid, rfl, ?_⟩
  intro t table ht k
  have hcell := hrecorded.cells hfew t table ht k
  unfold Table.lookup
  rw [hcell]
  by_cases hsize : table.size ≤ k
  · simp [hsize, Nat.not_lt.mpr hsize]
  · have hlt := Nat.lt_of_not_le hsize
    cases hw : lastWrite? ws t k with
    | none => simp [hsize]
    | some f =>
      obtain ⟨-, g, -, -, hg⟩ := hrecorded.admits _ (mem_of_lastWrite? hw)
      by_cases hsig : g.type = sig
      · simp [hsize, hlt, element?, hg, (hiff f g hg).mpr hsig, hsig]
      · simp [hsize, hlt, element?, hg, mt (hiff f g hg).mp hsig, hsig]

section

open ProtoWasm.Module

theorem history_hosted : History hosted [] := by
  have hmemory : History { memories := hosted.memories } [] :=
    (History.empty {}).step (@Step.addMemory _ 1 2 false _ rfl)
  have hglobal : History { hosted with names := {} } [] :=
    hmemory.step (@Step.addGlobal _ ⟨.i32, false⟩ 0 0 _ rfl rfl)
  have hlog := hglobal.step (.register "env" "log" (v := .host logging) trivial)
  have hbase := hlog.step (.register "env" "base" (v := .global 0) Nat.zero_lt_one)
  exact hbase.step (.register "env" "memory" (v := .memory (some 0)) Nat.zero_lt_one)

def launchRecorded (s : Store) : Option (List Write × Store) := do
  let m ← (decodeUnder launching 0 (some .all)).toOption
  let (_, s₁) ← (Store.compile 0 m false s).toOption
  let (_, s₂) ← (instantiate 0 m "main" true false s₁).toOption
  return (written s s₁ ++ written s₁ s₂, s₂)

theorem History.launchRecorded (h : History s ws) (hr : launchRecorded s = some (vs, s')) :
    History s' (ws ++ vs) := by
  obtain ⟨m, hm, hr⟩ := Option.bind_eq_some_iff.mp hr
  obtain ⟨⟨r₁, s₁⟩, h₁, hr⟩ := Option.bind_eq_some_iff.mp hr
  obtain ⟨⟨r₂, s₂⟩, h₂, hr⟩ := Option.bind_eq_some_iff.mp hr
  cases hr
  rw [← append_assoc]
  exact (h.step (.compile (toOption_eq_some.mp h₁))).step
    (.instantiate (toOption_eq_some.mp hm) (toOption_eq_some.mp h₂))

/-- The module writes its own function, which has no parameters, and the one that it imports, which has one. -/
theorem lookup_typeId_launching :
    ∃ s table id s', History s [⟨0, 0, 1⟩, ⟨0, 1, 0⟩] ∧ s.signatures.length < Table.uninitialized ∧
      s.tables[0]? = some table ∧ typeId ⟨[], []⟩ s = .ok (id, s') ∧ table.lookup 0 id = .ok 1 ∧
      table.lookup 1 id = .error .signatureMismatch ∧ table.lookup 2 id = .error .tableOutOfBounds := by
  have hlaunch : (launchRecorded hosted).map (fun r => (r.1, r.2.signatures.length, r.2.tables.map Table.size,
      r.2.functions.map FunctionInstance.type)) =
      some ([⟨0, 0, 1⟩, ⟨0, 1, 0⟩], 2, #[2], #[⟨[.i32], [.i32]⟩, ⟨[], []⟩]) := by decide +kernel
  obtain ⟨⟨ws, s⟩, hr, hfacts⟩ := Option.map_eq_some_iff.mp hlaunch
  simp only [Prod.mk.injEq] at hfacts
  obtain ⟨rfl, hsignatures, htables, hfunctions⟩ := hfacts
  have hget : ∀ {α β : Type} {f : α → β} {xs : Array α} {ys : Array β} (k : Nat) (b : β), xs.map f = ys →
      ys[k]? = some b → ∃ a, xs[k]? = some a ∧ f a = b := by
    rintro α β f xs _ k b rfl hb
    rw [Array.getElem?_map] at hb
    exact Option.map_eq_some_iff.mp hb
  obtain ⟨table, htable, hsize⟩ := hget 0 2 htables rfl
  obtain ⟨log, hlog, hlogType⟩ := hget 0 ⟨[.i32], [.i32]⟩ hfunctions rfl
  obtain ⟨main, hmain, hmainType⟩ := hget 1 ⟨[], []⟩ hfunctions rfl
  have hhistory := history_hosted.launchRecorded hr
  have hfew : s.signatures.length < Table.uninitialized := by
    rw [hsignatures]
    decide
  obtain ⟨id, s', hid, -, hlookup⟩ := hhistory.lookup_typeId hfew ⟨[], []⟩
  refine ⟨s, table, id, s', hhistory, hfew, htable, hid, ?_, ?_, ?_⟩
  · rw [(hlookup 0 table htable 0).1]
    exact ⟨by omega, by decide, main, hmain, hmainType⟩
  · rw [(hlookup 0 table htable 1).2.2.1]
    exact ⟨by omega, 0, log, by decide, hlog, by simp [hlogType]⟩
  · rw [(hlookup 0 table htable 2).2.1]
    exact .inl (by omega)

end

end Store

end ProtoWasm
