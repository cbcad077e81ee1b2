import ProtoWasm.Proofs.Store.Definition

/-! # Segments of an instance

Segments are checked before any of them is written, and what is checked still holds when they are written: in
between, and while segments are written, no global changes and nothing gets smaller.
-/
namespace ProtoWasm.Store

open List StoreM

variable {safe : Prop} {s s' s₀ : Store} {m : Module} {name : String} {x : Instance} {source : List UInt8}
  {limit k : Nat} {seen : List Section} {e : Option ConstExpr} {t : TableId} {w : Write}
  {ms ms' ms'' : Array (Memory InstanceId)} {mem : Memory InstanceId} {b : Buffer} {offset : Int} {d : DataSegment}

def DataFits (s : Store) (x : Instance) (d : DataSegment) : Prop :=
  ∃ offset id mem, evalOffset x.globals d.offset s = .ok (offset, s) ∧ x.memory = some id ∧
    s.memories[id]? = some mem ∧ outOfBounds offset d.init.length mem.size = false

def ElementFits (s : Store) (x : Instance) (e : ElementSegment) : Prop :=
  ∃ offset id table, evalOffset x.globals e.offset s = .ok (offset, s) ∧ x.tables[e.table]? = some (some id) ∧
    s.tables[id]? = some table ∧ outOfBounds offset e.init.length table.size = false

def offset? (s : Store) (x : Instance) (e : Option ConstExpr) : Option Int :=
  (evalOffset x.globals e s).toOption.map Prod.fst

/-- What is wrong with a data segment that starts before the memory or ends after it. -/
def dataFault? (s : Store) (x : Instance) (d : DataSegment × Nat) : Option Error := do
  let offset ← s.offset? x d.1.offset
  let mem ← s.memories[(← x.memory)]?
  if offset < 0 ∨ (mem.size : Int) < offset + d.1.init.length then
    some (.instantiation x.name s!"data[{d.2}]" (.because (.dataBounds offset d.1.init.length mem.size)))
  else none

/-- What is wrong with an element segment that starts before its table or ends after it. -/
def elementFault? (s : Store) (x : Instance) (e : ElementSegment × Nat) : Option Error := do
  let offset ← s.offset? x e.1.offset
  let table ← s.tables[(← x.tables[e.1.table]?.join)]?
  if offset < 0 ∨ (table.size : Int) < offset + e.1.init.length then
    some (.instantiation x.name s!"element[{e.2}]" (.because (.elementBounds offset e.1.init.length table.size)))
  else none

/-- What is wrong with the first segment that does not fit. Data come before elements. -/
def segmentFault? (s : Store) (x : Instance) : Option Error :=
  (x.module.data.zipIdx.findSome? (s.dataFault? x)).or (x.module.elements.zipIdx.findSome? (s.elementFault? x))

theorem offset?_eq (h : evalOffset x.globals e s = .ok (offset, s)) : s.offset? x e = some offset := by
  rw [offset?, h]
  rfl

theorem offset?_congr (hglobals : s'.globals = s.globals) (hstorages : s'.storages = s.storages)
    (e : Option ConstExpr) : s'.offset? x e = s.offset? x e := by
  unfold offset?
  rcases observes_evalOffset x.globals e s s' hglobals hstorages with ⟨v, hv, hv'⟩ | ⟨d, hd, hd'⟩
  · rw [hv, hv']
    rfl
  · rw [hd, hd']

theorem evalOffset_ok (hs : s.Sound) (hx : s.Conforms m x)
    (he : ∃ c, e = some c ∧ c.Initializes m.importedGlobalTypes .i32) :
    ∃ v, evalOffset x.globals e s = .ok (v, s) := by
  obtain ⟨c, rfl, hc⟩ := he
  obtain ⟨v, hv, -⟩ := evalConst_extends (.refl s) hs (sameImports_of_fitsAt fun k _ => hx .global k) hc
  refine (observes_evalOffset _ _).eq_ok (Does.bind ?_)
  exact (observes_evalConst _ _).does (fun _ => ⟨v, hv⟩) fun _ _ => trivial

section

variable (hx : s.Conforms m x)
include hx

theorem Conforms.later (h : s.Later s') : s'.Conforms m x :=
  fun kind k => (hx kind k).later h rfl

theorem Conforms.function {f : Function} (hf : m.functions[k]? = some f) :
    ∃ id g, x.functions[k]? = some (some id) ∧ s.functions[id]? = some g ∧
      m.signatures[f.typeIndex]? = some g.type := by
  have hdecl : m.declaration? .func k = some (.func f.typeIndex) := congrArg (Option.map _) hf
  obtain ⟨id, hid, g, hg, htype⟩ := hx .func k _ hdecl
  exact ⟨id, g, Option.join_eq_some_iff.mp hid, hg, htype⟩

theorem Conforms.imported (hb : m.Built source limit seen) :
    ∀ j < m.importedFunctions, ∃ id g, x.functions[j]? = some (some id) ∧ s.functions[id]? = some g := by
  intro j hj
  have hlt : j < m.functions.length := Nat.lt_of_lt_of_le hj hb.functionCount
  obtain ⟨id, g, hid, hg, -⟩ := hx.function (getElem?_eq_getElem hlt)
  exact ⟨id, g, hid, hg⟩

theorem Conforms.global {g : Global} (hg : m.globals[k]? = some g) :
    ∃ id v, x.globals[k]? = some (some id) ∧ s.globals[id]? = some v ∧ v.type = g.type := by
  have hdecl : m.declaration? .global k = some (.global g.type) := congrArg (Option.map _) hg
  obtain ⟨id, hid, v, hv, htype⟩ := hx .global k _ hdecl
  exact ⟨id, v, Option.join_eq_some_iff.mp hid, hv, htype⟩

theorem Conforms.table {t : TableType} (ht : m.tables[k]? = some t) :
    ∃ id table, x.tables[k]? = some (some id) ∧ s.tables[id]? = some table ∧
      t.min ≤ table.size ∧ table.max ≤ t.max := by
  have hdecl : m.declaration? .table k = some (.table t) := congrArg (Option.map _) ht
  obtain ⟨id, hid, table, htable, hfits⟩ := hx .table k _ hdecl
  exact ⟨id, table, Option.join_eq_some_iff.mp hid, htable, hfits⟩

theorem Conforms.memory {t : MemoryType} (ht : m.memory = some t) :
    ∃ id mem, x.memory = some id ∧ s.memories[id]? = some mem ∧ t.min ≤ mem.pages ∧ mem.max ≤ t.max := by
  have hdecl : m.declaration? .memory 0 = some (.memory t) := congrArg (Option.map _) ht
  obtain ⟨id, hid, mem, hmem, hfits⟩ := hx .memory 0 _ hdecl
  exact ⟨id, mem, hid, hmem, hfits⟩

end

theorem dataStage_ne (n : Nat) : s!"data[{n}]" ≠ "start" := by
  intro h
  have hlist := congrArg String.toList h
  simp only [String.toList_append] at hlist
  cases hlist

theorem elementStage_ne (n : Nat) : s!"element[{n}]" ≠ "start" := by
  intro h
  have hlist := congrArg String.toList h
  simp only [String.toList_append] at hlist
  cases hlist

theorem tries_checkData (hb : m.Built source limit seen) (hsafe : safe → s.Sound) (hname : x.name = name)
    (hx : s.Conforms m x) {data : List (DataSegment × Nat)} (hin : ∀ d ∈ data, d.1 ∈ m.data) :
    Tries safe (checkData x data) s
      (fun _ s' => s' = s ∧ (∀ d ∈ data, s.DataFits x d.1) ∧ data.findSome? (s.dataFault? x) = none)
      fun e s' => Declined name e ∧ s' = s ∧ data.findSome? (s.dataFault? x) = some e := by
  subst hname
  induction data with
  | nil => exact tries_pure ⟨rfl, by simp⟩
  | cons d rest ih =>
    obtain ⟨d, n⟩ := d
    obtain ⟨hd, hrest⟩ := forall_mem_cons.mp hin
    obtain ⟨hmemory, hoffset⟩ := hb.data d hd
    obtain ⟨t, ht⟩ := Option.isSome_iff_exists.mp hmemory
    obtain ⟨id, mem, hid, hmem, -⟩ := hx.memory ht
    refine Tries.after ((observes_evalOffset _ _).does (fun hs => evalOffset_ok (hsafe hs) hx hoffset) ?_)
    intro offset heval
    have hfault : s.dataFault? x (d, n) =
        if outOfBounds offset d.init.length mem.size then
          some (.instantiation x.name s!"data[{n}]" (.because (.dataBounds offset d.init.length mem.size)))
        else none := by
      simp [dataFault?, offset?_eq heval, hid, hmem, outOfBounds]
    rw [hid, findSome?_cons, hfault]
    refine Tries.after (does_getMemory (fun _ => ⟨mem, hmem⟩) (forall_of_eq_some hmem ?_))
    refine Tries.bind (tries_pure ?_)
    dsimp only
    split
    · exact tries_throw ⟨⟨_, _, rfl, dataStage_ne n, _, rfl, by simp⟩, rfl, rfl⟩
    · rename_i hbounds
      refine (ih hrest).imp ?_ fun _ _ h => h
      rintro - s' ⟨hs', hall, hnone⟩
      refine ⟨hs', forall_mem_cons.mpr ⟨?_, hall⟩, hnone⟩
      exact ⟨offset, id, mem, heval, hid, hmem, Bool.eq_false_iff.mpr hbounds⟩

theorem tries_checkElements (hb : m.Built source limit seen) (hsafe : safe → s.Sound) (hname : x.name = name)
    (hx : s.Conforms m x) {elements : List (ElementSegment × Nat)} (hin : ∀ e ∈ elements, e.1 ∈ m.elements) :
    Tries safe (checkElements x elements) s
      (fun _ s' => s' = s ∧ (∀ e ∈ elements, s.ElementFits x e.1) ∧ elements.findSome? (s.elementFault? x) = none)
      fun e s' => Declined name e ∧ s' = s ∧ elements.findSome? (s.elementFault? x) = some e := by
  subst hname
  induction elements with
  | nil => exact tries_pure ⟨rfl, by simp⟩
  | cons e rest ih =>
    obtain ⟨e, n⟩ := e
    obtain ⟨he, hrest⟩ := forall_mem_cons.mp hin
    obtain ⟨htable, -, hoffset⟩ := hb.elements e he
    obtain ⟨id, table, hid, htable, -⟩ := hx.table (getElem?_eq_getElem htable)
    refine Tries.after ((observes_evalOffset _ _).does (fun hs => evalOffset_ok (hsafe hs) hx hoffset) ?_)
    intro offset heval
    have hfault : s.elementFault? x (e, n) = if outOfBounds offset e.init.length table.size then
        some (.instantiation x.name s!"element[{n}]"
          (.because (.elementBounds offset e.init.length table.size))) else none := by
      simp [elementFault?, offset?_eq heval, hid, htable, outOfBounds]
    rw [findSome?_cons, hfault]
    refine Tries.after (does_entry_some hid ?_)
    refine Tries.after (does_getTable (fun _ => ⟨table, htable⟩) (forall_of_eq_some htable ?_))
    dsimp only
    split
    · exact tries_throw ⟨⟨_, _, rfl, elementStage_ne n, _, rfl, by simp⟩, rfl, rfl⟩
    · rename_i hbounds
      refine (ih hrest).imp ?_ fun _ _ h => h
      rintro - s' ⟨hs', hall, hnone⟩
      refine ⟨hs', forall_mem_cons.mpr ⟨?_, hall⟩, hnone⟩
      exact ⟨offset, id, table, heval, hid, htable, Bool.eq_false_iff.mpr hbounds⟩

/-- Nothing has become smaller, and the globals are as before. -/
structure Retains (s s' : Store) : Prop where
  later : s.Later s'
  globals : s'.globals = s.globals
  storages : s'.storages = s.storages

theorem Retains.evalOffset (h : s.Retains s') {globals : List (Option GlobalId)} {v : Int}
    (hv : evalOffset globals e s = .ok (v, s)) : evalOffset globals e s' = .ok (v, s') := by
  rcases observes_evalOffset globals e s s' h.globals h.storages with ⟨w, hw, hw'⟩ | ⟨d, hd, -⟩
  · cases hv.symm.trans hw
    exact hw'
  · cases hv.symm.trans hd

theorem DataFits.retains (hd : s.DataFits x d) (h : s.Retains s') : s'.DataFits x d := by
  obtain ⟨offset, id, mem, heval, hid, hmem, hbounds⟩ := hd
  obtain ⟨mem', hmem', hsize, -⟩ := h.later.memories id mem hmem
  refine ⟨offset, id, mem', h.evalOffset heval, hid, hmem', ?_⟩
  simp only [outOfBounds, Bool.or_eq_false_iff, decide_eq_false_iff_not] at hbounds ⊢
  omega

theorem ElementFits.retains {e : ElementSegment} (he : s.ElementFits x e) (h : s.Retains s') :
    s'.ElementFits x e := by
  obtain ⟨offset, id, table, heval, hid, htable, hbounds⟩ := he
  obtain ⟨table', htable', hsize, -⟩ := h.later.tables id table htable
  exact ⟨offset, id, table', h.evalOffset heval, hid, htable', hsize ▸ hbounds⟩

def Writes (s s' : Store) : Prop := s.Lives s' ∧ s'.storages = s.storages

theorem Writes.refl (s : Store) : s.Writes s := ⟨.refl s, rfl⟩

theorem Writes.trans {s'' : Store} (h : s.Writes s') (h' : s'.Writes s'') : s.Writes s'' :=
  ⟨h.1.trans h'.1, h'.2.trans h.2⟩

theorem Writes.retains (h : s.Writes s') : s.Retains s' := ⟨h.1.later, h.1.globals, h.2⟩

theorem Lives.setElement (s : Store) (t : TableId) (k : Nat) (e : Element FunctionId) :
    s.Lives { s with tables := s.tables.modify t fun table => table.set k e } :=
  { Lives.refl s with
    tables := by
      apply Array.ext_getElem?
      intro j
      rw [Array.getElem?_map, Array.getElem?_map, Array.getElem?_modify]
      split
      · cases s.tables[j]? with
        | none => rfl
        | some table => rfl
      · rfl }

structure Write where
  table : TableId
  index : Nat
  function : FunctionId
deriving DecidableEq, Repr

def Admits (s : Store) (w : Write) : Prop :=
  ∃ table f, s.tables[w.table]? = some table ∧ w.index < table.size ∧ s.functions[w.function]? = some f

def write (s : Store) (w : Write) : Store :=
  match s.functions[w.function]? with
  | none => s
  | some f =>
    { s with tables := s.tables.modify w.table fun table => table.set w.index ⟨f.typeId, w.function⟩ }

def writeAll (s : Store) (ws : List Write) : Store := ws.foldl write s

theorem writeAll_cons (s : Store) (w : Write) (ws : List Write) :
    s.writeAll (w :: ws) = (s.write w).writeAll ws := rfl

theorem writeAll_append (s : Store) (ws vs : List Write) : s.writeAll (ws ++ vs) = (s.writeAll ws).writeAll vs :=
  foldl_append

theorem write_some {f : FunctionInstance} (hf : s.functions[w.function]? = some f) : s.write w =
      { s with tables := s.tables.modify w.table fun table => table.set w.index ⟨f.typeId, w.function⟩ } := by
  rw [write, hf]

theorem exists_writeAll_eq (s : Store) (ws : List Write) : ∃ tables, s.writeAll ws = { s with tables } := by
  induction ws generalizing s with
  | nil => exact ⟨s.tables, rfl⟩
  | cons w ws ih =>
    obtain ⟨tables, htables⟩ := ih (s.write w)
    refine ⟨tables, ?_⟩
    rw [writeAll_cons, htables, write]
    split <;> rfl

theorem writes_write (s : Store) (w : Write) : s.Writes (s.write w) := by
  unfold write
  split
  · exact .refl s
  · exact ⟨.setElement s _ _ _, rfl⟩

theorem writes_writeAll (s : Store) (ws : List Write) : s.Writes (s.writeAll ws) := by
  induction ws generalizing s with
  | nil => exact .refl s
  | cons w ws ih => exact (writes_write s w).trans (ih (s.write w))

theorem Writes.admits_iff (h : s.Writes s') : s'.Admits w ↔ s.Admits w := by
  unfold Admits
  rw [h.1.functions]
  constructor
  · rintro ⟨table', f, htable', hindex, hf⟩
    obtain ⟨table, htable, hshape⟩ := getElem?_of_map_eq h.1.tables.symm htable'
    simp only [tableShape, Prod.mk.injEq] at hshape
    exact ⟨table, f, htable, hshape.1 ▸ hindex, hf⟩
  · rintro ⟨table, f, htable, hindex, hf⟩
    obtain ⟨table', htable', hshape⟩ := getElem?_of_map_eq h.1.tables htable
    simp only [tableShape, Prod.mk.injEq] at hshape
    exact ⟨table', f, htable', hshape.1 ▸ hindex, hf⟩

/-- Where the functions of an instance are written, from an index of a table on. -/
def functionWrites (x : Instance) (t : TableId) (k : Int) (functions : List Nat) : List Write :=
  (functions.mapIdx fun n j => x.functions[j]?.join.map fun f => ⟨t, (k + n).toNat, f⟩).filterMap id

theorem functionWrites_cons {j : Nat} {f : FunctionId} (hf : x.functions[j]? = some (some f)) (t : TableId) (k : Int)
    (functions : List Nat) :
    functionWrites x t k (j :: functions) = ⟨t, k.toNat, f⟩ :: functionWrites x t (k + 1) functions := by
  have hshift : ∀ n : Nat, k + ((n + 1 : Nat) : Int) = k + 1 + n := by omega
  simp only [functionWrites, mapIdx_cons, hf, hshift]
  simp

/-- What an element segment of an instance writes, with its offset as it is in the store. -/
def segmentWrites (s : Store) (x : Instance) (e : ElementSegment) : List Write :=
  match evalOffset x.globals e.offset s, x.tables[e.table]?.join with
  | .ok (offset, _), some t => functionWrites x t offset e.init
  | _, _ => []

theorem segmentWrites_eq {e : ElementSegment}
    (hoffset : evalOffset x.globals e.offset s = .ok (offset, s)) (ht : x.tables[e.table]? = some (some t)) :
    segmentWrites s x e = functionWrites x t offset e.init := by
  rw [segmentWrites, hoffset, ht]
  rfl

theorem segmentWrites_congr {e : ElementSegment} (h : s'.offset? x e.offset = s.offset? x e.offset) :
    segmentWrites s' x e = segmentWrites s x e := by
  have hoffset (s : Store) : segmentWrites s x e = ((s.offset? x e.offset).elim []
      fun k => x.tables[e.table]?.join.elim [] fun t => functionWrites x t k e.init) := by
    unfold segmentWrites offset?
    cases evalOffset x.globals e.offset s <;> cases x.tables[e.table]?.join <;> rfl
  rw [hoffset, hoffset, h]

theorem does_writeFunctions (hx : s.Conforms m x) {k : Int} {functions : List Nat}
    (hin : ∀ j ∈ functions, j < m.functions.length) {table : Table FunctionId} (ht : s.tables[t]? = some table)
    (hbounds : safe → 0 ≤ k ∧ k + functions.length ≤ table.size) :
    Does safe (writeFunctions x t k functions) s fun _ s' =>
      s' = s.writeAll (functionWrites x t k functions) ∧ ∀ w ∈ functionWrites x t k functions, s.Admits w := by
  induction functions generalizing s k table with
  | nil => exact does_pure ⟨rfl, by simp [functionWrites]⟩
  | cons j rest ih =>
    obtain ⟨hj, hrest⟩ := forall_mem_cons.mp hin
    obtain ⟨id, f, hid, hf, -⟩ := hx.function (getElem?_eq_getElem hj)
    refine Does.bind (does_entry_some hid ?_)
    refine Does.bind (does_getFunction (fun _ => ⟨f, hf⟩) (forall_of_eq_some hf ?_))
    refine Does.bind (does_getTable (fun _ => ⟨table, ht⟩) (forall_of_eq_some ht ?_))
    dsimp only
    split
    · refine does_defect fun hs => ?_
      have := hbounds hs
      rw [length_cons] at this
      omega
    · rename_i hindex
      refine Does.bind (does_modify ?_)
      rw [← write_some (w := ⟨t, k.toNat, id⟩) hf, functionWrites_cons hid, writeAll_cons, forall_mem_cons]
      have hwrites := writes_write s ⟨t, k.toNat, id⟩
      obtain ⟨table', htable', hsize, -⟩ := hwrites.1.later.tables t table ht
      refine (ih (hx.later hwrites.1.later) hrest htable' fun hs => ?_).imp ?_
      · have := hbounds hs
        rw [length_cons] at this
        omega
      · rintro - _ ⟨rfl, hall⟩
        refine ⟨rfl, ⟨table, f, ht, ?_, hf⟩, fun w hw => hwrites.admits_iff.mp (hall w hw)⟩
        dsimp only
        omega

theorem does_writeElements (hb : m.Built source limit seen) (hx : s.Conforms m x)
    {elements : List ElementSegment} (hin : ∀ e ∈ elements, e ∈ m.elements)
    (hfits : ∀ e ∈ elements, s.ElementFits x e) : Does safe (writeElements x elements) s fun _ s' =>
      s' = s.writeAll (elements.flatMap (segmentWrites s x)) ∧
        ∀ w ∈ elements.flatMap (segmentWrites s x), s.Admits w := by
  induction elements generalizing s with
  | nil => exact does_pure ⟨rfl, by simp⟩
  | cons e rest ih =>
    obtain ⟨he, hrest⟩ := forall_mem_cons.mp hin
    obtain ⟨⟨offset, id, table, heval, hid, htable, hbounds⟩, hfits⟩ := forall_mem_cons.mp hfits
    refine Does.bind ((observes_evalOffset _ _).does (fun _ => ⟨offset, heval⟩) ?_)
    intro offset' heval'
    cases heval.symm.trans heval'
    refine Does.bind (does_entry_some hid ?_)
    simp only [outOfBounds, Bool.or_eq_false_iff, decide_eq_false_iff_not] at hbounds
    refine Does.bind ((does_writeFunctions hx (hb.elements e he).2.1 htable fun _ => by omega).imp ?_)
    rintro - _ ⟨rfl, hadmits⟩
    rw [← segmentWrites_eq heval hid] at hadmits ⊢
    have hwrites := writes_writeAll s (segmentWrites s x e)
    have hsame : segmentWrites (s.writeAll (segmentWrites s x e)) x = segmentWrites s x :=
      funext fun e => segmentWrites_congr (offset?_congr hwrites.1.globals hwrites.2 e.offset)
    refine (ih (hx.later hwrites.1.later) hrest fun e he => ?_).imp ?_
    · exact (hfits e he).retains hwrites.retains
    · rintro - _ ⟨rfl, hall⟩
      rw [hsame] at hall ⊢
      rw [flatMap_cons, writeAll_append]
      exact ⟨rfl, forall_mem_append.mpr ⟨hadmits, fun w hw => hwrites.admits_iff.mp (hall w hw)⟩⟩

/-- Where a memory is, how long it is, who depends on it, and how far it may grow. -/
def frame (k : MemoryId) (mem : Memory InstanceId) : Extent × List InstanceId × Nat :=
  (mem.extent k, mem.dependents, mem.max)

/-- Memories are where they were, are as long, and have the same dependents and maximum. -/
def SameFrames (ms ms' : Array (Memory InstanceId)) : Prop :=
  ∀ k : MemoryId, ms'[k]?.map (frame k) = ms[k]?.map (frame k)

theorem SameFrames.refl (ms : Array (Memory InstanceId)) : SameFrames ms ms := fun _ => rfl

theorem SameFrames.symm (h : SameFrames ms ms') : SameFrames ms' ms := fun k => (h k).symm

theorem SameFrames.trans (h : SameFrames ms ms') (h' : SameFrames ms' ms'') : SameFrames ms ms'' :=
  fun k => (h' k).trans (h k)

theorem SameFrames.exists (h : SameFrames ms ms') {k : MemoryId} (hmem : ms[k]? = some mem) :
    ∃ mem', ms'[k]? = some mem' ∧ mem'.extent k = mem.extent k ∧ mem'.dependents = mem.dependents ∧
      mem'.max = mem.max := by
  have hk := h k
  rw [hmem] at hk
  obtain ⟨mem', hmem', hframe⟩ := Option.map_eq_some_iff.mp hk
  simp only [frame, Prod.mk.injEq] at hframe
  exact ⟨mem', hmem', hframe⟩

theorem extent_setBuffer (mem : Memory InstanceId) (hb : b.size = mem.size) (k : MemoryId) :
    (mem.setBuffer b).extent k = mem.extent k := by
  unfold Memory.extent
  rw [Memory.size_setBuffer, hb]
  unfold Memory.size Memory.buffer at hb
  unfold Memory.setBuffer
  cases hbacking : mem.backing with
  | block b' =>
    rw [hbacking] at hb
    simp only [hb]
  | reserved r => rfl

theorem sameFrames_write {id : MemoryId} (hmem : ms[id]? = some mem) (hb : b.size = mem.size) :
    SameFrames ms (ms.setIfInBounds id (mem.setBuffer b)) := by
  intro k
  by_cases hk : id = k
  · subst hk
    rw [getElem?_put hmem, hmem]
    exact congrArg some (Prod.ext (extent_setBuffer mem hb id) rfl)
  · rw [Array.getElem?_setIfInBounds_ne hk]

/-- The byte that a data segment at an offset has for an address. -/
def byteAt? (d : DataSegment) (offset : Int) (a : Nat) : Option UInt8 :=
  if offset ≤ a then d.init[(a - offset).toNat]? else none

/-- The byte of the last data segment that has one for an address. -/
def lastByte? (s : Store) (x : Instance) (data : List DataSegment) (a : Nat) : Option UInt8 :=
  data.reverse.findSome? fun d => (s.offset? x d.offset).bind (byteAt? d · a)

theorem lastByte?_cons (s : Store) (x : Instance) (d : DataSegment) (data : List DataSegment) (a : Nat) :
    s.lastByte? x (d :: data) a = (s.lastByte? x data a).or ((s.offset? x d.offset).bind (byteAt? d · a)) := by
  rw [lastByte?, reverse_cons, findSome?_append, findSome?_singleton]
  rfl

theorem lastByte?_congr (hglobals : s'.globals = s.globals) (hstorages : s'.storages = s.storages)
    (data : List DataSegment) : s'.lastByte? x data = s.lastByte? x data := by
  funext a
  unfold lastByte?
  simp only [offset?_congr hglobals hstorages]

def Overwrites (byte? : Nat → Option UInt8) (id : MemoryId) (ms ms' : Array (Memory InstanceId)) : Prop :=
  ∀ mem, ms[id]? = some mem →
    ∃ mem', ms'[id]? = some mem' ∧ ∀ a, mem'.buffer.get a = (byte? a).getD (mem.buffer.get a)

theorem get_write_segment (hbounds : outOfBounds offset d.init.length mem.size = false)
    (a : Nat) : (mem.buffer.write offset.toNat d.init).get a = (byteAt? d offset a).getD (mem.buffer.get a) := by
  simp only [outOfBounds, Bool.or_eq_false_iff, decide_eq_false_iff_not] at hbounds
  have hroom : offset.toNat + d.init.length ≤ mem.buffer.size := by
    unfold Memory.size at hbounds
    omega
  have hindex : (a - offset).toNat = a - offset.toNat := by omega
  rw [Buffer.get_write hroom, byteAt?, hindex]
  by_cases ha : offset ≤ a
  · rw [if_pos ha, if_pos (by omega)]
  · rw [if_neg ha, if_neg (by omega)]
    rfl

theorem does_writeData {data : List DataSegment} (hfits : ∀ d ∈ data, s.DataFits x d) :
    Does safe (writeData x data) s fun _ s' =>
      s.Writes s' ∧ ∃ memories, s' = { s with memories } ∧ SameFrames s.memories memories ∧
        ∀ id, x.memory = some id → Overwrites (s.lastByte? x data) id s.memories memories := by
  induction data generalizing s with
  | nil => exact does_pure ⟨.refl s, s.memories, rfl, .refl _, fun id _ mem hmem => ⟨mem, hmem, fun _ => rfl⟩⟩
  | cons d rest ih =>
    obtain ⟨⟨offset, id, mem, heval, hid, hmem, hbounds⟩, hfits⟩ := forall_mem_cons.mp hfits
    refine Does.bind ((observes_evalOffset _ _).does (fun _ => ⟨offset, heval⟩) ?_)
    intro offset' heval'
    cases heval.symm.trans heval'
    refine Does.bind (does_expect (fun _ => ⟨id, hid⟩) (forall_of_eq_some hid ?_))
    refine Does.bind (does_getMemory (fun _ => ⟨mem, hmem⟩) (forall_of_eq_some hmem ?_))
    have hget := get_write_segment hbounds
    simp only [outOfBounds, Bool.or_eq_false_iff, decide_eq_false_iff_not] at hbounds
    rw [if_neg (by omega)]
    refine Does.bind (does_modify ?_)
    have hwritten : (mem.buffer.write offset.toNat d.init).size = mem.size := Buffer.size_write _ _ _
    have hsize : mem.size ≤ (mem.setBuffer (mem.buffer.write offset.toNat d.init)).size :=
      Nat.le_of_eq (by rw [Memory.size_setBuffer, hwritten])
    have hwrites : s.Writes _ := ⟨Lives.setMemory hmem (memoryShape_setBuffer mem _) hsize, rfl⟩
    refine (ih fun d hd => (hfits d hd).retains hwrites.retains).imp ?_
    rintro - _ ⟨h, memories, rfl, hframes, hover⟩
    refine ⟨hwrites.trans h, memories, rfl, (sameFrames_write hmem hwritten).trans hframes, ?_⟩
    intro id' hid' mem' hmem'
    cases hid.symm.trans hid'
    cases hmem.symm.trans hmem'
    obtain ⟨mem', hmem', hbytes⟩ := hover id hid _
      (getElem?_put hmem)
    refine ⟨mem', hmem', fun a => ?_⟩
    rw [hbytes, lastByte?_congr hwrites.1.globals hwrites.2, Memory.buffer_setBuffer, hget, lastByte?_cons,
      Option.getD_or, offset?_eq heval]
    rfl

end ProtoWasm.Store
