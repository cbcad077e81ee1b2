import ProtoWasm.Proofs.Memory.Bytes
import ProtoWasm.Proofs.Store.Draft

/-! # Imports are bound one after the other -/
namespace ProtoWasm

open List

namespace Store

open StoreM

variable {α : Type} {safe : Prop} {s s' s₀ : Store} {m : Module} {name : String} {x x' : Instance}
  {source : List UInt8} {limit : Nat} {seen : List Section} {v : Extern} {i : Import} {Q : α → Store → Prop}
  {I : Store → Prop}

/-- The cause of a failure that is no sign of a defect. -/
def Unfit (e : Error) : Prop := ∃ r, e = .because r ∧ ∀ n, r ≠ .importUnbound n

/-- The instantiation failed at a stage before the start function, and not for a defect. -/
def Declined (name : String) (e : Error) : Prop :=
  ∃ stage cause, e = .instantiation name stage cause ∧ stage ≠ "start" ∧ Unfit cause

theorem tries_failStage {stage : String} {e : Error} (hstage : stage ≠ "start") (he : Unfit e) (hs : I s) :
    Tries safe (failStage name stage e : Action α) s Q fun e s' => Declined name e ∧ I s' :=
  tries_throw ⟨⟨stage, e, rfl, hstage, he⟩, hs⟩

theorem tries_stage {st : String} {a : Action α}
    (hstage : st ≠ "start") (h : Tries safe a s Q fun e s' => Unfit e ∧ I s') :
    Tries safe (stage name st a) s Q fun e s' => Declined name e ∧ I s' := by
  refine tries_tryCatch (h.imp (fun _ _ hQ => hQ) ?_)
  intro e s' ⟨he, hs⟩
  exact tries_failStage hstage he hs

theorem tries_requireFit {fits : Bool} {r : Reason} {Q : Unit → Store → Prop} {E : Error → Store → Prop}
    (h : fits = true → Q () s) (he : E (.because r) s) : Tries safe (requireFit fits r) s Q E := by
  unfold requireFit
  split
  · rename_i hfits
    exact tries_pure (h hfits)
  · exact tries_throw he

theorem Grown.pending (h : Grown s₀ m s) (name : String) : Pending s₀ m s (.ofModule name m) :=
  { h with
    code := rfl
    opened := rfl
    memory := fun _ h => nomatch h
    owned := fun h => nomatch h }

theorem tries_makeMemory (hg : Grown s₀ m s) : Tries safe (makeMemory (.ofModule name m)) s
      (fun x s' => Begun s₀ m name s' x) fun e s' => Declined name e ∧ s' = s := by
  have hb (hown : ∀ t, m.memory = some t → t.imported = true) : Begun s₀ m name s (.ofModule name m) :=
    { hg.pending name with
      name := rfl
      module := rfl
      functions := length_replicate
      tables := length_replicate
      globals := length_replicate
      owner := fun h => nomatch h
      own := fun t ht himp => absurd ((hown t ht).symm.trans himp) (by decide) }
  unfold makeMemory
  cases hm : m.memory with
  | none =>
    simp only [Instance.ofModule, hm]
    exact tries_pure (hb (by simp [hm]))
  | some t =>
    simp only [Instance.ofModule, hm]
    split
    · rename_i himp
      refine tries_pure (hb ?_)
      intro u hu
      cases hm.symm.trans hu
      exact himp
    · rename_i himp
      refine Tries.bind (tries_get ?_)
      split
      · rename_i r hr
        refine tries_failStage (by decide) ⟨r, rfl, ?_⟩ rfl
        rw [Memory.create_error hr]
        intro n h
        cases h
      · rename_i mem hmem
        obtain ⟨hfree, hpages, hmax, hzero⟩ := Memory.create_ok hmem
        refine Tries.after (does_modifyGet (tries_pure ?_))
        have hnew : (s.memories.push mem)[s.memories.size]? = some mem := Array.getElem?_push_size
        exact
          { hg.addMemory ⟨hfree, hzero⟩ ⟨t, hm, hpages, hmax⟩ with
            code := rfl
            opened := rfl
            memory := by
              rintro _ ⟨⟩
              exact lt_size hnew
            owned := by
              rintro - _ ⟨⟩
              exact hg.kept.memories.size_le
            name := rfl
            module := rfl
            functions := length_replicate
            tables := length_replicate
            globals := length_replicate
            owner := fun _ => ⟨t, hm, Bool.eq_false_iff.mpr himp⟩
            own := by
              intro u hu _
              cases hm.symm.trans hu
              exact ⟨_, rfl, mem, hnew, Nat.le_of_eq hpages.symm, Nat.le_of_eq hmax⟩ }

theorem tries_bindFunction (hd : Draft s₀ m name s x) {index : Nat} (hindex : index < m.functions.length)
    {expected : FuncType} (hexpected : expected ∈ m.signatures) (hhas : safe → s.Has v)
    (hfound : ∀ h, v = .host h → s₀.Registered h) (hkind : v.kind = .func) :
    Tries safe (bindFunction s₀.instances.size index expected v) s
      (fun f s' => Draft s₀ m name s' x ∧ s.Later s' ∧ s'.Stands f v ∧
        ∃ g, s'.functions[f]? = some g ∧ g.type = expected)
      fun e s' => Unfit e ∧ s' = s := by
  unfold bindFunction
  split
  · rename_i f
    refine Tries.after (does_getFunction ?_ ?_)
    · intro hs
      exact ⟨_, Array.getElem?_eq_getElem (hhas hs)⟩
    · intro g hg
      refine Tries.bind (tries_requireFit ?_ ?_)
      · intro hfits
        exact tries_pure ⟨hd, .refl s, rfl, g, hg, of_decide_eq_true hfits⟩
      · exact ⟨⟨_, rfl, by simp⟩, rfl⟩
  · rename_i h
    refine Tries.bind (tries_requireFit ?_ ?_)
    · intro hfits
      refine Tries.after (does_typeId ?_)
      intro k signatures hfirst hnumber hnodup
      refine tries_lift (does_modifyGet ?_)
      have hg := hd.toGrown.addSignatures hfirst hnodup
      have hl : s.Later { s with signatures } := { Later.refl s with }
      let g : FunctionInstance :=
        { owner := s₀.instances.size, index, type := expected, typeId := k, name := h.name, host := some h }
      have hext := Extends.addFunction { s with signatures } g
      have hg := hg.addFunction (f := g) rfl hindex hexpected hnumber (forall_of_eq_some rfl (hfound h rfl))
      refine ⟨hd.step hg (hl.trans hext.later), hl.trans hext.later, ?_⟩
      exact ⟨⟨_, Array.getElem?_push_size, rfl⟩, _, Array.getElem?_push_size, rfl⟩
    · exact ⟨⟨_, rfl, by simp⟩, rfl⟩
  · exact tries_throw ⟨⟨_, rfl, by simp⟩, rfl⟩
  · cases v with
    | func f | host f | foreignFunc n => simp_all
    | table t | memory n | global g => cases hkind

def Drafted (s₀ : Store) (m : Module) (name : String) (s : Store) (x : Instance) : Prop :=
  s.instances[s₀.instances.size]? = some x ∧ Draft s₀ m name s x

theorem Draft.put (h : Draft s₀ m name s x) :
    Drafted s₀ m name { s with instances := s.instances.modify s₀.instances.size fun _ => x } x :=
  ⟨h.toGrown.stored_put x, h.step (h.toGrown.put _) { Later.refl s with }⟩

theorem Later.put (s : Store) (k : InstanceId) (x : Instance) :
    s.Later { s with instances := s.instances.modify k fun _ => x } :=
  { Later.refl s with }

theorem Draft.bound {s' : Store} {x' : Instance} (hd : Draft s₀ m name s' x')
    (hl : s.Later s') (hsame : x.SameBut [i.slot] x') (hb : s'.Bound x' i v) :
    ∃ x'', Drafted s₀ m name { s' with instances := s'.instances.modify s₀.instances.size fun _ => x' } x'' ∧
      s.Later { s' with instances := s'.instances.modify s₀.instances.size fun _ => x' } ∧
      x.SameBut [i.slot] x'' ∧
      Bound { s' with instances := s'.instances.modify s₀.instances.size fun _ => x' } x'' i v :=
  have hput := Later.put s' s₀.instances.size x'
  ⟨x', hd.put, hl.trans hput, hsame, hb.later hput rfl rfl⟩

theorem tries_bindImport (hb : m.Built source limit seen) (hi : i ∈ m.imports)
    (hd : Drafted s₀ m name s x) (hhas : safe → s.Has v) (hfound : ∀ h, v = .host h → s₀.Registered h) :
    Tries safe (bindImport s₀.instances.size i v) s
      (fun _ s' => ∃ x', Drafted s₀ m name s' x' ∧ s.Later s' ∧ x.SameBut [i.slot] x' ∧ s'.Bound x' i v)
      fun e s' => Unfit e ∧ ∃ x', Drafted s₀ m name s' x' := by
  obtain ⟨hx, hd⟩ := hd
  have hlt := (hb.declared hi).2
  have hasked := hb.imports i hi
  refine Tries.bind (tries_requireFit ?_ ⟨⟨_, rfl, by simp⟩, x, hx, hd⟩)
  intro hkind
  have hkind : v.kind = i.desc.kind := of_decide_eq_true hkind
  refine Tries.after (does_getInstance (fun _ => ⟨x, hx⟩) (forall_of_eq_some hx ?_))
  -- what is bound is of the kind that the import asks for
  cases hdesc : i.desc with
  | func t =>
    rw [hdesc] at hkind hasked hlt
    have hindex : i.indexPerType < m.functions.length := Nat.lt_of_lt_of_le hlt hb.functionCount
    refine Tries.after (does_expect (fun _ => ?_) ?_)
    · rw [hd.module]
      exact ⟨_, getElem?_eq_getElem hasked⟩
    · intro expected hexpected
      have hmem : expected ∈ m.signatures := hd.module ▸ mem_of_getElem? hexpected
      refine Tries.bind ((tries_bindFunction hd hindex hmem hhas hfound hkind).imp ?_ ?_)
      · rintro f s' ⟨hd', hl, hstands, g, hg, htype⟩
        rw [← hd.functions] at hindex
        refine Tries.after (does_setEntry (fun _ => hindex) fun _ => tries_lift (does_modify ?_))
        refine Draft.bound { hd' with functions := length_set.trans hd'.functions } hl ?_ ?_
        · rw [Import.slot, hdesc]
          exact x.sameBut_functions i.indexPerType f
        · rw [Bound, hdesc]
          exact ⟨hkind, f, Instance.join_set f hindex, hstands, g, hg, htype ▸ hexpected⟩
      · rintro e _ ⟨he, rfl⟩
        exact ⟨he, x, hx, hd⟩
  | table t =>
    rw [hdesc] at hkind hlt
    have hindex : i.indexPerType < x.tables.length := hd.tables ▸ Nat.lt_of_lt_of_le hlt hb.tableCount
    cases v with
    | table u =>
      refine Tries.after (does_getTable (fun hs => ⟨_, Array.getElem?_eq_getElem (hhas hs)⟩) ?_)
      intro table htable
      refine Tries.after (does_setEntry (fun _ => hindex) fun _ => Tries.after (does_modify ?_))
      have hd' : Draft s₀ m name s { x with tables := x.tables.set i.indexPerType (some u) } :=
        { hd with tables := length_set.trans hd.tables }
      refine tries_requireFit ?_ ⟨⟨_, rfl, by simp⟩, _, hd'.put⟩
      intro hfits
      refine hd'.bound (.refl s) ?_ ?_
      · rw [Import.slot, hdesc]
        exact x.sameBut_tables i.indexPerType u
      · rw [Bound, hdesc]
        refine ⟨hkind, u, Instance.join_set u hindex, rfl, table, htable, ?_⟩
        simpa using hfits
    | func f | host f | foreignFunc n | memory n | global g => cases hkind
  | memory t =>
    obtain ⟨hzero, hmemory, himported⟩ := hb.importedMemory hi hdesc
    have hother : ∀ t', m.memory = some t' → t'.imported ≠ false := by
      intro t' ht'
      cases hmemory.symm.trans ht'
      simp [himported]
    rw [hdesc] at hkind
    cases v with
    | memory u =>
      refine Tries.after (does_expect (fun hs => ?_) ?_)
      · cases u with
        | none => exact (hhas hs).elim
        | some u => exact ⟨u, rfl⟩
      · rintro u rfl
        refine Tries.after (does_getMemory (fun hs => ⟨_, Array.getElem?_eq_getElem (hhas hs)⟩) ?_)
        intro mem hmem
        refine Tries.after (does_modify ?_)
        have hd' : Draft s₀ m name s { x with memory := some u } :=
          { hd with
            memory := by
              rintro _ ⟨⟩
              exact lt_size hmem
            owned := by
              intro howns
              obtain ⟨t', ht', hfalse⟩ := hd.owner howns
              exact absurd hfalse (hother t' ht')
            own := fun t' ht' hfalse => absurd hfalse (hother t' ht') }
        refine tries_requireFit ?_ ⟨⟨_, rfl, by simp⟩, _, hd'.put⟩
        intro hfits
        refine hd'.bound (.refl s) ?_ ?_
        · rw [Import.slot, hdesc, hzero]
          exact x.sameBut_memory u
        · rw [Bound, hdesc, hzero]
          refine ⟨hkind, u, rfl, rfl, mem, hmem, ?_⟩
          simpa using hfits
    | func f | host f | foreignFunc n | table n | global g => cases hkind
  | global t =>
    rw [hdesc] at hkind hlt
    have hindex : i.indexPerType < x.globals.length := hd.globals ▸ Nat.lt_of_lt_of_le hlt hb.globalCount
    cases v with
    | global u =>
      refine Tries.after (does_getGlobal (fun hs => ⟨_, Array.getElem?_eq_getElem (hhas hs)⟩) ?_)
      intro g hg
      refine Tries.after (does_setEntry (fun _ => hindex) fun _ => Tries.after (does_modify ?_))
      have hd' : Draft s₀ m name s { x with globals := x.globals.set i.indexPerType (some u) } :=
        { hd with globals := length_set.trans hd.globals }
      refine Tries.bind (tries_requireFit ?_ ⟨⟨_, rfl, by simp⟩, _, hd'.put⟩)
      intro htype
      refine tries_requireFit ?_ ⟨⟨_, rfl, by simp⟩, _, hd'.put⟩
      intro hmutable
      refine hd'.bound (.refl s) ?_ ?_
      · rw [Import.slot, hdesc]
        exact x.sameBut_globals i.indexPerType u
      · rw [Bound, hdesc]
        refine ⟨hkind, u, Instance.join_set u hindex, rfl, g, hg, ?_⟩
        have htype : g.type.valType = t.valType := of_decide_eq_true htype
        have hmutable : g.type.isMutable = t.isMutable := of_decide_eq_true hmutable
        exact congrArg₂ GlobalType.mk htype hmutable
    | func f | host f | foreignFunc n | table n | memory m => cases hkind
  | unknown b =>
    rw [hdesc] at hasked
    exact hasked.elim

theorem importStage_ne (n : Nat) (i : Import) : s!"import[{n}] {i.module}.{i.name}" ≠ "start" := by
  intro h
  have hlist := congrArg String.toList h
  simp only [String.toList_append] at hlist
  cases hlist

theorem tries_importStage (hb : m.Built source limit seen) (hsafe : safe → s₀.Sound)
    (hi : i ∈ m.imports) (n : Nat) (hd : Drafted s₀ m name s x) : Tries safe
      (stage name s!"import[{n}] {i.module}.{i.name}" do
        match (← get).names.resolve? i.module i.name with
        | none => throw (.ofMark .importNotFound)
        | some v => bindImport s₀.instances.size i v) s
      (fun _ s' => ∃ x' v, Drafted s₀ m name s' x' ∧ s.Later s' ∧ x.SameBut [i.slot] x' ∧
        s₀.names.resolve? i.module i.name = some v ∧ s'.Bound x' i v)
      fun e s' => Declined name e ∧ ∃ x', Drafted s₀ m name s' x' := by
  refine tries_stage (importStage_ne n i) (Tries.bind (tries_get ?_))
  split
  · exact tries_throw ⟨⟨_, rfl, by simp⟩, x, hd⟩
  · rename_i v hv
    refine (tries_bindImport hb hi hd ?_ ?_).imp ?_ fun _ _ h => h
    · exact fun hs => (hd.2.sound (hsafe hs)).resolved _ _ v hv
    · rintro h rfl
      exact ⟨_, _, hd.2.kept.names ▸ hv⟩
    · rintro - s' ⟨x', hd', hl, hsame, hbound⟩
      exact ⟨x', v, hd', hl, hsame, hd.2.kept.names ▸ hv, hbound⟩

/-- All imports are bound, each to the value that is found for it. -/
theorem tries_bindAll (hb : m.Built source limit seen) (hsafe : safe → s₀.Sound) {imports : List Import}
    (hi : ∀ i ∈ imports, i ∈ m.imports) (hslots : imports.Pairwise fun i j => i.slot ≠ j.slot) (n : Nat)
    (hd : Drafted s₀ m name s x) : Tries safe (bindAll s₀.instances.size name (imports.zipIdx n)) s
      (fun _ s' => ∃ x', Drafted s₀ m name s' x' ∧ s.Later s' ∧ x.SameBut (imports.map Import.slot) x' ∧
        ∀ i ∈ imports, ∃ v, s₀.names.resolve? i.module i.name = some v ∧ s'.Bound x' i v)
      fun e s' => Declined name e ∧ ∃ x', Drafted s₀ m name s' x' := by
  induction imports generalizing s x n with
  | nil => exact tries_pure ⟨x, hd, .refl s, fun _ _ _ => rfl, by simp⟩
  | cons i rest ih =>
    obtain ⟨hmem, hrest⟩ := forall_mem_cons.mp hi
    obtain ⟨hapart, hslots⟩ := pairwise_cons.mp hslots
    rw [zipIdx_cons]
    refine Tries.bind ((tries_importStage hb hsafe hmem n hd).imp ?_ fun _ _ h => h)
    rintro - s₁ ⟨x₁, v, hd₁, hl₁, hsame₁, hv, hbound⟩
    refine (ih hrest hslots (n + 1) hd₁).imp ?_ fun _ _ h => h
    rintro - s₂ ⟨x₂, hd₂, hl₂, hsame₂, hall⟩
    refine ⟨x₂, hd₂, hl₁.trans hl₂, hsame₁.trans hsame₂, forall_mem_cons.mpr ⟨⟨v, hv, ?_⟩, hall⟩⟩
    -- the imports that follow have other places
    refine hbound.later hl₂ (hsame₂ _ _ ?_) (hd₂.2.module.trans hd₁.2.module.symm)
    intro hmem
    obtain ⟨j, hj, heq⟩ := mem_map.mp hmem
    exact hapart j hj heq.symm

def AllBound (s₀ : Store) (m : Module) (s : Store) (x : Instance) : Prop :=
  ∀ i ∈ m.imports, ∃ v, s₀.names.resolve? i.module i.name = some v ∧ s.Bound x i v

theorem AllBound.later (h : AllBound s₀ m s x) (hl : s.Later s') (hslot : ∀ kind k, x'.slot? kind k = x.slot? kind k)
    (hm : x'.module = x.module) : AllBound s₀ m s' x' := by
  intro i hi
  obtain ⟨v, hv, hbound⟩ := h i hi
  exact ⟨v, hv, hbound.later hl (hslot _ _) hm⟩

theorem Drafted.tries_bindAll (hd : Drafted s₀ m name s x) (hb : m.Built source limit seen)
    (hsafe : safe → s₀.Sound) :
    Tries safe (bindAll s₀.instances.size x.name x.module.imports.zipIdx) s
      (fun _ s' => ∃ x', Drafted s₀ m name s' x' ∧ AllBound s₀ m s' x')
      fun e s' => Declined name e ∧ ∃ x', Drafted s₀ m name s' x' := by
  rw [hd.2.name, hd.2.module]
  refine (Store.tries_bindAll hb hsafe (fun _ hi => hi) hb.numbered.slots 0 hd).imp ?_ fun _ _ h => h
  rintro - s' ⟨x', hd', -, -, hbound⟩
  exact ⟨x', hd', hbound⟩

/-- At the indices of imports is what the module declares there. -/
theorem fitsAt_of_bound (hb : m.Built source limit seen) (hm : x.module = m)
    (hbound : AllBound s₀ m s x)
    {kind : ExternKind} {k : Nat} (hk : k < m.importedCount kind) : s.FitsAt m x kind k := by
  intro d hd
  obtain ⟨i, hi, hslot, rfl⟩ := hb.imported hd hk
  obtain ⟨v, -, -, id, hid, -, hfits⟩ := hbound i hi
  obtain ⟨rfl, rfl⟩ := Prod.mk.inj hslot
  exact ⟨id, hid, hm ▸ hfits⟩

end Store

end ProtoWasm
