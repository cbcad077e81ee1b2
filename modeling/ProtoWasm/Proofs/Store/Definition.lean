import ProtoWasm.Proofs.Store.Binding
import ProtoWasm.Proofs.Store.Globals

/-! # Definitions of an instance

After its imports are bound, an instance gets the functions, globals and tables that its module defines. The
initializers of globals refer to imports, so they have values. In the end there is something at every index, and
it is what the module declares there.
-/
namespace ProtoWasm

open List

/-- The globals that a module defines have their places in the storage, one after the other. -/
def Module.Laid (m : Module) : Prop :=
  (∀ g ∈ m.globals, g.imported = false →
    g.type.valType.size ∣ g.offset ∧ g.offset + g.type.valType.size ≤ m.globalsSize) ∧
  m.globals.Pairwise fun g g' => g.imported = false → g'.imported = false → g.offset + g.type.valType.size ≤ g'.offset

section

variable {source : List UInt8} {limit : Nat} {seen : List Section} {m : Module} (h : m.Built source limit seen)
include h

theorem Module.Built.laid (hfit : m.globalBytes < 2 ^ 32) : m.Laid ∧ m.globalsSize < 2 ^ 32 := by
  have hvalues : ∀ g ∈ m.globals.map Global.unplaced, g.imported = false → g.type.valType.isValue = true := by
    rw [forall_mem_map]
    intro g hg _
    rw [← take_append_drop m.importedGlobals m.globals, mem_append] at hg
    exact hg.elim (fun hg => (h.importedGlobals g hg).1) fun hg => (h.definedGlobals g hg).1
  rw [globalBytes, ← extent_unplaced] at hfit
  have hspec := layoutGlobals_spec hvalues 0 hfit
  rw [h.layout] at hspec
  exact ⟨⟨fun g hg hi => (hspec.2.1 g hg hi).2, hspec.2.2⟩, Nat.lt_of_le_of_lt (Nat.le_of_eq hspec.1) hfit⟩

theorem Module.Built.definedGlobal {k : Nat} {g : Global} (hg : m.globals[k]? = some g)
    (hk : m.importedGlobals ≤ k) : m.Defines g := by
  apply h.definedGlobals g
  apply mem_of_getElem? (i := k - m.importedGlobals)
  rwa [getElem?_drop, Nat.add_sub_cancel' hk]

end

namespace Store

open StoreM

variable {safe : Prop} {s s' s₀ : Store} {m : Module} {name : String} {x x' : Instance}
  {source : List UInt8} {limit : Nat} {seen : List Section} {globals : List (Option GlobalId)}

section

variable {α β : Type}

/-- The action changes nothing. What it gives depends on the globals and their storages only. -/
def Observes (a : StoreM α) : Prop :=
  ∀ s s' : Store, s'.globals = s.globals → s'.storages = s.storages →
    (∃ v, a s = .ok (v, s) ∧ a s' = .ok (v, s')) ∨ ∃ d, a s = .error d ∧ a s' = .error d

theorem observes_pure (v : α) : Observes (pure v : StoreM α) := fun _ _ _ _ => .inl ⟨v, rfl, rfl⟩

theorem observes_defect (d : Defect) : Observes (defect d : StoreM α) := fun _ _ _ _ => .inr ⟨d, rfl, rfl⟩

theorem Observes.bind {a : StoreM α} {f : α → StoreM β} (ha : Observes a) (hf : ∀ v, Observes (f v)) :
    Observes (a >>= f) := by
  intro s s' hg hs
  rcases ha s s' hg hs with ⟨v, hv, hv'⟩ | ⟨d, hd, hd'⟩
  · have hbind : (a >>= f) s = f v s := by simp [Bind.bind, StateT.bind, Except.bind, hv]
    have hbind' : (a >>= f) s' = f v s' := by simp [Bind.bind, StateT.bind, Except.bind, hv']
    rw [hbind, hbind']
    exact hf v s s' hg hs
  · refine .inr ⟨d, ?_, ?_⟩
    · simp [Bind.bind, StateT.bind, Except.bind, hd]
    · simp [Bind.bind, StateT.bind, Except.bind, hd']

theorem observes_expect (d : Defect) (o : Option α) : Observes (expect d o) := by
  cases o with
  | none => exact observes_defect d
  | some a => exact observes_pure a

theorem observes_checked (e : Except Defect α) : Observes (checked e) := by
  cases e with
  | error d => exact observes_defect d
  | ok a => exact observes_pure a

theorem observes_entry (xs : List (Option α)) (k : Nat) : Observes (entry xs k) := by
  unfold entry
  split
  · exact observes_defect _
  · exact observes_expect _ _

theorem observes_get {f : Store → StoreM α}
    (hf : ∀ s s' : Store, s'.globals = s.globals → s'.storages = s.storages → f s' = f s)
    (h : ∀ s, Observes (f s)) : Observes (get >>= f) := by
  intro s s' hg hs
  change (∃ v, f s s = .ok (v, s) ∧ f s' s' = .ok (v, s')) ∨ ∃ d, f s s = .error d ∧ f s' s' = .error d
  rw [hf s s' hg hs]
  exact h s s s' hg hs

theorem observes_getGlobal (g : GlobalId) : Observes (getGlobal g) :=
  observes_get (fun _ _ hg _ => by rw [hg]) fun _ => observes_expect _ _

theorem observes_globalValue (g : GlobalId) : Observes (globalValue g) :=
  (observes_getGlobal g).bind fun _ => observes_get (fun _ _ _ hs => by rw [hs]) fun _ =>
    (observes_expect _ _).bind fun _ => observes_checked _

theorem observes_evalConst (globals : List (Option GlobalId)) (e : Option ConstExpr) :
    Observes (evalConst globals e) := by
  refine (observes_expect _ e).bind fun c => ?_
  have hword : ∀ n, Observes (if c.data.length < n then defect .range
      else return .ofNat (LittleEndian.decode (c.data.take n)) : StoreM UInt64) := by
    intro n
    split
    · exact observes_defect _
    · exact observes_pure _
  dsimp only
  split
  · exact observes_pure _
  · exact observes_pure _
  · exact hword 4
  · exact hword 8
  · exact (observes_entry _ _).bind observes_globalValue
  · exact observes_defect _

theorem observes_evalOffset (globals : List (Option GlobalId)) (e : Option ConstExpr) :
    Observes (evalOffset globals e) :=
  (observes_evalConst globals e).bind fun _ => observes_pure _

theorem Observes.does {a : StoreM α} (ha : Observes a) {Q : α → Store → Prop}
    (hsafe : safe → ∃ v, a s = .ok (v, s)) (h : ∀ v, a s = .ok (v, s) → Q v s) : Does safe a s Q := by
  unfold Does
  rcases ha s s rfl rfl with ⟨v, hv, -⟩ | ⟨d, hd, -⟩
  · rw [hv]
    exact h v hv
  · rw [hd]
    intro hs
    obtain ⟨v, hv⟩ := hsafe hs
    rw [hd] at hv
    cases hv

theorem Observes.eq_of_ok {a : StoreM α} (ha : Observes a) (hg : s'.globals = s.globals)
    (hs : s'.storages = s.storages) {v : α} (h : a s = .ok (v, s)) : a s' = .ok (v, s') := by
  rcases ha s s' hg hs with ⟨w, hw, hw'⟩ | ⟨d, hd, -⟩
  · cases h.symm.trans hw
    exact hw'
  · cases h.symm.trans hd

theorem Observes.eq_ok {a : StoreM α} (ha : Observes a) (h : Does True a s fun _ _ => True) :
    ∃ v, a s = .ok (v, s) := by
  rcases ha s s rfl rfl with ⟨v, hv, -⟩ | ⟨d, hd, -⟩
  · exact ⟨v, hv⟩
  · obtain ⟨v, s', hv⟩ := h.not_defect trivial
    rw [hd] at hv
    cases hv

end

/-- The globals that initializers may refer to are the same in two index spaces, and are in the store. -/
def SameImports (s : Store) (m : Module) (globals globals' : List (Option GlobalId)) : Prop :=
  ∀ (k : Nat) t, m.importedGlobalTypes[k]? = some t →
    ∃ id, globals[k]?.join = some id ∧ globals'[k]?.join = some id ∧ id < s.globals.size

theorem declaration?_of_imported {k : Nat} {t : GlobalType} (ht : m.importedGlobalTypes[k]? = some t) :
    k < m.importedGlobals ∧ m.declaration? .global k = some (.global t) := by
  rw [Module.importedGlobalTypes, getElem?_map, getElem?_take] at ht
  split at ht
  · obtain ⟨g, hg, rfl⟩ := Option.map_eq_some_iff.mp ht
    exact ⟨‹_›, congrArg (Option.map _) hg⟩
  · cases ht

theorem sameImports_of_fitsAt (h : ∀ k < m.importedGlobals, s.FitsAt m x .global k) :
    s.SameImports m x.globals x.globals := by
  intro k t ht
  obtain ⟨hk, hdecl⟩ := declaration?_of_imported ht
  obtain ⟨id, hid, g, hg, -⟩ := h k hk _ hdecl
  exact ⟨id, hid, hid, lt_size hg⟩

/-- The globals that an instance imports were there before it. -/
theorem sameImports_of_bound (hb : m.Built source limit seen) (hs : s₀.Sound)
    (hbound : AllBound s₀ m s x) : s₀.SameImports m x.globals x.globals := by
  intro k t ht
  obtain ⟨hk, hdecl⟩ := declaration?_of_imported ht
  obtain ⟨i, hi, hslot, hdesc⟩ := hb.imported hdecl hk
  obtain ⟨v, hv, hkind, id, hid, hstands, -⟩ := hbound i hi
  obtain ⟨-, rfl⟩ := Prod.mk.inj hslot
  rw [hdesc] at hkind hid
  refine ⟨id, hid, hid, ?_⟩
  have hhas := hs.resolved _ _ v hv
  cases v with
  | global g =>
    cases hstands
    exact hhas
  | func f | host f | foreignFunc n | table n | memory n => cases hkind

theorem SameImports.slots (h : s.SameImports m globals x.globals)
    (hsame : ∀ k < m.importedGlobals, x'.slot? .global k = x.slot? .global k) : s.SameImports m globals x'.globals := by
  intro k t ht
  obtain ⟨id, hid, hid', hlt⟩ := h k t ht
  exact ⟨id, hid, (hsame k (declaration?_of_imported ht).1).trans hid', hlt⟩

/-- An initializer is a constant or reads one of the globals that it may refer to. -/
theorem evalConst_extends (h : s.Extends s') (hs : s.Sound) {globals' : List (Option GlobalId)}
    (hi : s.SameImports m globals globals') {c : ConstExpr} {t : ValType} (hc : c.Initializes m.importedGlobalTypes t) :
    ∃ v, evalConst globals (some c) s = .ok (v, s) ∧ evalConst globals' (some c) s' = .ok (v, s') := by
  cases hc with
  | i32 | i64 => exact ⟨_, rfl, rfl⟩
  | @f32 data h =>
    have hlen : ¬ data.length < 4 := by omega
    exact ⟨_, congrFun (if_neg hlen) s, congrFun (if_neg hlen) s'⟩
  | @f64 data h =>
    have hlen : ¬ data.length < 8 := by omega
    exact ⟨_, congrFun (if_neg hlen) s, congrFun (if_neg hlen) s'⟩
  | @getGlobal data i g hdata hg =>
    obtain ⟨id, hid, hid', hlt⟩ := hi i g hg
    have hindex : ((Leb128.decodeUnsigned .w32 data).toOption.map Prod.fst).getD 0 = i := by
      rw [hdata]
      rfl
    change ∃ v, (entry globals _ >>= globalValue) s = _ ∧ (entry globals' _ >>= globalValue) s' = _
    rw [hindex, entry, entry, Option.join_eq_some_iff.mp hid, Option.join_eq_some_iff.mp hid']
    exact h.globalValue hs hlt

theorem Grown.setStorage (h : Grown s₀ m s) {k : StorageId} (hk : s₀.storages.size ≤ k) {b b' : List UInt8}
    (hb : s.storages[k]? = some b) (hlen : b.length ≤ b'.length) :
    Grown s₀ m { s with storages := s.storages.setIfInBounds k b' } :=
  { h with
    kept := { h.kept with storages := h.kept.storages.set_of_le hk b' }
    sound := fun h₀ => (h.sound h₀).lives (.setStorage hb hlen) }

/-- The instance gets what its module declares at some indices, and keeps what it has at others. -/
structure Fills (s₀ : Store) (m : Module) (name : String) (slots : List (ExternKind × Nat)) (s : Store)
    (x : Instance) (s' : Store) (x' : Instance) : Prop where
  draft : Draft s₀ m name s' x'
  later : s.Later s'
  same : x.SameBut slots x'
  fits : ∀ kind k, (kind, k) ∈ slots → s'.FitsAt m x' kind k

theorem Fills.nil (hd : Draft s₀ m name s x) : Fills s₀ m name [] s x s x where
  draft := hd
  later := .refl s
  same _ _ _ := rfl
  fits _ _ h := by cases h

theorem Fills.single {kind : ExternKind} {k id : Nat} {d : ImportDesc} (hd : Draft s₀ m name s' x')
    (hl : s.Later s') (hsame : x.SameBut [(kind, k)] x') (hdecl : m.declaration? kind k = some d)
    (hslot : x'.slot? kind k = some id) (hfits : s'.Fits m.signatures id d) :
    Fills s₀ m name [(kind, k)] s x s' x' where
  draft := hd
  later := hl
  same := hsame
  fits := by
    intro kind' k' h
    cases mem_singleton.mp h
    intro d' hd'
    cases hdecl.symm.trans hd'
    exact ⟨id, hslot, hfits⟩

theorem Fills.trans {xs ys : List (ExternKind × Nat)} {s₁ s₂ : Store} {x₁ x₂ : Instance}
    (h : Fills s₀ m name xs s x s₁ x₁) (h' : Fills s₀ m name ys s₁ x₁ s₂ x₂) :
    Fills s₀ m name (xs ++ ys) s x s₂ x₂ where
  draft := h'.draft
  later := h.later.trans h'.later
  same := h.same.trans h'.same
  fits := by
    intro kind k hk
    by_cases hy : (kind, k) ∈ ys
    · exact h'.fits kind k hy
    · have hx := (mem_append.mp hk).resolve_right hy
      exact (h.fits kind k hx).later h'.later (h'.same kind k hy)

theorem does_defineFunctions (hb : m.Built source limit seen) {indices : List Nat}
    (hin : ∀ k ∈ indices, k < m.functions.length) (hd : Draft s₀ m name s x) :
    Does safe (defineFunctions s₀.instances.size x indices) s fun x' s' =>
      Fills s₀ m name (indices.map (.func, ·)) s x s' x' := by
  induction indices generalizing s x with
  | nil => exact does_pure (.nil hd)
  | cons k rest ih =>
    obtain ⟨hk, hrest⟩ := forall_mem_cons.mp hin
    refine Does.bind (does_expect (fun _ => ?_) ?_)
    · rw [hd.module]
      exact ⟨_, getElem?_eq_getElem hk⟩
    · intro f hf
      rw [hd.module] at hf
      refine Does.bind (does_typeId fun n signatures hfirst hnumber hnodup => Does.bind (does_modifyGet ?_))
      refine Does.bind (does_setEntry (fun _ => hd.functions ▸ hk) fun hlt => ?_)
      let g : FunctionInstance :=
        { owner := s₀.instances.size, index := k, type := f.type, typeId := n
          name := x.module.functionName k }
      have hl : s.Later { s with signatures, functions := s.functions.push g } :=
        { (Extends.addFunction s g).later with }
      have htype : m.signatures[f.typeIndex]? = some f.type :=
        hb.heads f.head (mem_map_of_mem (mem_of_getElem? hf))
      have hg := (hd.toGrown.addSignatures hfirst hnodup).addFunction (f := g) rfl hk
        (mem_of_getElem? htype) hnumber (fun h hh => nomatch hh)
      have hd' := hd.step hg hl
      have hstep : Fills s₀ m name [(.func, k)] s x { s with signatures, functions := s.functions.push g }
          { x with functions := x.functions.set k (some s.functions.size) } := by
        have hdecl : m.declaration? .func k = some (.func f.typeIndex) := congrArg (Option.map _) hf
        exact .single { hd' with functions := length_set.trans hd'.functions } hl
          (x.sameBut_functions k _) hdecl (Instance.join_set _ hlt) ⟨g, Array.getElem?_push_size, htype⟩
      exact (ih hrest hstep.draft).imp fun x' s' h => hstep.trans h

theorem does_addInstanceGlobal (hd : Draft s₀ m name s x) {g : Global} (hg : m.Defines g)
    (hroom : safe → g.offset + g.type.valType.size ≤ m.globalsSize) :
    Does safe (addInstanceGlobal g.type x.storage g.offset) s fun id s' =>
      id = s.globals.size ∧ s' = { s with globals := s.globals.push ⟨g.type, x.storage, g.offset⟩ } ∧
        Draft s₀ m name s' x ∧ s.Later s' := by
  obtain ⟨-, bytes, hbytes, hlen⟩ := hd.storage
  refine Does.bind (does_get (Does.bind (does_expect (fun _ => ⟨bytes, hbytes⟩) ?_)))
  intro bytes' hbytes'
  cases hbytes.symm.trans hbytes'
  split
  · rename_i hover
    exact does_defect fun hs => Nat.not_lt.mpr (Nat.le_trans (hroom hs) hlen) hover
  · rename_i hfits
    have hl := (Extends.addGlobal s ⟨g.type, x.storage, g.offset⟩).later
    refine does_modifyGet ⟨rfl, rfl, hd.step (hd.toGrown.addGlobal hg.1 ⟨bytes, hbytes, ?_⟩) hl, hl⟩
    exact Nat.le_of_not_lt hfits

/-- A global that the module defines is a view of new storage, and holds the value of its initializer. -/
def Holds (s₀ : Store) (globals : List (Option GlobalId)) (s : Store) (x : Instance) (g : Global) (k : Nat) : Prop :=
  ∃ id storage v, x.slot? .global k = some id ∧ s₀.storages.size ≤ storage ∧
    s.globals[id]? = some ⟨g.type, storage, g.offset⟩ ∧ evalConst globals g.init s₀ = .ok (v, s₀) ∧
    globalValue id s = .ok (g.type.valType.cut v, s)

theorem Holds.observed {g : Global} {k : Nat} (h : Holds s₀ globals s x g k)
    (hglobals : s'.globals = s.globals) (hstorages : s'.storages = s.storages)
    (hslot : x'.slot? .global k = x.slot? .global k) : Holds s₀ globals s' x' g k := by
  obtain ⟨id, storage, v, hid, hle, hg, heval, hv⟩ := h
  exact ⟨id, storage, v, hslot.trans hid, hle, hglobals ▸ hg, heval,
    (observes_globalValue id).eq_of_ok hglobals hstorages hv⟩

theorem does_defineGlobals (hb : m.Built source limit seen) (hsafe : safe → s₀.Sound ∧ m.Laid)
    {imports : List (Option GlobalId)} {globals : List (Global × Nat)}
    (hin : ∀ g ∈ globals, m.globals[g.2]? = some g.1 ∧ m.importedGlobals ≤ g.2)
    (hd : Draft s₀ m name s x) (himports : s₀.Sound → s₀.SameImports m imports x.globals) :
    Does safe (defineGlobals x globals) s fun x' s' =>
      Fills s₀ m name (globals.map fun g => (.global, g.2)) s x s' x' ∧ (s₀.Sound →
        (globals.Pairwise fun g g' => g.1.offset + g.1.type.valType.size ≤ g'.1.offset) →
        (∀ g ∈ globals, Holds s₀ imports s' x' g.1 g.2) ∧
        ∀ id g v, s.globals[id]? = some g → (∀ g' ∈ globals, g.offset + g.type.valType.size ≤ g'.1.offset) →
          globalValue id s = .ok (v, s) → globalValue id s' = .ok (v, s')) := by
  induction globals generalizing s x with
  | nil => exact does_pure ⟨.nil hd, fun _ _ => ⟨forall_mem_nil _, fun _ _ _ _ _ hv => hv⟩⟩
  | cons g rest ih =>
    obtain ⟨g, k⟩ := g
    obtain ⟨⟨hg, hk⟩, hrest⟩ := forall_mem_cons.mp hin
    have hdefined := hb.definedGlobal hg hk
    have hpos := ValType.size_pos hdefined.1
    obtain ⟨-, hown, e, he, hinit⟩ := id hdefined
    have hroom (hs : safe) : g.offset + g.type.valType.size ≤ m.globalsSize :=
      ((hsafe hs).2.1 g (mem_of_getElem? hg) hown).2
    refine Does.bind ((does_addInstanceGlobal hd hdefined hroom).imp ?_)
    rintro _ s₁ ⟨rfl, hs₁, hd₁, hl₁⟩
    have hnew : s₁.globals[s.globals.size]? = some ⟨g.type, x.storage, g.offset⟩ := by
      rw [hs₁]
      exact Array.getElem?_push_size
    refine Does.bind ((observes_evalConst x.globals g.init).does ?_ ?_)
    · intro hs
      obtain ⟨v, -, hv⟩ := evalConst_extends hd₁.kept (hsafe hs).1 (himports (hsafe hs).1) hinit
      exact ⟨v, he ▸ hv⟩
    · intro v heval
      refine Does.bind (does_setGlobal ?_ ?_)
      · intro _
        obtain ⟨-, bytes, hbytes, -⟩ := hd₁.storage
        exact ⟨_, bytes, hnew, hbytes, hpos⟩
      · intro g' bytes bytes' hg' hbytes hw
        cases hnew.symm.trans hg'
        have hlt : k < x.globals.length := hd.globals ▸ (List.getElem?_eq_some_iff.mp hg).1
        have hlen := GlobalInstance.length_write hw
        refine Does.bind (does_setEntry (fun _ => hlt) fun _ => ?_)
        have hl₂ := (Lives.setStorage hbytes hlen).later
        have hd₂ := hd₁.step (hd₁.toGrown.setStorage hd₁.storage.1 hbytes hlen) hl₂
        have hdecl : m.declaration? .global k = some (.global g.type) := congrArg (Option.map _) hg
        have hd₃ : Draft s₀ m name _ { x with globals := x.globals.set k (some s.globals.size) } :=
          { hd₂ with globals := length_set.trans hd₂.globals }
        have hstep := Fills.single hd₃ (hl₁.trans hl₂) (x.sameBut_globals k s.globals.size) hdecl
          (Instance.join_set _ hlt) ⟨_, hnew, rfl⟩
        refine (ih hrest hstep.draft fun h₀ => (himports h₀).slots fun j hj => ?_).imp ?_
        · refine hstep.same .global j fun hmem => ?_
          cases mem_singleton.mp hmem
          exact Nat.not_lt.mpr hk hj
        · rintro x' s' ⟨hfills, hvalues⟩
          refine ⟨hstep.trans hfills, fun h₀ hplaces => ?_⟩
          obtain ⟨hfirst, hplaces⟩ := pairwise_cons.mp hplaces
          obtain ⟨hholds, hkeeps⟩ := hvalues h₀ hplaces
          have hsound := hd₁.sound h₀
          refine ⟨forall_mem_cons.mpr ⟨?_, hholds⟩, fun id view w hview hbefore hv => ?_⟩
          · obtain ⟨w, hw₀, hw₁⟩ := evalConst_extends hd₁.kept h₀ (himports h₀) hinit
            rw [← he] at hw₀ hw₁
            cases heval.symm.trans hw₁
            -- no index is used twice, since the globals that follow have later places
            have hslot := hfills.same .global k fun hmem => by
              obtain ⟨g', hg', ⟨⟩⟩ := mem_map.mp hmem
              have hplace := hfirst g' hg'
              cases hg.symm.trans (hrest g' hg').1
              exact Nat.not_le.mpr (Nat.lt_add_of_pos_right hpos) hplace
            exact ⟨_, _, v, hslot.trans (Instance.join_set _ hlt), hd.storage.1, hfills.later.globals _ _ hnew, hw₀,
              hkeeps _ _ _ hnew hfirst (hsound.globalValue_set hnew hbytes hw rfl)⟩
          · have hadd : s.Extends s₁ := hs₁ ▸ Extends.addGlobal s _
            obtain ⟨_, hv₀, hv₁⟩ := hadd.globalValue (hd.sound h₀) (lt_size hview)
            cases hv.symm.trans hv₀
            have hview₁ := hadd.globals _ _ hview
            obtain ⟨hplace, hbefore⟩ := forall_mem_cons.mp hbefore
            exact hkeeps id view w hview₁ hbefore
              (hsound.globalValue_set_apart hnew hbytes hw rfl hview₁ (fun _ => .inr hplace) hv₁)

theorem does_defineTables {tables : List (TableType × Nat)}
    (hin : ∀ t ∈ tables, m.tables[t.2]? = some t.1) (hd : Draft s₀ m name s x) :
    Does safe (defineTables x tables) s fun x' s' =>
      Fills s₀ m name (tables.map fun t => (.table, t.2)) s x s' x' ∧ s'.globals = s.globals ∧
        s'.storages = s.storages := by
  induction tables generalizing s x with
  | nil => exact does_pure ⟨.nil hd, rfl, rfl⟩
  | cons t rest ih =>
    obtain ⟨t, k⟩ := t
    obtain ⟨ht, hrest⟩ := forall_mem_cons.mp hin
    have hk : k < x.tables.length := hd.tables ▸ (List.getElem?_eq_some_iff.mp ht).1
    refine Does.bind (does_modifyGet (Does.bind (does_setEntry (fun _ => hk) fun _ => ?_)))
    have hl := (Extends.addTable s (.create t.min t.max)).later
    have hd' := hd.step (hd.toGrown.addTable t.min t.max) hl
    have hstep : Fills s₀ m name [(.table, k)] s x { s with tables := s.tables.push (.create t.min t.max) }
        { x with tables := x.tables.set k (some s.tables.size) } := by
      have hdecl : m.declaration? .table k = some (.table t) := congrArg (Option.map _) ht
      exact .single { hd' with tables := length_set.trans hd'.tables } hl (x.sameBut_tables k _) hdecl
        (Instance.join_set _ hk) ⟨_, Array.getElem?_push_size, Nat.le_refl _, Nat.le_refl _⟩
    exact (ih hrest hstep.draft).imp fun x' s' h => ⟨hstep.trans h.1, h.2⟩

/-- Everything that a module declares is there and is what it should be. -/
def Conforms (s : Store) (m : Module) (x : Instance) : Prop := ∀ kind k, s.FitsAt m x kind k

theorem does_define (hb : m.Built source limit seen) (hsafe : safe → s₀.Sound ∧ m.Laid) (hd : Draft s₀ m name s x)
    (himported : ∀ kind k, k < m.importedCount kind → s.FitsAt m x kind k)
    (himports : s₀.Sound → s₀.SameImports m x.globals x.globals) :
    Does safe (define s₀.instances.size x) s fun x' s' =>
      Draft s₀ m name s' x' ∧ s.Later s' ∧ s'.Conforms m x' ∧
        (∀ kind k, k < m.importedCount kind → x'.slot? kind k = x.slot? kind k) ∧
        (s₀.Sound → m.Laid → ∀ k g, m.globals[k]? = some g → m.importedGlobals ≤ k →
          Holds s₀ x'.globals s' x' g k) := by
  have hplaces (hlaid : m.Laid) : (m.globals.zipIdx.drop m.importedGlobals).Pairwise fun g g' =>
      g.1.offset + g.1.type.valType.size ≤ g'.1.offset := by
    have h := hlaid.2.drop (i := m.importedGlobals)
    rw [← zipIdx_map_fst 0 m.globals, ← map_drop, pairwise_map] at h
    have hdefined {g : Global × Nat} (hg : g ∈ m.globals.zipIdx.drop m.importedGlobals) : g.1.imported = false :=
      (hb.definedGlobal (mem_zipIdx_drop.mp hg).1 (mem_zipIdx_drop.mp hg).2).2.1
    exact h.imp_of_mem fun hg hg' hplaces => hplaces (hdefined hg) (hdefined hg')
  unfold define
  rw [hd.module]
  refine Does.bind ((does_defineFunctions hb (fun k hk => (Module.mem_definedIndices.mp hk).2) hd).imp ?_)
  intro x₁ s₁ h₁
  refine Does.bind ((does_defineGlobals hb hsafe (fun g hg => mem_zipIdx_drop.mp hg) h₁.draft fun h₀ =>
    (himports h₀).slots fun k _ => h₁.same .global k (by simp)).imp ?_)
  rintro x₂ s₂ ⟨h₂, hvalues⟩
  refine (does_defineTables (fun t ht => (mem_zipIdx_drop.mp ht).1) h₂.draft).imp ?_
  rintro x₃ s₃ ⟨h₃, hglobals, hstorages⟩
  have h : Fills s₀ m name m.definedSlots s x s₃ x₃ := (h₁.trans h₂).trans h₃
  have hsame : ∀ kind k, k < m.importedCount kind → x₃.slot? kind k = x.slot? kind k := by
    intro kind k hk
    exact h.same kind k fun hmem => Nat.not_lt.mpr (Module.importedCount_le_of_mem hmem) hk
  refine ⟨h.draft, h.later, ?_, hsame, fun h₀ hlaid k g hg hk => ?_⟩
  swap
  · obtain ⟨-, -, e, he, hinit⟩ := hb.definedGlobal hg hk
    have hslots : s₀.SameImports m _ x₃.globals := (himports h₀).slots (hsame .global)
    obtain ⟨v, hv, hv'⟩ := evalConst_extends (.refl s₀) h₀ hslots hinit
    have hholds := (hvalues h₀ (hplaces hlaid)).1 (g, k) (mem_zipIdx_drop.mpr ⟨hg, hk⟩)
    obtain ⟨id, storage, w, hid, hle, hview, heval, hw⟩ := hholds.observed hglobals hstorages
      (h₃.same .global k fun hmem => by obtain ⟨_, _, ⟨⟩⟩ := mem_map.mp hmem)
    rw [← he] at hv hv'
    cases heval.symm.trans hv
    exact ⟨id, storage, v, hid, hle, hview, hv', hw⟩
  intro kind k d hdecl
  by_cases hk : k < m.importedCount kind
  · exact (himported kind k hk).later h.later (hsame kind k hk) d hdecl
  · rcases Module.mem_definedSlots hdecl (Nat.le_of_not_lt hk) with hmem | ⟨t, rfl, rfl, rfl, ht, himp⟩
    · exact h.fits kind k hmem d hdecl
    · exact h.draft.own t ht himp

end Store

end ProtoWasm
