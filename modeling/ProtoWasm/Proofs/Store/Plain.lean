import ProtoWasm.Proofs.Execution.Blind
import ProtoWasm.Proofs.Store.Running

/-! # Stores without shortcuts

A store with shortcuts has a mirror without them: where an instance has the code of a function of another instance, it
has an adapter there. Actions on a store and on its mirror give results that are related and leave mirrors behind.
-/
namespace ProtoWasm

open List

/-- A function of another instance is called by way of that instance. -/
def Code.plain : Code → Code
  | reuse k f => importAdapter k f
  | c => c

namespace Code

@[simp] theorem index_plain (c : Code) : c.plain.index = c.index := by
  cases c <;> rfl

@[simp] theorem isPlaceholder_plain (c : Code) : c.plain.isPlaceholder = c.isPlaceholder := by
  cases c <;> rfl

theorem eq_reuse_of_plain_ne {c : Code} (h : c.plain ≠ c) : ∃ k f, c = .reuse k f := by
  cases c with
  | reuse k f => exact ⟨k, f, rfl⟩
  | placeholder | function | exportWrapper | importAdapter | unknown => exact absurd rfl h

theorem kind_plain_wrapper (c : Code) : (c.plain.kind == .exportWrapper) = (c.kind == .exportWrapper) := by
  cases c <;> rfl

end Code

def Reloc.plain (r : Reloc) : Reloc := { r with ref := r.ref.plain }

namespace CodeTable

def plain (t : CodeTable) : CodeTable := ⟨t.entries.map Code.plain, t.relocs.map Reloc.plain⟩

variable (t : CodeTable)

theorem entries_plain (k : Nat) : t.plain.entries[k]? = t.entries[k]?.map Code.plain := getElem?_map

theorem relocs_plain (k : Nat) : t.plain.relocs[k]? = t.relocs[k]?.map Reloc.plain := getElem?_map

theorem wrapper?_plain (k : Nat) : t.plain.wrapper? k = (t.wrapper? k).map Code.plain := by
  unfold wrapper? plain
  rw [find?_map]
  congr 2
  funext c
  simp only [Function.comp_apply, Code.kind_plain_wrapper, Code.index_plain]

theorem entry?_plain (k : Nat) : t.plain.entry? k = (t.entry? k).map Code.plain := by
  unfold entry?
  rw [wrapper?_plain, entries_plain]
  cases t.wrapper? k <;> rfl

theorem setEntry_plain (k : Nat) (c : Code) : (t.setEntry k c).plain = t.plain.setEntry k c.plain := by
  simp [setEntry, plain, map_set]

theorem linkReloc_plain (entries : List Code) (r : Reloc) :
    linkReloc (entries.map Code.plain) r.plain = (linkReloc entries r).plain := by
  have hcode : codeFor? (entries.map Code.plain) r.plain = (codeFor? entries r).map Code.plain := by
    unfold codeFor? Reloc.plain
    dsimp only
    rw [Code.isPlaceholder_plain, getElem?_map]
    split
    · cases entries[r.target]? with
      | none => rfl
      | some c => cases c <;> rfl
    · rfl
  unfold linkReloc
  rw [hcode]
  cases codeFor? entries r <;> rfl

theorem link_plain : t.link.plain = t.plain.link := by
  unfold link plain
  simp only [map_map]
  congr 1
  apply map_congr_left
  intro r _
  exact (linkReloc_plain t.entries r).symm

theorem unresolved_plain : t.plain.unresolved = t.unresolved := by
  unfold unresolved plain
  rw [countP_map]
  congr 1
  funext r
  exact Code.isPlaceholder_plain r.ref

end CodeTable

namespace LinkedCode

def plain (c : LinkedCode) : LinkedCode := { c with table := c.table.plain }

theorem sitesOf_plain (t : CodeTable) (e : Extent) : sitesOf t.plain e = sitesOf t e := by
  unfold sitesOf CodeTable.plain
  rw [flatMap_map]
  congr 1
  funext c
  cases c <;> rfl

end LinkedCode

def Instance.plain (x : Instance) : Instance := { x with code := x.code.map LinkedCode.plain }

namespace Store

/-- The store without shortcuts, with a log of its own. -/
def plain (s : Store) (log : Array Event) : Store :=
  { s with config := { s.config with shortcut := false }, instances := s.instances.map Instance.plain, log }

/-- The second store is the first without shortcuts. Their logs may differ. -/
def Mirror (s t : Store) : Prop := ∃ log, t = s.plain log

theorem getElem?_instances_plain (s : Store) (log : Array Event) (i : InstanceId) :
    (s.plain log).instances[i]? = s.instances[i]?.map Instance.plain := Array.getElem?_map

theorem plain_modify (s : Store) (log : Array Event) (i : InstanceId) {f g : Instance → Instance}
    (h : ∀ x, g x.plain = (f x).plain) :
    { s.plain log with instances := (s.plain log).instances.modify i g } =
      plain { s with instances := s.instances.modify i f } log := by
  have hinstances : (s.instances.map Instance.plain).modify i g = (s.instances.modify i f).map Instance.plain := by
    apply Array.ext_getElem?
    intro k
    rw [Array.getElem?_modify, Array.getElem?_map, Array.getElem?_map, Array.getElem?_modify]
    cases s.instances[k]? with
    | none => split <;> rfl
    | some x =>
      split
      · exact congrArg some (h x)
      · rfl
  unfold plain
  dsimp only
  rw [hinstances]

end Store

namespace StoreM

open Store

variable {α β γ δ : Type} {loose p : Prop} {R : α → β → Prop} {Q : γ → δ → Prop} {s t : Store} {a : StoreM α}
  {b : StoreM β} {f : α → StoreM γ} {g : Store → Action δ} {x : α} {y : β}

/-- The actions end in the same defect, or they give related results and leave mirrors behind. Where calls need not be
followed to their end, one of them may give up. -/
def MirrorsAt (loose : Prop) (R : α → β → Prop) (a : StoreM α) (b : StoreM β) (s t : Store) : Prop :=
  (loose ∧ (a s = .error .nesting ∨ b t = .error .nesting)) ∨ (∃ d, a s = .error d ∧ b t = .error d) ∨
    ∃ x y s' t', a s = .ok (x, s') ∧ b t = .ok (y, t') ∧ R x y ∧ s'.Mirror t'

def Mirrors (loose : Prop) (R : α → β → Prop) (a : StoreM α) (b : StoreM β) : Prop :=
  ∀ s t : Store, s.Mirror t → MirrorsAt loose R a b s t

theorem MirrorsAt.bind {g : β → StoreM δ} (h : MirrorsAt loose R a b s t)
    (hf : ∀ x y s' t', a s = .ok (x, s') → R x y → s'.Mirror t' → MirrorsAt loose Q (f x) (g y) s' t') :
    MirrorsAt loose Q (a >>= f) (b >>= g) s t := by
  rcases h with ⟨hloose, h | h⟩ | ⟨d, ha, hb⟩ | ⟨x, y, s', t', ha, hb, hR, hs⟩
  · exact .inl ⟨hloose, .inl (bind_of_error h)⟩
  · exact .inl ⟨hloose, .inr (bind_of_error h)⟩
  · exact .inr (.inl ⟨d, bind_of_error ha, bind_of_error hb⟩)
  · unfold MirrorsAt
    rw [bind_of_ok ha, bind_of_ok hb]
    exact hf x y s' t' ha hR hs

theorem Mirrors.bind {g : β → StoreM δ} (h : Mirrors loose R a b)
    (hf : ∀ x y, R x y → Mirrors loose Q (f x) (g y)) : Mirrors loose Q (a >>= f) (b >>= g) :=
  fun s t hs => (h s t hs).bind fun x y s' t' _ hR hs' => hf x y hR s' t' hs'

theorem Mirrors.then {b : StoreM α} {g : α → StoreM δ} (h : Mirrors loose Eq a b)
    (hf : ∀ x, Mirrors loose Q (f x) (g x)) : Mirrors loose Q (a >>= f) (b >>= g) := by
  apply h.bind
  rintro x _ rfl
  exact hf x

theorem mirrors_pure (h : R x y) : Mirrors loose R (pure x) (pure y) :=
  fun s t hs => .inr (.inr ⟨x, y, s, t, rfl, rfl, h, hs⟩)

theorem mirrors_defect (d : Defect) : Mirrors loose R (defect d) (defect d) := fun _ _ _ => .inr (.inl ⟨d, rfl, rfl⟩)

theorem mirrors_ite [Decidable p] {a' : StoreM α} {b' : StoreM β} (h : Mirrors loose R a b)
    (h' : Mirrors loose R a' b') : Mirrors loose R (if p then a else a') (if p then b else b') := by
  split
  · exact h
  · exact h'

theorem mirrors_get {f : Store → StoreM γ} {g : Store → StoreM δ}
    (h : ∀ s log, Mirrors loose Q (f s) (g (s.plain log))) : Mirrors loose Q (get >>= f) (get >>= g) := by
  rintro s t ⟨log, rfl⟩
  exact h s log s _ ⟨log, rfl⟩

theorem mirrors_modify {f g : Store → Store} (h : ∀ s log, (f s).Mirror (g (s.plain log))) :
    Mirrors loose Eq (modify f : StoreM PUnit) (modify g) := by
  rintro s t ⟨log, rfl⟩
  exact .inr (.inr ⟨⟨⟩, ⟨⟩, f s, g (s.plain log), rfl, rfl, rfl, h s log⟩)

theorem mirrors_modifyGet {f : Store → α × Store} {g : Store → β × Store}
    (h : ∀ s log, R (f s).1 (g (s.plain log)).1 ∧ (f s).2.Mirror (g (s.plain log)).2) :
    Mirrors loose R (modifyGet f : StoreM α) (modifyGet g) := by
  rintro s t ⟨log, rfl⟩
  exact .inr (.inr ⟨_, _, _, _, rfl, rfl, h s log⟩)

theorem mirrors_expect_eq (d : Defect) (o : Option α) : Mirrors loose Eq (expect d o) (expect d o) := by
  cases o with
  | none => exact mirrors_defect d
  | some x => exact mirrors_pure rfl

theorem mirrors_expect_map (d : Defect) (o : Option α) (f : α → β) :
    Mirrors loose (fun x y => y = f x) (expect d o) (expect d (o.map f)) := by
  cases o with
  | none => exact mirrors_defect d
  | some x => exact mirrors_pure rfl

theorem mirrors_checked (e : Except Defect α) : Mirrors loose Eq (checked e) (checked e) := by
  cases e with
  | error d => exact mirrors_defect d
  | ok x => exact mirrors_pure rfl

theorem mirrors_entry (xs : List (Option α)) (k : Nat) : Mirrors loose Eq (entry xs k) (entry xs k) := by
  unfold entry
  split
  · exact mirrors_defect _
  · exact mirrors_expect_eq _ _

theorem mirrors_getInstance (i : InstanceId) :
    Mirrors loose (fun x y => y = x.plain) (getInstance i) (getInstance i) := by
  refine mirrors_get fun s log => ?_
  rw [getElem?_instances_plain]
  exact mirrors_expect_map _ _ _

theorem mirrors_getCode (i : InstanceId) : Mirrors loose (fun c c' => c' = c.plain) (getCode i) (getCode i) := by
  refine (mirrors_getInstance i).bind ?_
  rintro x _ rfl
  exact mirrors_expect_map _ x.code _

theorem mirrors_getFunction (f : FunctionId) : Mirrors loose Eq (getFunction f) (getFunction f) :=
  mirrors_get fun _ _ => mirrors_expect_eq _ _

theorem mirrors_getTable (t : TableId) : Mirrors loose Eq (getTable t) (getTable t) :=
  mirrors_get fun _ _ => mirrors_expect_eq _ _

theorem mirrors_getMemory (m : MemoryId) : Mirrors loose Eq (getMemory m) (getMemory m) :=
  mirrors_get fun _ _ => mirrors_expect_eq _ _

theorem mirrors_getGlobal (g : GlobalId) : Mirrors loose Eq (getGlobal g) (getGlobal g) :=
  mirrors_get fun _ _ => mirrors_expect_eq _ _

theorem mirrors_setMemory (m : MemoryId) (mem : Memory InstanceId) :
    Mirrors loose Eq (setMemory m mem) (setMemory m mem) :=
  mirrors_modify fun _ log => ⟨log, rfl⟩

theorem mirrors_modifyInstance (i : InstanceId) {f g : Instance → Instance} (h : ∀ x, g x.plain = (f x).plain) :
    Mirrors loose Eq (modifyInstance i f) (modifyInstance i g) :=
  mirrors_modify fun s log => ⟨log, plain_modify s log i h⟩

theorem mirrors_typeId (t : FuncType) : Mirrors loose Eq (typeId t) (typeId t) := by
  refine mirrors_modifyGet fun s log => ?_
  have hsignatures : (s.plain log).signatures = s.signatures := rfl
  rw [hsignatures]
  cases s.signatures.findIdx? (· == t.text) with
  | some k => exact ⟨rfl, log, rfl⟩
  | none => exact ⟨rfl, log, rfl⟩

theorem mirrors_globalValue (g : GlobalId) : Mirrors loose Eq (globalValue g) (globalValue g) :=
  (mirrors_getGlobal g).then fun _ => mirrors_get fun _ _ => (mirrors_expect_eq _ _).then fun _ => mirrors_checked _

theorem mirrors_setGlobal (g : GlobalId) (v : UInt64) : Mirrors loose Eq (setGlobal g v) (setGlobal g v) := by
  refine (mirrors_getGlobal g).then fun g => mirrors_get fun _ _ => (mirrors_expect_eq _ _).then fun _ => ?_
  exact (mirrors_checked _).then fun _ => mirrors_modify fun _ log => ⟨log, rfl⟩

/-- The actions fail both or give related results. -/
def AttemptsAt (loose : Prop) (R : α → β → Prop) (a : Action α) (b : Action β) (s t : Store) : Prop :=
  MirrorsAt loose (SameResult R) a.run b.run s t

theorem AttemptsAt.bind {a : Action α} {b : Action β} {f : α → Action γ} {g : β → Action δ}
    (h : AttemptsAt loose R a b s t)
    (hf : ∀ x y s' t', a s = .ok (.ok x, s') → R x y → s'.Mirror t' → AttemptsAt loose Q (f x) (g y) s' t') :
    AttemptsAt loose Q (a >>= f) (b >>= g) s t := by
  refine MirrorsAt.bind h ?_
  intro r r' s' t' ha hr hs'
  cases hr with
  | ok h => exact hf _ _ s' t' ha h hs'
  | error he => exact mirrors_pure (.error he) s' t' hs'

theorem AttemptsAt.tryCatch {a : Action α} {b : Action β} {handle : Error → Action α} {handle' : Error → Action β}
    (h : AttemptsAt loose R a b s t)
    (hhandle : ∀ e e' : Error, e.bare = e'.bare → ∀ s' t' : Store, s'.Mirror t' →
      AttemptsAt loose R (handle e) (handle' e') s' t') :
    AttemptsAt loose R (MonadExcept.tryCatch a handle) (MonadExcept.tryCatch b handle') s t := by
  change MirrorsAt loose _ (ExceptT.tryCatch a handle).run (ExceptT.tryCatch b handle').run s t
  refine MirrorsAt.bind h ?_
  intro r r' s' t' _ hr hs'
  cases hr with
  | ok h => exact mirrors_pure (.ok h) s' t' hs'
  | error he => exact hhandle _ _ he s' t' hs'

theorem AttemptsAt.get {f : Store → Action γ} (h : AttemptsAt loose Q (f s) (g t) s t) :
    AttemptsAt loose Q (MonadState.get >>= f) (MonadState.get >>= g) s t := h

def Attempts (loose : Prop) (R : α → β → Prop) (a : Action α) (b : Action β) : Prop :=
  ∀ s t : Store, s.Mirror t → AttemptsAt loose R a b s t

theorem attempts_pure (h : R x y) : Attempts loose R (pure x) (pure y) := mirrors_pure (.ok h)

theorem attempts_throw {e e' : Error} (h : e.bare = e'.bare) : Attempts loose R (throw e) (throw e') :=
  mirrors_pure (.error h)

theorem attempts_get {f : Store → Action γ}
    (h : ∀ s log, Attempts loose Q (f s) (g (s.plain log))) : Attempts loose Q (get >>= f) (get >>= g) := by
  rintro s t ⟨log, rfl⟩
  exact AttemptsAt.get (h s log s _ ⟨log, rfl⟩)

theorem attempts_ite [Decidable p] {a a' : Action α} {b b' : Action β} (h : Attempts loose R a b)
    (h' : Attempts loose R a' b') : Attempts loose R (if p then a else a') (if p then b else b') := by
  split
  · exact h
  · exact h'

theorem Mirrors.lift (h : Mirrors loose R a b) : Attempts loose R (liftM a) (liftM b) :=
  h.bind fun _ _ hR => mirrors_pure (.ok hR)

theorem Attempts.bind {a : Action α} {b : Action β} {f : α → Action γ} {g : β → Action δ} (h : Attempts loose R a b)
    (hf : ∀ x y, R x y → Attempts loose Q (f x) (g y)) : Attempts loose Q (a >>= f) (b >>= g) :=
  fun s t hs => (h s t hs).bind fun x y s' t' _ hR hs' => hf x y hR s' t' hs'

theorem Attempts.then {a b : Action α} {f : α → Action γ} {g : α → Action δ} (h : Attempts loose Eq a b)
    (hf : ∀ x, Attempts loose Q (f x) (g x)) : Attempts loose Q (a >>= f) (b >>= g) := by
  apply h.bind
  rintro x _ rfl
  exact hf x

end StoreM

end ProtoWasm
