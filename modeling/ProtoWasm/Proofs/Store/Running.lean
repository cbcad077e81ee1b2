import ProtoWasm.Store.Instantiate

/-! # What actions of a store do

A property of everything that an action gives and leaves behind. An action may also end in a defect: that
it does not is proved along with the property, for stores where it is safe.
-/
namespace ProtoWasm

open List

theorem GlobalInstance.length_write {g : GlobalInstance} {storage bytes : List UInt8} {v : UInt64}
    (h : g.write storage v = .ok bytes) : storage.length ≤ bytes.length := by
  unfold GlobalInstance.write at h
  split at h
  · cases h
  · cases h
    simp only [length_append, length_take, length_drop, LittleEndian.length_encode]
    omega

namespace StoreM

/-- What works on some state and may end in a defect. -/
abbrev Doing (σ : Type) := StateT σ (Except Defect)

abbrev Trying (σ : Type) := ExceptT Error (Doing σ)

section General

variable {σ α β : Type} {safe safe' : Prop} {s s' : σ} {P Q : α → σ → Prop} {R : β → σ → Prop}
  {E F : Error → σ → Prop} {a : Doing σ α} {x : α} {e : Error} {f : α → Doing σ β}

/-- The result and the store after the action have the property. If it is safe, there is no defect. -/
def Does (safe : Prop) (a : Doing σ α) (s : σ) (Q : α → σ → Prop) : Prop :=
  match a s with
  | .ok (x, s') => Q x s'
  | .error _ => ¬ safe

/-- The result of an action that may fail has a property, and so has its error. -/
def Tries (safe : Prop) (a : Trying σ α) (s : σ) (Q : α → σ → Prop) (E : Error → σ → Prop) : Prop :=
  Does safe a.run s fun r s' => match r with
    | .ok x => Q x s'
    | .error e => E e s'

theorem Does.of_eq (h : Does safe a s Q) {x : α} {s' : σ} (hr : a s = .ok (x, s')) : Q x s' := by
  rwa [Does, hr] at h

theorem does_of_forall (h : ∀ x s', a s = .ok (x, s') → Q x s') : Does False a s Q := by
  unfold Does
  split
  · rename_i x s' hr
    exact h x s' hr
  · exact id

theorem Does.not_defect (h : Does safe a s Q) (hs : safe) : ∃ x s', a s = .ok (x, s') := by
  unfold Does at h
  split at h
  · rename_i x s' hr
    exact ⟨x, s', hr⟩
  · exact absurd hs h

theorem Tries.of_ok {a : Trying σ α} (h : Tries safe a s Q E) {x : α} {s' : σ} (hr : a s = .ok (.ok x, s')) : Q x s' :=
  Does.of_eq h hr

theorem Tries.of_error {a : Trying σ α} (h : Tries safe a s Q E) {e : Error} {s' : σ}
    (hr : a s = .ok (.error e, s')) : E e s' :=
  Does.of_eq h hr

theorem Does.imp (h : Does safe a s P) (hQ : ∀ x s', P x s' → Q x s') : Does safe a s Q := by
  unfold Does at h ⊢
  split
  · rename_i x s' hr
    rw [hr] at h
    exact hQ x s' h
  · rename_i d hr
    rwa [hr] at h

theorem Tries.imp {a : Trying σ α} (h : Tries safe a s P F) (hQ : ∀ x s', P x s' → Q x s')
    (hE : ∀ e s', F e s' → E e s') : Tries safe a s Q E := by
  refine Does.imp h ?_
  intro r s' hr
  cases r with
  | ok x => exact hQ x s' hr
  | error e => exact hE e s' hr

theorem Does.and (h : Does safe a s P) (h' : Does safe' a s Q) :
    Does safe a s fun x s' => P x s' ∧ Q x s' := by
  unfold Does at h h' ⊢
  split
  · rename_i x s' hr
    rw [hr] at h h'
    exact ⟨h, h'⟩
  · rename_i d hr
    rwa [hr] at h

theorem Tries.and {a : Trying σ α} (h : Tries safe a s P E) (h' : Tries safe' a s Q F) :
    Tries safe a s (fun x s' => P x s' ∧ Q x s') fun e s' => E e s' ∧ F e s' := by
  refine (Does.and h h').imp ?_
  intro r s' hr
  cases r with
  | ok x => exact hr
  | error e => exact hr

theorem Does.and_eq (h : Does safe a s Q) :
    Does safe a s fun x s' => a s = .ok (x, s') ∧ Q x s' := by
  unfold Does at h ⊢
  split
  · rename_i x s' hr
    rw [hr] at h
    exact ⟨hr, h⟩
  · rename_i d hr
    rwa [hr] at h

theorem Tries.and_eq {a : Trying σ α} (h : Tries safe a s Q E) :
    Tries safe a s (fun x s' => a s = .ok (.ok x, s') ∧ Q x s') E := by
  refine (Does.and_eq h).imp ?_
  rintro r s' ⟨hr, hQ⟩
  cases r with
  | ok x => exact ⟨hr, hQ⟩
  | error e => exact hQ

theorem Does.of_exists (h : Does False a s Q) (hs : safe → ∃ x s', a s = .ok (x, s')) : Does safe a s Q := by
  unfold Does at h ⊢
  split
  · rename_i x s' hr
    rwa [hr] at h
  · rename_i d hr
    intro hsafe
    obtain ⟨x, s', hr'⟩ := hs hsafe
    cases hr.symm.trans hr'

theorem does_pure (h : Q x s) : Does safe (pure x : Doing σ α) s Q := h

theorem Does.bind (h : Does safe a s fun x s' => Does safe (f x) s' R) : Does safe (a >>= f) s R := by
  unfold Does at h ⊢
  cases hr : a s with
  | error d =>
    rw [hr] at h
    simpa [Bind.bind, StateT.bind, Except.bind, hr] using h
  | ok x =>
    rw [hr] at h
    simpa [Bind.bind, StateT.bind, Except.bind, hr] using h

theorem does_then (h : ∀ x s', Does False (f x) s' R) : Does False (a >>= f) s R := by
  apply Does.bind
  unfold Does
  split
  · exact h _ _
  · exact id

theorem does_ite {p : Prop} [Decidable p] {b : Doing σ α} (ha : Does safe a s Q) (hb : Does safe b s Q) :
    Does safe (if p then a else b) s Q := by
  split
  · exact ha
  · exact hb

theorem tries_pure (h : Q x s) : Tries safe (pure x : Trying σ α) s Q E := h

theorem tries_throw (h : E e s) : Tries safe (throw e : Trying σ α) s Q E := h

theorem tries_lift (h : Does safe a s Q) : Tries safe (liftM a : Trying σ α) s Q E := by
  unfold Tries Does
  unfold Does at h
  cases hr : a s with
  | error d =>
    rw [hr] at h
    have hlift : (liftM a : Trying σ α).run s = .error d := by
      change Except.bind (a s) _ = _
      rw [hr]
      rfl
    rw [hlift]
    exact h
  | ok x =>
    rw [hr] at h
    have hlift : (liftM a : Trying σ α).run s = .ok (.ok x.1, x.2) := by
      change Except.bind (a s) _ = _
      rw [hr]
      rfl
    rw [hlift]
    exact h

theorem Tries.bind {a : Trying σ α} {f : α → Trying σ β}
    (h : Tries safe a s (fun x s' => Tries safe (f x) s' R E) E) : Tries safe (a >>= f) s R E := by
  change Does safe (a.run >>= ExceptT.bindCont f) s _
  refine Does.bind (Does.imp h ?_)
  intro r s' hr
  cases r with
  | ok x => exact hr
  | error e => exact hr

theorem Tries.after {f : α → Trying σ β} (h : Does safe a s fun x s' => Tries safe (f x) s' R E) :
    Tries safe ((liftM a : Trying σ α) >>= f) s R E :=
  Tries.bind (tries_lift h)

theorem tries_tryCatch {a : Trying σ α} {handle : Error → Trying σ α}
    (h : Tries safe a s Q fun e s' => Tries safe (handle e) s' Q E) :
    Tries safe (tryCatch a handle) s Q E := by
  unfold Tries
  change Does safe (ExceptT.tryCatch a handle).run s _
  refine Does.bind (Does.imp h ?_)
  intro r s' hr
  cases r with
  | ok x => exact hr
  | error e => exact hr

theorem forall_of_eq_some {o : Option α} {a : α} {P : α → Prop} (ho : o = some a) (h : P a) :
    ∀ b, o = some b → P b := by
  intro b hb
  cases ho.symm.trans hb
  exact h

theorem does_get {Q : σ → σ → Prop} (h : Q s s) : Does safe (get : Doing σ σ) s Q := h

theorem does_modify {f : σ → σ} {Q : PUnit → σ → Prop} (h : Q ⟨⟩ (f s)) :
    Does safe (modify f : Doing σ PUnit) s Q := h

theorem does_modifyGet {f : σ → α × σ} (h : Q (f s).1 (f s).2) :
    Does safe (modifyGet f : Doing σ α) s Q := h

theorem tries_get {Q : σ → σ → Prop} (h : Q s s) : Tries safe (get : Trying σ σ) s Q E := h

theorem tries_modify {f : σ → σ} {Q : PUnit → σ → Prop} (h : Q ⟨⟩ (f s)) :
    Tries safe (modify f : Trying σ PUnit) s Q E := h

theorem bind_of_ok (h : a s = .ok (x, s')) : (a >>= f) s = f x s' := by
  change Except.bind (a s) _ = _
  rw [h]
  rfl

theorem bind_of_error {d : Defect} (h : a s = .error d) : (a >>= f) s = .error d := by
  change Except.bind (a s) _ = _
  rw [h]
  rfl

end General

variable {α : Type} {safe : Prop} {s : Store} {Q : α → Store → Prop} {d : Defect} {x : Instance}
  {f : FunctionId} {xs : List (Option α)} {k : Nat} {a : α}

theorem does_defect (h : ¬ safe) : Does safe (defect d : StoreM α) s Q := h

theorem does_expect {o : Option α} (hsafe : safe → ∃ a, o = some a)
    (h : ∀ a, o = some a → Q a s) : Does safe (expect d o) s Q := by
  cases o with
  | some a => exact h a rfl
  | none =>
    apply does_defect
    intro hs
    obtain ⟨a, ha⟩ := hsafe hs
    cases ha

section

open Store

theorem getInstance_of_some {i : InstanceId} (h : s.instances[i]? = some x) :
    getInstance i s = .ok (x, s) := by
  change expect .unset s.instances[i]? s = _
  rw [h]
  rfl

theorem getFunction_of_some {g : FunctionInstance} (h : s.functions[f]? = some g) :
    getFunction f s = .ok (g, s) := by
  change expect .unset s.functions[f]? s = _
  rw [h]
  rfl

theorem getCode_of_some {i : InstanceId} {code : LinkedCode} (hx : s.instances[i]? = some x)
    (hc : x.code = some code) : getCode i s = .ok (code, s) := by
  refine (bind_of_ok (getInstance_of_some hx)).trans ?_
  rw [hc]
  rfl

variable {enter : Enter} {i : InstanceId} {code : Code} {params : List UInt64} {depth : Nat}

theorem enterCode_of_deep {canceled : Bool} (h : maxCallDepth ≤ depth) :
    enterCode canceled enter i code params depth = pure (.error (.trap .callStackOverflow 0 none)) :=
  if_pos h

theorem enterCode_of_canceled (h : ¬maxCallDepth ≤ depth) :
    enterCode true enter i code params depth = pure (.error (.ofMark .canceled)) :=
  if_neg h

theorem enterCode_of_open (h : ¬maxCallDepth ≤ depth) :
    enterCode false enter i code params depth = runCode enter i code params depth :=
  if_neg h

end

section

open Store

theorem does_getInstance {i : InstanceId} {Q : Instance → Store → Prop}
    (hsafe : safe → ∃ x, s.instances[i]? = some x) (h : ∀ x, s.instances[i]? = some x → Q x s) :
    Does safe (getInstance i) s Q :=
  Does.bind (does_get (does_expect hsafe h))

theorem does_getCode {i : InstanceId} {Q : LinkedCode → Store → Prop}
    (h : ∀ x c, s.instances[i]? = some x → x.code = some c → Q c s) : Does False (getCode i) s Q :=
  Does.bind (does_getInstance False.elim fun x hx => does_expect False.elim fun c hc => h x c hx hc)

theorem does_getFunction {Q : FunctionInstance → Store → Prop}
    (hsafe : safe → ∃ x, s.functions[f]? = some x) (h : ∀ x, s.functions[f]? = some x → Q x s) :
    Does safe (getFunction f) s Q :=
  Does.bind (does_get (does_expect hsafe h))

theorem does_getTable {t : TableId} {Q : Table FunctionId → Store → Prop}
    (hsafe : safe → ∃ x, s.tables[t]? = some x) (h : ∀ x, s.tables[t]? = some x → Q x s) :
    Does safe (getTable t) s Q :=
  Does.bind (does_get (does_expect hsafe h))

theorem does_getMemory {m : MemoryId} {Q : Memory InstanceId → Store → Prop}
    (hsafe : safe → ∃ x, s.memories[m]? = some x) (h : ∀ x, s.memories[m]? = some x → Q x s) :
    Does safe (getMemory m) s Q :=
  Does.bind (does_get (does_expect hsafe h))

theorem does_getGlobal {g : GlobalId} {Q : GlobalInstance → Store → Prop}
    (hsafe : safe → ∃ x, s.globals[g]? = some x) (h : ∀ x, s.globals[g]? = some x → Q x s) :
    Does safe (getGlobal g) s Q :=
  Does.bind (does_get (does_expect hsafe h))

theorem does_checked {e : Except Defect α} (hsafe : safe → ∃ a, e = .ok a) (h : ∀ a, e = .ok a → Q a s) :
    Does safe (checked e) s Q := by
  cases e with
  | ok a => exact h a rfl
  | error d =>
    apply does_defect
    intro hs
    obtain ⟨a, ha⟩ := hsafe hs
    cases ha

theorem does_entry (hsafe : safe → ∃ a, xs[k]? = some (some a))
    (h : ∀ a, xs[k]? = some (some a) → Q a s) : Does safe (entry xs k) s Q := by
  unfold entry
  cases hx : xs[k]? with
  | none =>
    apply does_defect
    intro hs
    obtain ⟨a, ha⟩ := hsafe hs
    rw [hx] at ha
    cases ha
  | some o =>
    apply does_expect
    · intro hs
      obtain ⟨a, ha⟩ := hsafe hs
      exact ⟨a, Option.some.inj (hx.symm.trans ha)⟩
    · rintro a rfl
      exact h a hx

theorem does_entry_some (ha : xs[k]? = some (some a)) (h : Q a s) : Does safe (entry xs k) s Q := by
  refine does_entry (fun _ => ⟨a, ha⟩) fun b hb => ?_
  cases ha.symm.trans hb
  exact h

theorem does_setEntry {Q : List (Option α) → Store → Prop}
    (hsafe : safe → k < xs.length) (h : k < xs.length → Q (xs.set k (some a)) s) :
    Does safe (setEntry xs k a) s Q := by
  unfold setEntry
  split
  · rename_i hk
    exact h hk
  · rename_i hk
    exact fun hs => hk (hsafe hs)

theorem does_setGlobal {id : GlobalId} {v : UInt64} {Q : Unit → Store → Prop}
    (hsafe : safe → ∃ g bytes, s.globals[id]? = some g ∧ s.storages[g.storage]? = some bytes ∧
      0 < g.type.valType.size)
    (h : ∀ g bytes bytes', s.globals[id]? = some g → s.storages[g.storage]? = some bytes →
      g.write bytes v = .ok bytes' → Q () { s with storages := s.storages.setIfInBounds g.storage bytes' }) :
    Does safe (setGlobal id v) s Q := by
  refine Does.bind (does_getGlobal ?_ ?_)
  · intro hs
    obtain ⟨g, _, hg, -⟩ := hsafe hs
    exact ⟨g, hg⟩
  · intro g hg
    refine Does.bind (does_get (Does.bind (does_expect ?_ ?_)))
    · intro hs
      obtain ⟨g', bytes, hg', hbytes, -⟩ := hsafe hs
      cases hg.symm.trans hg'
      exact ⟨bytes, hbytes⟩
    · intro bytes hbytes
      refine Does.bind (does_checked ?_ ?_)
      · intro hs
        obtain ⟨g', _, hg', -, hpos⟩ := hsafe hs
        cases hg.symm.trans hg'
        exact ⟨_, if_neg (Nat.ne_of_gt hpos)⟩
      · intro bytes' hbytes'
        exact does_modify (h g bytes bytes' hg hbytes hbytes')

/-- Nothing but the list of signatures changes. It gets longer unless it has the signature, and none is in it
twice. -/
theorem does_typeId {t : FuncType} {Q : Nat → Store → Prop}
    (h : ∀ k signatures, s.signatures <+: signatures → signatures[k]? = some t.text →
      (s.signatures.Nodup → signatures.Nodup) → Q k { s with signatures }) : Does safe (typeId t) s Q := by
  apply does_modifyGet
  split
  · rename_i k hk
    obtain ⟨hlt, htext, -⟩ := findIdx?_eq_some_iff_getElem.mp hk
    refine h k s.signatures (prefix_refl _) ?_ id
    rw [getElem?_eq_getElem hlt, beq_iff_eq.mp htext]
  · rename_i hnone
    refine h _ _ (prefix_append _ _) getElem?_concat_length fun hnodup => ?_
    have hnew : t.text ∉ s.signatures := by
      intro hmem
      simpa using findIdx?_eq_none_iff.mp hnone _ hmem
    refine nodup_append.mpr ⟨hnodup, by simp, ?_⟩
    rintro a ha b hb rfl
    exact hnew (mem_singleton.mp hb ▸ ha)

end

end StoreM

end ProtoWasm
