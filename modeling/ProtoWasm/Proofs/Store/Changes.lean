import ProtoWasm.Proofs.Store.Reachable

/-! # What operations change

Three things can happen to functions, tables and instances. Most operations add nothing and write no table. A
table may be added. And a module may be instantiated, which adds functions and tables, and writes elements if
the new instance gets code.
-/
namespace ProtoWasm

open Store in
/-- An instance with the same at its indices, and with the same code unless that was closed. -/
structure Instance.Continues (x x' : Instance) : Prop where
  name : x'.name = x.name
  module : x'.module = x.module
  functions : x'.functions = x.functions
  tables : x'.tables = x.tables
  globals : x'.globals = x.globals
  code : x'.code.map codeShape = x.code.map codeShape ∨
    x'.code.map codeShape = x.code.map fun c => codeShape c.close

namespace Instance.Continues

variable {x x' x'' : Instance}

theorem refl (x : Instance) : x.Continues x := ⟨rfl, rfl, rfl, rfl, rfl, .inl rfl⟩

open Store in
theorem map_close {c c' : Option LinkedCode} (h : c'.map codeShape = c.map codeShape) :
    (c'.map fun c => codeShape c.close) = c.map fun c => codeShape c.close := by
  have hclose : ∀ c : Option LinkedCode,
      (c.map fun c => codeShape c.close) = (c.map codeShape).map fun c => codeShape c.close := by
    intro c
    cases c <;> rfl
  rw [hclose, h, ← hclose]

theorem trans (h : x.Continues x') (h' : x'.Continues x'') : x.Continues x'' where
  name := h'.name.trans h.name
  module := h'.module.trans h.module
  functions := h'.functions.trans h.functions
  tables := h'.tables.trans h.tables
  globals := h'.globals.trans h.globals
  code := by
    rcases h'.code with h' | h'
    · rw [h']
      exact h.code
    · rcases h.code with h | h
      · exact .inr (h'.trans (map_close h))
      · -- what is closed stays closed
        refine .inr (h'.trans ?_)
        cases hx : x.code with
        | none =>
          rw [hx] at h
          rw [Option.map_eq_none_iff.mp h]
        | some c =>
          rw [hx] at h
          obtain ⟨c', hc', hshape⟩ := Option.map_eq_some_iff.mp h
          rw [hc']
          simp only [Store.codeShape, LinkedCode.close, LinkedCode.mk.injEq] at hshape
          simp [Store.codeShape, LinkedCode.close, hshape]

theorem isSome_code (h : x.Continues x') : x'.code.isSome = x.code.isSome := by
  rcases h.code with h | h
  all_goals simpa using congrArg Option.isSome h

end Instance.Continues

namespace Store

open StoreM

variable {s s' s'' : Store} {x x' : Instance} {canceled : Bool} {i : InstanceId}

/-- Nothing was added, no table was written, and signatures keep their numbers. -/
structure Stays (s s' : Store) : Prop where
  config : s'.config = s.config
  functions : s'.functions = s.functions
  tables : s'.tables = s.tables
  count : s'.instances.size = s.instances.size
  instances : ∀ (k : InstanceId) x, s.instances[k]? = some x → ∃ x', s'.instances[k]? = some x' ∧ x.Continues x'
  numbered : s.signatures <+: s'.signatures ∧ (s.signatures.Nodup → s'.signatures.Nodup)

namespace Stays

theorem refl (s : Store) : s.Stays s where
  config := rfl
  functions := rfl
  tables := rfl
  count := rfl
  instances _ x hx := ⟨x, hx, .refl x⟩
  numbered := ⟨List.prefix_refl _, id⟩

theorem trans (h : s.Stays s') (h' : s'.Stays s'') : s.Stays s'' where
  config := h'.config.trans h.config
  functions := h'.functions.trans h.functions
  tables := h'.tables.trans h.tables
  count := h'.count.trans h.count
  instances := by
    intro k x hx
    obtain ⟨x', hx', hc⟩ := h.instances k x hx
    obtain ⟨x'', hx'', hc'⟩ := h'.instances k x' hx'
    exact ⟨x'', hx'', hc.trans hc'⟩
  numbered := ⟨h.numbered.1.trans h'.numbered.1, fun hs => h'.numbered.2 (h.numbered.2 hs)⟩

theorem modify (s : Store) (i : InstanceId) {f : Instance → Instance}
    (hf : ∀ x, s.instances[i]? = some x → x.Continues (f x)) :
    s.Stays { s with instances := s.instances.modify i f } :=
  { refl s with
    count := Array.size_modify
    instances := by
      intro k x hx
      rw [Array.getElem?_modify]
      split
      · rename_i hk
        subst hk
        exact ⟨f x, by rw [hx, Option.map_some], hf x hx⟩
      · exact ⟨x, hx, .refl x⟩ }

end Stays

theorem Stays.tell (s : Store) (e : Extent) (is : List InstanceId) :
    s.Stays { s with instances := tell e is s.instances } := by
  induction is generalizing s with
  | nil => exact .refl s
  | cons i is ih =>
    have hcode (x : Instance) : x.Continues (x.told e) := by
      refine ⟨rfl, rfl, rfl, rfl, rfl, .inl ?_⟩
      rw [Instance.told, Option.map_map]
      rfl
    exact (Stays.modify s i fun x _ => hcode x).trans (ih _)

theorem Evolves.stays (h : s.Evolves s') : s.Stays s' := by
  induction h with
  | refl s => exact .refl s
  | trans _ _ ih ih' => exact ih.trans ih'
  | signatures s hfirst hnodup => exact { Stays.refl s with numbered := ⟨hfirst, hnodup⟩ }
  | log s | metrics s => exact { Stays.refl s with }
  | @write s | @storage s => exact { Stays.refl s with }
  | @grow s k m m' delta =>
    have htold := Stays.tell s (m'.extent k) (m.notified delta)
    exact { htold with }

theorem stays_shut (s : Store) (i : InstanceId) : s.Stays (s.shut i) := by
  refine .modify s i fun x _ => ⟨rfl, rfl, rfl, rfl, rfl, .inr ?_⟩
  rw [Option.map_map]
  rfl

theorem does_release_stays (s : Store) (i : InstanceId) : Does False (release i) s fun _ s' => s.Stays s' := by
  have hshut := stays_shut s i
  exact does_release_of_stored fun _ hy => does_release hy False.elim (fun _ => hshut) fun id mem _ _ => { hshut with }

theorem does_exportValue_inner (x : Instance) (e : Export) :
    Does False (exportValue x e) s fun v s' => s' = s ∧ ∀ h, v ≠ .host h := by
  unfold exportValue
  split
  · exact Does.bind (does_entry False.elim fun _ _ => does_pure ⟨rfl, fun _ => Extern.noConfusion⟩)
  · exact Does.bind (does_entry False.elim fun _ _ => does_pure ⟨rfl, fun _ => Extern.noConfusion⟩)
  · exact does_pure ⟨rfl, fun _ => Extern.noConfusion⟩
  · exact Does.bind (does_entry False.elim fun _ _ => does_pure ⟨rfl, fun _ => Extern.noConfusion⟩)
  · exact does_defect id

theorem does_exportValues_inner (x : Instance) {es : List Export} {values : List (String × Extern)}
    (hvalues : ∀ n h, values.lookup n ≠ some (.host h)) :
    Does False (exportValues x es values) s fun values' s' => s' = s ∧
      (∀ n h, values'.lookup n ≠ some (.host h)) ∧
      (∀ n, (values.lookup n).isSome = true → (values'.lookup n).isSome = true) ∧
      ∀ e ∈ es, (values'.lookup e.name).isSome = true := by
  induction es generalizing values with
  | nil => exact does_pure ⟨rfl, hvalues, fun _ h => h, fun e he => nomatch he⟩
  | cons e es ih =>
    refine Does.bind ((does_exportValue_inner x e).imp ?_)
    rintro v _ ⟨rfl, hv⟩
    refine (ih ?_).imp ?_
    · intro n h hn
      rw [lookup_assign] at hn
      split at hn
      · exact hv h (Option.some.inj hn)
      · exact hvalues n h hn
    · rintro values' _ ⟨rfl, hinner, hkept, hall⟩
      refine ⟨rfl, hinner, fun n hn => hkept n ?_, List.forall_mem_cons.mpr ⟨hkept _ ?_, hall⟩⟩
      · rw [lookup_assign]
        split
        · rfl
        · exact hn
      · rw [lookup_assign, if_pos BEq.rfl]
        rfl

theorem livesThrough_runStart (x : Instance) (canceled : Bool) : LivesThrough (runStart x canceled) := by
  unfold runStart
  split
  · exact livesThrough_pure _
  · refine (livesOn_entry _ _).lift.bind fun f s => Tries.bind (tries_tryCatch ?_)
    refine Does.imp (livesOn_call f [] canceled s) ?_
    intro r s' h
    cases r with
    | ok results => exact tries_pure h
    | error e => exact tries_throw h

/-- A module was instantiated, or not quite. -/
inductive Adds (s₀ : Store) (m : Module) (name : String) (key : ModuleKey) (s' : Store) : Prop
  /-- The new instance got no code. -/
  | pending {s : Store} {x : Instance} (hx : s.instances[s₀.instances.size]? = some x) (h : Pending s₀ m s x)
      (hs : s.Stays s')
  /-- The new instance got its code, and its elements were written. -/
  | activated {s s₁ : Store} {x x₁ : Instance} (h : Complete s₀ m name s x)
      (ha : Activated s₀.instances.size key s x s₁ x₁) (hs : s₁.Stays s')

variable {s₀ : Store} {m : Module} {name : String} {key : ModuleKey}

theorem Adds.stays (h : Adds s₀ m name key s) (hs : s.Stays s') : Adds s₀ m name key s' := by
  cases h with
  | pending hx h h' => exact .pending hx h (h'.trans hs)
  | activated h ha h' => exact .activated h ha (h'.trans hs)

structure Exports (m : Module) (x : Instance) : Prop where
  exports : x.exports = m.exports ++ implicitExport m
  exported : ∀ e ∈ x.exports, (x.exported? e.name).isSome = true
  /-- A function of the host is exported as the function of the instance that imports it. -/
  inner : ∀ n h, x.exported? n ≠ some (.host h)

/-- After the preparation of an instance its start function may have run, and then it got its exports. -/
def Publishes (i : InstanceId) (startDisabled : Bool) (s s' : Store) : Prop :=
  ∃ s₁ x exports exported metrics, s.Evolves s₁ ∧ (startDisabled = true → s₁ = s) ∧ s₁.instances[i]? = some x ∧
    Exports x.module { x with exports, exported } ∧
    s' = { s₁ with
      instances := s₁.instances.modify i fun _ => { x with exports, exported }
      names := Instance.publish { x with exports, exported } s₁.names
      metrics }

/-- The steps of an instantiation. If it fails, the instance is given back. -/
theorem tries_instantiate_steps {P : Instance → Store → Prop} {F : Error → Store → Prop}
    (hprepare : Tries False (prepare s.instances.size key)
      (s.withInstance name m) P F) (startDisabled canceled : Bool) :
    Tries False (instantiate key m name startDisabled canceled) s
      (fun i s' => i = s.instances.size ∧ ∃ x s₁, P x s₁ ∧ Publishes i startDisabled s₁ s')
      fun e s' => ∃ s₁ s₂ metrics, (F e s₁ ∨ startDisabled = false ∧ ∃ x s₀, P x s₀ ∧ s₀.Evolves s₁) ∧
        release s.instances.size s₁ = .ok ((), s₂) ∧ s' = { s₂ with metrics } := by
  have hpublish {x₁ : Instance} {s₁ s₂ : Store} (h₁ : P x₁ s₁) (he : s₁.Evolves s₂)
      (hs : startDisabled = true → s₂ = s₁) {E : Error → Store → Prop} :
      Tries False (publishAt s.instances.size) s₂ (fun _ s' => ∃ x s₁, P x s₁ ∧
        ∀ metrics, Publishes s.instances.size startDisabled s₁ { s' with metrics }) E := by
    refine Tries.after (does_getInstance False.elim fun x hx => ?_)
    refine Tries.after (Does.bind ((does_exportValues_inner x (by simp)).imp ?_))
    rintro values _ ⟨rfl, hinner, -, hall⟩
    refine Tries.after (does_modify (tries_publish.imp ?_ fun _ _ h => h))
    rintro - _ rfl
    exact ⟨x₁, s₁, h₁, fun metrics => ⟨_, x, _, values, metrics, he, hs, hx, ⟨rfl, hall, hinner⟩, rfl⟩⟩
  have hat : Tries False (instantiateAt s.instances.size key startDisabled canceled) (s.withInstance name m)
      (fun _ s' => ∃ x s₁, P x s₁ ∧ ∀ metrics, Publishes s.instances.size startDisabled s₁ { s' with metrics })
      fun e s₁ => F e s₁ ∨ startDisabled = false ∧ ∃ x s₀, P x s₀ ∧ s₀.Evolves s₁ := by
    unfold instantiateAt
    refine Tries.bind (hprepare.imp ?_ fun _ _ h => .inl h)
    intro x₁ s₁ h₁
    cases startDisabled with
    | true => exact hpublish h₁ (.refl s₁) fun _ => rfl
    | false =>
      refine Tries.bind ((livesThrough_runStart x₁ canceled s₁).imp ?_ fun _ s₂ h₂ => .inr ⟨rfl, x₁, s₁, h₁, h₂⟩)
      exact fun _ s₂ h₂ => hpublish h₁ h₂ nofun
  unfold instantiate
  refine Tries.after (does_modifyGet (Tries.bind (tries_tryCatch (hat.imp ?_ ?_))))
  · rintro - s₁ ⟨x, s₀, h₀, h₁⟩
    exact Tries.bind (tries_modify (tries_pure ⟨rfl, x, s₀, h₀, h₁ _⟩))
  · intro e s₁ h₁
    have hrelease : Does False (release s.instances.size) s₁ fun _ s₂ => release s.instances.size s₁ = .ok ((), s₂) :=
      does_of_forall fun _ _ h => h
    refine Tries.after (hrelease.imp fun _ s₂ h₂ => ?_)
    exact Tries.bind (tries_modify (tries_throw ⟨s₁, s₂, _, h₁, h₂, rfl⟩))

/-- Whatever is kept by the preparation of an instance, by calls, by exports and by giving an instance back is kept by
an instantiation. -/
theorem tries_instantiate_invariant {I : Store → Prop}
    (hprepare : Tries False (prepare s.instances.size key) (s.withInstance name m) (fun _ s' => I s') fun _ s' => I s')
    (hevolves : ∀ {s s' : Store}, I s → s.Evolves s' → I s')
    (hexport : ∀ {s : Store}, I s → ∀ (i : InstanceId) x exports exported names, s.instances[i]? = some x →
      I { s with instances := s.instances.modify i fun _ => { x with exports, exported }, names })
    (hrelease : ∀ {s : Store}, I s → ∀ i, Does False (release i) s fun _ s' => I s')
    (startDisabled canceled : Bool) :
    Tries False (instantiate key m name startDisabled canceled) s (fun _ s' => I s') fun _ s' => I s' := by
  refine (tries_instantiate_steps hprepare startDisabled canceled).imp ?_ ?_
  · rintro i _ ⟨-, x, s₁, h₁, s₂, y, exports, exported, metrics, he, -, hy, -, rfl⟩
    exact hevolves (hexport (hevolves h₁ he) i y exports exported _ hy) (.metrics _ _)
  · rintro e _ ⟨s₁, s₂, metrics, h₁ | ⟨-, x, s₀, h₀, he⟩, hr, rfl⟩
    · exact hevolves ((hrelease h₁ _).of_eq hr) (.metrics _ _)
    · exact hevolves ((hrelease (hevolves h₀ he) _).of_eq hr) (.metrics _ _)

theorem adds_of_instantiate {source : List UInt8} {limit : Nat} {seen : List Section}
    (hb : m.Built source limit seen) {startDisabled : Bool} {r : Except Error InstanceId}
    (h : instantiate key m name startDisabled canceled s₀ = .ok (r, s')) : Adds s₀ m name key s' := by
  have htries : Tries False (instantiate key m name startDisabled canceled) s₀
      (fun _ s' => Adds s₀ m name key s') fun _ s' => Adds s₀ m name key s' := by
    refine tries_instantiate_invariant ?_ (fun h hs => h.stays hs.stays) ?_ ?_ startDisabled canceled
    · refine (tries_prepare hb False.elim False.elim False.elim).imp ?_ ?_
      · rintro x₁ s₁ ⟨-, x, s, hx, ha⟩
        exact .activated hx ha (.refl s₁)
      · rintro e s₁ ⟨-, x, hx, h⟩
        exact .pending hx h (.refl s₁)
    · intro s h i x exports exported names hx
      have hput : s.Stays { s with instances := s.instances.modify i fun _ => { x with exports, exported } } :=
        .modify s i fun y hy => by
          cases hx.symm.trans hy
          exact { Instance.Continues.refl x with }
      exact h.stays { hput with }
    · exact fun h i => (does_release_stays _ i).imp fun _ _ => h.stays
  cases r with
  | ok i => exact htries.of_ok h
  | error e => exact htries.of_error h

theorem stays_of_compile {r : Except Error Unit} (h : Store.compile key m canceled s = .ok (r, s')) :
    s.Stays s' := by
  obtain ⟨cache, metrics, rfl⟩ := eq_of_compile h
  exact { Stays.refl s with }

theorem stays_of_addHostGlobal {t : GlobalType} {v : UInt64} {g : GlobalId}
    (h : addHostGlobal t v s = .ok (g, s')) : s.Stays s' := by
  have hdoes : Does False (addHostGlobal t v) s fun _ s' => s.Stays s' := by
    refine Does.bind (does_modifyGet (Does.bind (does_modifyGet ?_)))
    refine Does.bind ((livesOn_setGlobal _ v _).imp fun _ s₁ h₁ => does_pure ?_)
    have hadd : s.Stays { s with
        storages := s.storages.push (List.replicate t.valType.size 0)
        globals := s.globals.push ⟨t, s.storages.size, 0⟩ } := { Stays.refl s with }
    exact hadd.trans h₁.stays
  exact hdoes.of_eq h

theorem stays_of_relocate {target : Extent} {n : Nat}
    (h : Store.relocate i target s = .ok (n, s')) : s.Stays s' := by
  have hdoes : Does False (Store.relocate i target) s fun _ s' => s.Stays s' := by
    refine Does.bind (Does.bind (does_getInstance False.elim fun x hx => does_expect False.elim fun code hcode => ?_))
    refine Does.bind (does_modify (does_pure (.modify s i fun y hy => ?_)))
    cases hx.symm.trans hy
    exact ⟨rfl, rfl, rfl, rfl, rfl, .inl (by rw [hcode]; rfl)⟩
  exact hdoes.of_eq h

theorem stays_of_closeInstance {u : Unit} (h : Store.closeInstance i s = .ok (u, s')) :
    s.Stays s' := by
  have hdoes : Does False (Store.closeInstance i) s fun _ s' => s.Stays s' := by
    refine Does.bind (does_getInstance False.elim fun x _ => ?_)
    split
    · exact does_pure (.refl s)
    · exact does_release_stays s i
  exact hdoes.of_eq h

inductive Changes (s s' : Store) : Prop
  | stays (h : s.Stays s')
  | addTable {min max} (h : s' = { s with tables := s.tables.push (.create min max) })
  | adds {source : List UInt8} {limit : Nat} {seen : List Section} {m : Module} {name : String} {key : ModuleKey}
      (hb : m.Built source limit seen) (h : Adds s m name key s')

theorem Step.changes (h : Step s s') : Changes s s' := by
  cases h with
  | newKey | deleteCompiled key | register module field hv | removeName name | addMemory h | writeMemory h bytes
  | closeMemory h => exact .stays { Stays.refl s with }
  | foreignExtent h =>
    cases h
    exact .stays { Stays.refl s with }
  | compile h => exact .stays (stays_of_compile h)
  | addTable min max => exact .addTable rfl
  | addGlobal ht h => exact .stays (stays_of_addHostGlobal h)
  | typeId h => exact .stays ((livesOn_typeId _ s).of_eq h).stays
  | instantiate hm h =>
    obtain ⟨seen, hb⟩ := Module.built_decodeUnder hm
    exact .adds hb (adds_of_instantiate hb h)
  | call h => exact .stays ((livesOn_call _ _ _ s).of_eq h).stays
  | callVia h => exact .stays ((livesOn_callVia _ _ _ _ s).of_eq h).stays
  | growMemory h => exact .stays ((livesThrough_growMemory _ _).run s |>.of_eq h).stays
  | setGlobal h => exact .stays ((livesOn_setGlobal _ _ s).of_eq h).stays
  | relocate h => exact .stays (stays_of_relocate h)
  | closeInstance h => exact .stays (stays_of_closeInstance h)

end Store

end ProtoWasm
