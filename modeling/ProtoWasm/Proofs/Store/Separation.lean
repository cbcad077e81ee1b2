import ProtoWasm.Proofs.Store.Initialization

/-! # Globals of an instance do not interfere -/
namespace ProtoWasm.Store

open List StoreM

variable {s s' s₀ : Store} {m : Module} {name : String} {x x' : Instance} {key : ModuleKey} {source : List UInt8}
  {limit maxPages k : Nat} {seen : List Section} {checks : Option Module.Checks} {g : Global}

/-- A global that an instance defines is apart from all others that it has. -/
theorem Complete.apart (hb : m.Built source limit seen) (hlaid : m.Laid) (hs : s₀.Sound) (hc : Complete s₀ m name s x)
    (hg : m.globals[k]? = some g) (hk : m.importedGlobals ≤ k) : ∃ id view v, x.globals[k]? = some (some id) ∧
      s.globals[id]? = some view ∧ view.type = g.type ∧ evalConst x.globals g.init s₀ = .ok (v, s₀) ∧
      globalValue id s = .ok (g.type.valType.cut v, s) ∧ ∀ (j : Nat) id', j ≠ k →
        x.globals[j]? = some (some id') → ∃ view', s.globals[id']? = some view' ∧ view'.Apart view := by
  obtain ⟨id, storage, v, hid, hle, hview, heval, hv⟩ := hc.held hs hlaid k g hg hk
  refine ⟨id, _, v, Option.join_eq_some_iff.mp hid, hview, rfl, heval, hv, ?_⟩
  intro j id' hne hid'
  have hj : j < m.globals.length := hc.drafted.2.globals ▸ (List.getElem?_eq_some_iff.mp hid').1
  by_cases himp : j < m.importedGlobals
  · have ht : m.importedGlobalTypes[j]? = some m.globals[j].type := by
      rw [Module.importedGlobalTypes, getElem?_map, getElem?_take_of_lt himp, getElem?_eq_getElem hj]
      rfl
    obtain ⟨id₀, hid₀, -, hlt⟩ := sameImports_of_bound hb hs hc.bound j _ ht
    cases hid'.symm.trans (Option.join_eq_some_iff.mp hid₀)
    have hold := Array.getElem?_eq_getElem hlt
    obtain ⟨-, bytes, hbytes, -⟩ := hs.views _ _ hold
    have hlt' := lt_size hbytes
    refine ⟨_, hc.drafted.2.kept.globals _ _ hold, fun hsame => ?_⟩
    exact absurd (hsame ▸ hle) (Nat.not_le.mpr hlt')
  · obtain ⟨id₀, storage₀, -, hid₀, -, hview₀, -⟩ :=
      hc.held hs hlaid j _ (getElem?_eq_getElem hj) (Nat.le_of_not_lt himp)
    cases hid'.symm.trans (Option.join_eq_some_iff.mp hid₀)
    refine ⟨_, hview₀, fun _ => ?_⟩
    obtain ⟨hlt, rfl⟩ := List.getElem?_eq_some_iff.mp hg
    have hdefined := (hb.definedGlobal hg hk).2.1
    have hdefined' := (hb.definedGlobal (getElem?_eq_getElem hj) (Nat.le_of_not_lt himp)).2.1
    have hplaces := pairwise_iff_getElem.mp hlaid.2
    rcases Nat.lt_or_gt_of_ne hne with h | h
    · exact .inl (hplaces j k hj hlt h hdefined' hdefined)
    · exact .inr (hplaces k j hlt hj h hdefined hdefined')

/-- The globals that a module defines have aligned places without a byte in common, which a number of 32 bits can tell.
In an instance of the module, values can be set on globals in any order. A global that the module defines then has the
last value that was set on it, cut to its width, or the value that it had before: at first that is the value of its
initializer. -/
theorem instantiate_separates (hm : Module.decodeUnder source maxPages checks = .ok m)
    (hsource : source.length < 2 ^ 31) : (∀ g ∈ m.globals, g.imported = false →
      g.type.valType.size ∣ g.offset ∧ g.offset + g.type.valType.size ≤ m.globalsSize) ∧
    (m.globals.Pairwise fun g g' => g.imported = false → g'.imported = false →
      g.offset + g.type.valType.size ≤ g'.offset) ∧ m.globalsSize < 2 ^ 32 ∧
    ∀ (s s' : Store) key name startDisabled canceled i, s.Sound →
      instantiate key m name startDisabled canceled s = .ok (.ok i, s') → ∃ x, s'.instances[i]? = some x ∧
      ∀ t : Store, s'.Later t → t.Sound → ∀ sets, (∀ w ∈ sets, w.1 < m.globals.length) →
        ∃ t', setGlobals x.globals sets t = .ok ((), t') ∧
        ∀ k g, m.globals[k]? = some g → m.importedGlobals ≤ k → ∃ id v, x.globals[k]? = some (some id) ∧
          globalValue id t = .ok (v, t) ∧
          globalValue id t' = .ok (((lastSet? sets k).map g.type.valType.cut).getD v, t') ∧
          (startDisabled = true → t = s' →
            ∃ w, evalConst x.globals g.init s = .ok (w, s) ∧ v = g.type.valType.cut w) := by
  obtain ⟨seen, hb⟩ := Module.built_decodeUnder hm
  obtain ⟨hlaid, hsize⟩ := hb.laid (Nat.lt_of_le_of_lt hb.small (by omega))
  refine ⟨hlaid.1, hlaid.2, hsize, ?_⟩
  intro s s' key name startDisabled canceled i hs hr
  have hsteps : Tries False (instantiate key m name startDisabled canceled) s _ _ :=
    tries_instantiate_steps (tries_prepare_outfit hb rfl) startDisabled canceled
  obtain ⟨rfl, x', s₂, ⟨x, s₁, -, hcomplete, ha⟩, hpublish⟩ := hsteps.of_ok hr
  obtain ⟨s₃, y, exports, exported, metrics, hevolves, hsame, hy, -, rfl⟩ := hpublish
  have hkept : s₂.globals = s₁.globals ∧ s₂.storages = s₁.storages := by
    have hwrites := writes_writeAll s₁ (x.module.elements.flatMap (segmentWrites s₁ x))
    obtain ⟨memories, rfl⟩ := ha.result
    exact ⟨hwrites.1.globals, hwrites.2⟩
  have hlives := hevolves.lives
  obtain ⟨y', hy', hshape⟩ := hlives.instance (ha.stored hcomplete)
  cases hy.symm.trans hy'
  have hspace : y.globals = x.globals := by
    obtain ⟨code, -, rfl⟩ := ha.linked
    exact (congrArg Instance.globals hshape :)
  refine ⟨{ y with exports, exported }, ?_, fun t hl ht sets hsets => ?_⟩
  · rw [Array.getElem?_modify, if_pos rfl, hy]
    rfl
  simp only [hspace]
  have hstays {id : GlobalId} {view : GlobalInstance} (hview : s₁.globals[id]? = some view) :
      t.globals[id]? = some view := hl.globals id view ((congrArg (·[id]?) (hlives.globals.trans hkept.1)).trans hview)
  have hdoes : Does True (setGlobals x.globals sets) t _ := does_setGlobals ht fun w hw => by
    obtain ⟨id, view, hid, hview, -⟩ := hcomplete.conforms.global (getElem?_eq_getElem (hsets w hw))
    exact ⟨id, view, hid, hstays hview⟩
  obtain ⟨_, t', ht'⟩ := hdoes.not_defect trivial
  refine ⟨t', ht', fun k g hg hk => ?_⟩
  obtain ⟨id, view, w, hid, hview, htype, heval, hw, hapart⟩ := hcomplete.apart hb hlaid hs hg hk
  obtain ⟨v, hv, -⟩ := (Extends.refl t).globalValue ht (lt_size (hstays hview))
  refine ⟨id, v, hid, hv, ?_, fun hstart heq => ⟨w, heval, ?_⟩⟩
  · rw [← htype]
    refine hdoes.of_eq ht' k id view v hid (hstays hview) (fun j id' view' hne hid' hview' => ?_) hv
    obtain ⟨view₁, hview₁, hapart⟩ := hapart j id' hne hid'
    cases hview'.symm.trans (hstays hview₁)
    exact hapart
  · obtain rfl := hsame hstart
    have hw' : globalValue id t = .ok (g.type.valType.cut w, t) := by
      rw [heq]
      refine (observes_globalValue id).eq_of_ok ?_ ?_ hw
      · exact hkept.1
      · exact hkept.2
    cases hv.symm.trans hw'
    rfl

/-- The imported global is set after the one that the module defines, which keeps the low half of its value. -/
theorem instantiate_separates_launching :
    ∃ m c s' x t' id, Module.decodeUnder launching 0 (some .all) = .ok m ∧ m.compile {} false = .ok c ∧
      instantiate 0 m "main" true false (hosted.loaded c) = .ok (.ok 0, s') ∧ s'.instances[0]? = some x ∧
      setGlobals x.globals [(1, 4294967301), (0, 9)] s' = .ok ((), t') ∧ x.globals[1]? = some (some id) ∧
      globalValue id t' = .ok (5, t') := by
  obtain ⟨m, c, s', hm, hc, h⟩ := exists_launched
  have hglobals : (Module.decodeUnder launching 0 (some .all)).toOption.map
      (fun m => (m.importedGlobals, m.globals.map (·.type.valType))) = some (1, [.i32, .i32]) := by decide +kernel
  rw [hm] at hglobals
  obtain ⟨himported, htypes⟩ := Prod.mk.inj (Option.some.inj hglobals)
  have hlength : m.globals.length = 2 := by simpa using congrArg List.length htypes
  have hsound := reachable_hosted.sound.loaded c
  obtain ⟨seen, hb⟩ := Module.built_decodeUnder hm
  obtain ⟨-, -, -, hset⟩ := instantiate_separates hm (by decide +kernel)
  obtain ⟨x, hx, hset⟩ := hset _ s' 0 "main" true false 0 hsound h
  obtain ⟨t', ht', hset⟩ :=
    hset s' (.refl s') (sound_instantiate hb h hsound) [(1, 4294967301), (0, 9)] (by simp [hlength])
  have hg := getElem?_eq_getElem (hlength ▸ Nat.one_lt_two : 1 < m.globals.length)
  obtain ⟨id, v, hid, -, hv, -⟩ := hset 1 _ hg (Nat.le_of_eq himported)
  have htype : m.globals[1].type.valType = .i32 := by
    have := congrArg (·[1]?) htypes
    simpa [getElem?_map, hg] using this
  rw [htype] at hv
  exact ⟨m, c, s', x, t', id, hm, hc, h, hx, ht', hid, hv⟩

end ProtoWasm.Store
