import ProtoWasm.Proofs.Code.Linking
import ProtoWasm.Proofs.Store.Binding

/-! # An instance gets the code of its module -/
namespace ProtoWasm.Store

open StoreM

variable {safe : Prop} {s : Store} {m : Module} {key : ModuleKey} {functions : List (Option FunctionId)}
  {k : Nat} {id : FunctionId}

inductive Imports (s : Store) (k : Nat) (id : FunctionId) : Code → Prop
  | adapter : Imports s k id (.importAdapter k id)
  | reuse {f : FunctionInstance} {y : Instance} {code : LinkedCode} (hs : s.config.shortcut = true)
      (hf : s.functions[id]? = some f) (hh : f.host = none) (hy : s.instances[f.owner]? = some y)
      (hc : y.code = some code) : Imports s k id (.reuse k id)

theorem does_importCode (hsafe : safe → s.Sound) {f : FunctionInstance} (hf : s.functions[id]? = some f) :
    Does safe (importCode k id) s fun c s' => s' = s ∧ s.Imports k id c := by
  refine Does.bind (does_getFunction (fun _ => ⟨f, hf⟩) (forall_of_eq_some hf ?_))
  refine Does.bind (does_getInstance (fun hs => ?_) ?_)
  · exact ⟨_, Array.getElem?_eq_getElem ((hsafe hs).owners id f hf)⟩
  · intro y hy
    refine Does.bind (does_get ?_)
    split
    · rename_i h
      simp only [Bool.and_eq_true, Option.isNone_iff_eq_none] at h
      obtain ⟨⟨hh, hs⟩, hlinked⟩ := h
      obtain ⟨code, hc⟩ := Option.isSome_iff_exists.mp hlinked
      exact does_pure ⟨rfl, .reuse hs hf hh hy hc⟩
    · exact does_pure ⟨rfl, .adapter⟩

structure BindsImports (s : Store) (functions : List (Option FunctionId)) (count k : Nat) (t t' : CodeTable) :
    Prop where
  relocs : t'.relocs = t.relocs
  imports : ∀ j, k ≤ j → j < k + count →
    ∃ id c, functions[j]? = some (some id) ∧ s.Imports j id c ∧ t'.entries[j]? = some c
  others : ∀ j, j < k ∨ k + count ≤ j → t'.entries[j]? = t.entries[j]?

theorem BindsImports.step {count : Nat} {t t' : CodeTable} {c : Code}
    (hid : functions[k]? = some (some id)) (hc : s.Imports k id c) (hk : k < t.entries.length)
    (h : s.BindsImports functions count (k + 1) (t.setEntry k c) t') :
    s.BindsImports functions (count + 1) k t t' := by
  have hset (j : Nat) : (t.setEntry k c).entries[j]? = if k = j then some c else t.entries[j]? := by
    simp only [CodeTable.setEntry, List.getElem?_set, hk, if_true]
  refine ⟨h.relocs, fun j hj hlt => ?_, fun j hj => ?_⟩
  · by_cases heq : j = k
    · subst heq
      refine ⟨id, c, hid, hc, ?_⟩
      rw [h.others j (.inl (Nat.lt_succ_self j)), hset, if_pos rfl]
    · exact h.imports j (by omega) (by omega)
  · rw [h.others j (by omega), hset, if_neg (by omega)]

theorem tries_bindImports {E : Error → Store → Prop} (hsafe : safe → s.Sound) {count : Nat} {t : CodeTable}
    (hin : ∀ j < k + count, ∃ id f, functions[j]? = some (some id) ∧ s.functions[id]? = some f)
    (ht : safe → k + count ≤ t.entries.length) :
    Tries safe (bindImports functions count k t) s (fun t' s' => s' = s ∧ s.BindsImports functions count k t t')
      E := by
  induction count generalizing k t with
  | zero => exact tries_pure ⟨rfl, rfl, fun j hj hlt => absurd hlt (by omega), fun _ _ => rfl⟩
  | succ count ih =>
    obtain ⟨id, f, hid, hf⟩ := hin k (by omega)
    unfold bindImports
    rw [hid]
    refine Tries.after ((does_importCode hsafe hf).imp ?_)
    rintro code _ ⟨rfl, hcode⟩
    split
    · rename_i hlen
      refine tries_lift (does_defect fun hs => ?_)
      have := ht hs
      omega
    · rename_i hlen
      refine (ih ?_ ?_).imp ?_ fun _ _ h => h
      · intro j hj
        exact hin j (by omega)
      · intro hs
        have := ht hs
        simp only [CodeTable.setEntry, List.length_set]
        omega
      · rintro t' _ ⟨rfl, hbound⟩
        exact ⟨rfl, hbound.step hid hcode (Nat.lt_of_not_le hlen)⟩

/-- Code that was linked with functions and a memory of the store. -/
structure Links (s : Store) (key : ModuleKey) (m : Module) (functions : List (Option FunctionId))
    (memory : Option MemoryId) (code : LinkedCode) : Prop where
  cached : s.cache.find? key = some code.compiled
  table : ∃ t, s.BindsImports functions m.importedFunctions 0 code.compiled.table t ∧ code.table = t.link
  opened : code.closed = false
  sites : ∀ id, memory = some id →
    ∃ mem, s.memories[id]? = some mem ∧ code.memorySites = LinkedCode.sitesOf code.table (mem.extent id)

/-- Linking fails only if the module was not compiled, or if a place still refers to a placeholder. -/
theorem tries_linkInstance (hsafe : safe → s.Sound) {name : String} {memory : Option MemoryId}
    (hin : ∀ j < m.importedFunctions, ∃ id f, functions[j]? = some (some id) ∧ s.functions[id]? = some f)
    (hmemory : ∀ id, memory = some id → id < s.memories.size)
    (hcode : safe → ∀ c, s.cache.find? key = some c → m.importedFunctions ≤ c.table.entries.length) :
    Tries safe (linkInstance name key m functions memory) s
      (fun code s' => s' = s ∧ code.name = name ∧ s.Links key m functions memory code)
      fun e s' => s' = s ∧ Unfit e ∧ ∀ c, s.cache.find? key = some c →
        ∃ t, s.BindsImports functions m.importedFunctions 0 c.table t ∧ t.link.unresolved ≠ 0 := by
  refine Tries.bind (tries_get ?_)
  split
  · rename_i hnone
    refine tries_throw ⟨rfl, ⟨_, rfl, by simp⟩, fun c hc => ?_⟩
    cases hnone.symm.trans hc
  · rename_i c hc
    refine Tries.bind ((tries_bindImports hsafe ?_ ?_).imp ?_ fun _ _ h => h)
    · intro j hj
      exact hin j (by omega)
    · intro hs
      have := hcode hs c hc
      omega
    · rintro t _ ⟨rfl, hbound⟩
      dsimp only
      split
      · rename_i hunresolved
        exact tries_throw ⟨rfl, ⟨_, rfl, by simp⟩, forall_of_eq_some hc ⟨t, hbound, hunresolved⟩⟩
      · cases memory with
        | none => exact tries_pure ⟨rfl, rfl, hc, ⟨t, hbound, rfl⟩, rfl, fun _ h => nomatch h⟩
        | some id =>
          refine Tries.after (does_getMemory (fun _ => ⟨_, Array.getElem?_eq_getElem (hmemory id rfl)⟩) ?_)
          intro mem hmem
          refine tries_pure ⟨rfl, rfl, hc, ⟨t, hbound, rfl⟩, rfl, ?_⟩
          rintro _ ⟨⟩
          exact ⟨mem, hmem, rfl⟩

end ProtoWasm.Store
