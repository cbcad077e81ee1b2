import ProtoWasm.Proofs.Store.Elements

/-! # What the segments of a module initialize -/
namespace ProtoWasm.Store

open List StoreM

variable {s s' s₀ : Store} {m : Module} {name : String} {x x' : Instance} {key : ModuleKey} {source : List UInt8}
  {limit maxPages : Nat} {seen : List Section} {checks : Option Module.Checks}

section

variable (h : Grown s₀ m s)
include h

end

theorem Activated.stored (hc : Complete s₀ m name s x) (ha : Activated s₀.instances.size key s x s' x') :
    s'.instances[s₀.instances.size]? = some x' := by
  obtain ⟨memories, rfl⟩ := ha.result
  exact hc.drafted.2.toGrown.stored_put _

section

variable (hb : m.Built source limit seen) (hs : s₀.Sound) (hc : Complete s₀ m name s x)
include hb hs hc

variable (ha : Activated s₀.instances.size key s x s' x')
include ha

end

/-- What preparing an instance comes to, with the instance as it is when its imports are bound. -/
theorem tries_prepare_outfit (hb : m.Built source limit seen) {s₁ : Store}
    (hs₁ : s₁ = s₀.withInstance name m) : Tries False (prepare s₀.instances.size key) s₁
      (fun x' s' => ∃ x s, outfit s₀.instances.size s₁ = .ok (.ok x, s) ∧ Complete s₀ m name s x ∧
        Activated s₀.instances.size key s x s' x')
      fun e _ => ∀ x s, outfit s₀.instances.size s₁ = .ok (.ok x, s) → x.name = name ∧ s.Faults x e := by
  subst hs₁
  refine Tries.bind (Does.imp (Does.and_eq (tries_outfit hb False.elim)) ?_)
  rintro (e | x) s ⟨hr, h⟩
  · intro x s hr'
    cases hr.symm.trans hr'
  · refine (tries_activate hb False.elim False.elim h).imp (fun x' s' ha => ⟨x, s, hr, h, ha.2⟩) ?_
    rintro e _ ⟨-, -, hfaults⟩ x s hr'
    cases hr.symm.trans hr'
    exact ⟨h.drafted.2.name, hfaults⟩

end ProtoWasm.Store
