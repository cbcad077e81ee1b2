import ProtoWasm.Proofs.Embedding.Limits

/-! # Closing an instance again

An instance that is closed already loses nothing when it is closed again, and neither does any other. The embedding goes
by the name of the instance, though, so whatever was given that name since then is no longer found under it.
-/
namespace ProtoWasm

open StoreM

theorem filter_bne_eq_self_iff {α : Type} {name : String} {xs : List (String × α)} :
    (xs.filter fun p => p.1 != name) = xs ↔ xs.lookup name = none := by
  rw [List.filter_eq_self, List.lookup_eq_none_iff]
  simp only [bne_iff_ne, ne_eq]
  exact ⟨fun h p hp heq => h p hp heq.symm, fun h p hp heq => h p hp heq.symm⟩

namespace Embedding

variable {e : Embedding} {i : InstanceId} {name : String} {x x₁ : Instance} {σ σ₁ : Session} {limit : Nat}
  {ops : List Operation}

/-- The embedding in which nothing is known under the name. -/
def forget (e : Embedding) (name : String) : Embedding :=
  { e with
    modules := e.modules.filter fun p => p.1 != name
    store := { e.store with names := e.store.names.remove name } }

theorem forget_eq_self_iff : e.forget name = e ↔ e.Unused name := by
  have hnames : (e.store.names.remove name = e.store.names) ↔ e.store.names.has name = false := by
    rw [Namespace.has, Namespace.entries?, Option.isSome_eq_false_iff, Option.isNone_iff_eq_none]
    refine Iff.trans ?_ filter_bne_eq_self_iff
    exact ⟨fun h => congrArg Namespace.modules h, fun h => congrArg Namespace.mk h⟩
  rw [Unused, module?, ← filter_bne_eq_self_iff, ← hnames]
  constructor
  · intro h
    exact ⟨congrArg Embedding.modules h, congrArg (fun e => e.store.names) h⟩
  · rintro ⟨hm, hn⟩
    unfold forget
    rw [hm, hn]

/-- All that is left to do for an instance that is closed is to free its name. -/
theorem close_eq_forget (hx : e.store.instances[i]? = some x) (hclosed : x.closed = true) :
    close i e = .ok ((), e.forget x.name) := by
  have hclose : Does True (close i) e fun _ e' => e' = e.forget x.name := by
    refine Does.bind (does_onStore (does_getInstance (fun _ => ⟨x, hx⟩) (forall_of_eq_some hx ?_)))
    refine Does.bind (does_modify (does_onStore ?_))
    refine Does.bind (does_getInstance (fun _ => ⟨x, hx⟩) (forall_of_eq_some hx ?_))
    rw [if_pos hclosed]
    exact does_pure rfl
  obtain ⟨_, e', hr⟩ := hclose.not_defect trivial
  rw [hr, hclose.of_eq hr]

theorem name_of_performAll (h : σ₁.Under limit)
    (hx₁ : σ₁.embedding.store.instances[i]? = some x₁) (hr : performAll ops σ₁ = .ok σ)
    (hx : σ.embedding.store.instances[i]? = some x) : x.name = x₁.name := by
  obtain ⟨-, y, hy, hname⟩ := performAll_induction
    (I := fun σ => ∃ y, σ.embedding.store.instances[i]? = some y ∧ y.name = x₁.name)
    (fun op _ σ σ' _ hc => by
      rintro ⟨y, hy, hname⟩
      obtain ⟨z, hz, hzname, -⟩ := hc.instances i y hy
      exact ⟨z, hz, hzname.trans hname⟩) h ⟨x₁, hx₁, rfl⟩ hr
  cases hx.symm.trans hy
  exact hname

/-- In a session that defines no module of that name, an instance that is open at first and is closed in the end has
freed its name. -/
theorem unused_of_closed (h : σ₁.Under limit)
    (hx₁ : σ₁.embedding.store.instances[i]? = some x₁) (hopen : x₁.closed = false)
    (hops : ∀ op ∈ ops, ¬ op.Defines x₁.name) (hr : performAll ops σ₁ = .ok σ)
    (hx : σ.embedding.store.instances[i]? = some x) (hclosed : x.closed = true) : σ.embedding.Unused x₁.name := by
  -- the instance stays open until its name is freed, and a free name stays free
  obtain ⟨-, y, hy, -, hy'⟩ := performAll_induction
    (I := fun σ => ∃ y, σ.embedding.store.instances[i]? = some y ∧ y.name = x₁.name ∧
      (y.closed = false ∨ σ.embedding.Unused x₁.name))
    (fun op hop σ σ' _ hc => by
      rintro ⟨y, hy, hname, hy'⟩
      obtain ⟨z, hz, hzname, hz'⟩ := hc.instances i y hy
      refine ⟨z, hz, hzname.trans hname, ?_⟩
      rcases hy' with hy' | hunused
      · exact hz'.imp (fun h => h.trans hy') fun h => hname ▸ h
      · exact .inr (hc.unused _ (hops op hop) hunused))
    h ⟨x₁, hx₁, rfl, .inl hopen⟩ hr
  cases hx.symm.trans hy
  refine hy'.resolve_left ?_
  rw [hclosed]
  exact Bool.noConfusion

theorem performAll_append {before after : List Operation} {σ₀ : Session} (h : performAll before σ₀ = .ok σ₁) :
    performAll (before ++ after) σ₀ = performAll after σ₁ := by
  unfold performAll at h ⊢
  rw [List.foldlM_append, h]
  rfl

/-- Closing an instance that is closed gives no error and does no more than to free its name. That changes nothing if
and only if nothing is known under the name, and so it is as long as no module of that name has been defined since
the instance was open. -/
theorem performAll_close_again {config : EmbeddingConfig} {registered : Bool} {ops : List Operation}
    (hcreate : create config registered = .ok e) (hr : performAll ops { embedding := e } = .ok σ)
    (hx : σ.embedding.store.instances[i]? = some x) (hclosed : x.closed = true) :
    close i σ.embedding = .ok ((), σ.embedding.forget x.name) ∧
    (σ.embedding.forget x.name = σ.embedding ↔ σ.embedding.Unused x.name) ∧
    ∀ before after σ₁ x₁, ops = before ++ after → performAll before { embedding := e } = .ok σ₁ →
      σ₁.embedding.store.instances[i]? = some x₁ → x₁.closed = false →
      (∀ op ∈ after, ¬ op.Defines x.name) → close i σ.embedding = .ok ((), σ.embedding) := by
  refine ⟨close_eq_forget hx hclosed, forget_eq_self_iff, ?_⟩
  rintro before after σ₁ x₁ rfl hbefore hx₁ hopen hafter
  have hunder : Session.Under config.maxPages { embedding := e } :=
    ⟨(limited_create 0 hcreate).1 ▸ rfl, by simp⟩
  obtain ⟨hunder₁, -⟩ := performAll_induction (I := fun _ => True) (fun _ _ _ _ _ _ _ => trivial) hunder trivial hbefore
  rw [performAll_append hbefore] at hr
  have hname := name_of_performAll hunder₁ hx₁ hr hx
  have hunused := unused_of_closed hunder₁ hx₁ hopen (hname ▸ hafter) hr hx hclosed
  rw [close_eq_forget hx hclosed, hname, forget_eq_self_iff.mpr hunused]

def opening : List Operation := [.compile (some storing) false, .instantiate 0 { name := some "a" } false]

def renewal : List Operation := [.close 0, .instantiate 0 { name := some "b" } false]

theorem performAll_close_again_renewal :
    ∃ e σ, create {} false = .ok e ∧ performAll (opening ++ renewal) { embedding := e } = .ok σ ∧
      σ.embedding.Bears 1 "b" ∧ close 0 σ.embedding = .ok ((), σ.embedding) := by
  have hfirst : (session {} opening).map (fun σ => σ.embedding.store.instances.toList.map (·.closed)) =
      some [false] := by decide +kernel
  have hlast : (session {} (opening ++ renewal)).map (fun σ =>
      (σ.embedding.store.instances.toList.map fun x => (x.name, x.closed), decide (σ.embedding.Bears 1 "b"))) =
      some ([("a", true), ("b", false)], true) := by decide +kernel
  obtain ⟨σ₁, hσ₁, hopen⟩ := Option.map_eq_some_iff.mp hfirst
  obtain ⟨σ, hσ, hclosed⟩ := Option.map_eq_some_iff.mp hlast
  obtain ⟨e, hcreate, hr⟩ := session_eq_some hσ
  obtain ⟨e', hcreate', hr₁⟩ := session_eq_some hσ₁
  cases hcreate.symm.trans hcreate'
  simp only [Prod.mk.injEq, decide_eq_true_eq] at hclosed
  obtain ⟨hclosed, hbears⟩ := hclosed
  obtain ⟨x₁, hx₁, hopen⟩ := exists_of_map_toList hopen 0 rfl
  obtain ⟨x, hx, hname⟩ := exists_of_map_toList hclosed 0 rfl
  obtain ⟨hname, hclosed⟩ := Prod.mk.inj hname
  refine ⟨e, σ, hcreate, hr, hbears, ?_⟩
  refine (performAll_close_again hcreate hr hx hclosed).2.2 opening renewal σ₁ x₁ rfl hr₁ hx₁ hopen ?_
  rw [hname]
  decide

/-- What was given the name of an instance that is closed is lost when that instance is closed again, be it an open
instance or a module of the host. -/
theorem close_again_frees :
    (session {} (opening ++ [.close 0, .instantiate 0 { name := some "a" } false])).map
      (fun σ => (decide (σ.embedding.Bears 1 "a"), σ.embedding.module? "a", σ.embedding.store.names.has "a")) =
        some (true, some 1, true) ∧
    (session {} (opening ++ [.close 0, .instantiate 0 { name := some "a" } false, .close 0])).map
      (fun σ => (decide (σ.embedding.Bears 1 "a"), σ.embedding.module? "a", σ.embedding.store.names.has "a")) =
        some (true, none, false) ∧
    (session {} (opening ++ [.close 0, .host "a" [("m", .memory 1 1)]])).map
      (fun σ => σ.embedding.store.names.has "a") = some true ∧
    (session {} (opening ++ [.close 0, .host "a" [("m", .memory 1 1)], .close 0])).map
      (fun σ => σ.embedding.store.names.has "a") = some false := by
  decide +kernel

end Embedding

end ProtoWasm
