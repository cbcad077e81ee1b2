import ProtoWasm.Proofs.Binary.Reading

/-! # The same bytes read twice

Two readers run on the same bytes, which may stand at different places. When both succeed, they leave the same bytes.
They may know different things of the module so far: then one can fail where the other does not.
-/
namespace ProtoWasm.Reader

variable {α α' β β' γ : Type} {same : Prop} {R : α → α' → Prop} {Q : β → β' → Prop} {r : Reader α}
  {r' : Reader α'}

/-- Where the first reader succeeds, the second gives a related value if it succeeds too, and it does so
if both know the same. -/
def Parallel (same : Prop) (r : Reader α) (r' : Reader α') (R : α → α' → Prop) : Prop :=
  ∀ i i' a j, i.bytes = i'.bytes → r i = .ok (a, j) →
    (same → ∃ a' j', r' i' = .ok (a', j')) ∧
      ∀ a' j', r' i' = .ok (a', j') → j.bytes = j'.bytes ∧ R a a'

theorem Parallel.imp {P : α → α' → Prop} (h : Parallel same r r' R)
    (hP : ∀ a a', R a a' → P a a') : Parallel same r r' P := by
  intro i i' a j hi hr
  obtain ⟨hs, hv⟩ := h i i' a j hi hr
  refine ⟨hs, ?_⟩
  intro a' j' hr'
  obtain ⟨hj, ha⟩ := hv a' j' hr'
  exact ⟨hj, hP a a' ha⟩

theorem Parallel.also {P : α → Prop} (h : Parallel same r r' R)
    (hP : ∀ i a j, r i = .ok (a, j) → P a) : Parallel same r r' fun a a' => P a ∧ R a a' := by
  intro i i' a j hi hr
  obtain ⟨hs, hv⟩ := h i i' a j hi hr
  refine ⟨hs, ?_⟩
  intro a' j' hr'
  obtain ⟨hj, ha⟩ := hv a' j' hr'
  exact ⟨hj, hP i a j hr, ha⟩

theorem parallel_pure {a : α} {a' : α'} (h : R a a') :
    Parallel same (pure a : Reader α) (pure a' : Reader α') R := by
  intro i i' b j hi hr
  obtain ⟨rfl, rfl⟩ := pure_eq_ok.mp hr
  refine ⟨fun _ => ⟨a', i', rfl⟩, ?_⟩
  intro b' j' hr'
  obtain ⟨rfl, rfl⟩ := pure_eq_ok.mp hr'
  exact ⟨hi, h⟩

theorem Parallel.bind {f : α → Reader β} {f' : α' → Reader β'}
    (hr : Parallel same r r' R) (hf : ∀ a a', R a a' → Parallel same (f a) (f' a') Q) :
    Parallel same (r >>= f) (r' >>= f') Q := by
  intro i i' b k hi h
  obtain ⟨a, j, h₁, h₂⟩ := bind_eq_ok.mp h
  obtain ⟨hs, hv⟩ := hr i i' a j hi h₁
  constructor
  · intro hsame
    obtain ⟨a', j', h₁'⟩ := hs hsame
    obtain ⟨hj, ha⟩ := hv a' j' h₁'
    obtain ⟨b', k', h₂'⟩ := (hf a a' ha j j' b k hj h₂).1 hsame
    exact ⟨b', k', bind_eq_ok.mpr ⟨a', j', h₁', h₂'⟩⟩
  · intro b' k' h'
    obtain ⟨a', j', h₁', h₂'⟩ := bind_eq_ok.mp h'
    obtain ⟨hj, ha⟩ := hv a' j' h₁'
    exact (hf a a' ha j j' b k hj h₂).2 b' k' h₂'

theorem Parallel.then {r' : Reader α} {f : α → Reader β} {f' : α → Reader β'} (hr : Parallel same r r' (· = ·))
    (hf : ∀ a, Parallel same (f a) (f' a) Q) : Parallel same (r >>= f) (r' >>= f') Q :=
  hr.bind fun a _ ha => ha ▸ hf a

theorem Parallel.map {f : α → β} {f' : α' → β'}
    (hr : Parallel same r r' R) (hf : ∀ a a', R a a' → Q (f a) (f' a')) :
    Parallel same (r >>= fun a => pure (f a)) (r' >>= fun a => pure (f' a)) Q :=
  hr.bind fun a a' ha => parallel_pure (hf a a' ha)

theorem parallel_get : Parallel same (get : Reader Input) (get : Reader Input) fun w w' => w.bytes = w'.bytes := by
  intro i i' w j hi hr
  cases hr
  refine ⟨fun _ => ⟨i', i', rfl⟩, ?_⟩
  intro w' j' hr'
  cases hr'
  exact ⟨hi, hi⟩

theorem parallel_failAt (o : Int) (f : Fault) (r' : Reader α') :
    Parallel same (failAt o f : Reader α) r' R := by
  intro i i' a j _ hr
  exact (failAt_eq_ok.mp hr).elim

theorem parallel_refuse {p p' : Prop} [Decidable p] [Decidable p'] {o o' : Int} {f f' : Fault} (h : same → p = p') :
    Parallel same (refuse p o f) (refuse p' o' f') fun _ _ => ¬ p ∧ ¬ p' := by
  intro i i' u j hi hr
  obtain ⟨hp, rfl⟩ := refuse_eq_ok.mp hr
  refine ⟨fun hsame => ⟨(), i', refuse_eq_ok.mpr ⟨h hsame ▸ hp, rfl⟩⟩, ?_⟩
  intro u' j' hr'
  obtain ⟨hp', rfl⟩ := refuse_eq_ok.mp hr'
  exact ⟨hi, hp, hp'⟩

theorem parallel_missing {o : Int} {f : Fault} (h : ¬same) : Parallel same r (failAt o f : Reader α') R :=
  fun _ _ _ _ _ _ => ⟨fun hs => absurd hs h, fun _ _ hr => (failAt_eq_ok.mp hr).elim⟩

theorem parallel_offset : Parallel same offset offset fun _ _ => True := by
  intro i i' o j hi hr
  obtain ⟨-, rfl⟩ := offset_eq_ok.mp hr
  refine ⟨fun _ => ⟨i'.offset, i', rfl⟩, ?_⟩
  intro o' j' hr'
  obtain ⟨-, rfl⟩ := offset_eq_ok.mp hr'
  exact ⟨hi, trivial⟩

theorem parallel_of_bytes
    (h : ∀ i i' a j, i.bytes = i'.bytes → r i = .ok (a, j) → ∃ j', r i' = .ok (a, j') ∧ j.bytes = j'.bytes) :
    Parallel same r r (· = ·) := by
  intro i i' a j hi hr
  obtain ⟨j', hr', hj⟩ := h i i' a j hi hr
  refine ⟨fun _ => ⟨a, j', hr'⟩, ?_⟩
  intro a' k' hk
  rw [hr'] at hk
  cases hk
  exact ⟨hj, rfl⟩

theorem skip_bytes {i i' : Input} (h : i.bytes = i'.bytes) (n : Nat) : (i.skip n).bytes = (i'.skip n).bytes := by
  rw [Input.skip, Input.skip, h]

theorem parallel_remaining : Parallel same remaining remaining (· = ·) := by
  apply parallel_of_bytes
  intro i i' n j hi hr
  obtain ⟨rfl, rfl⟩ := remaining_eq_ok.mp hr
  exact ⟨i', remaining_eq_ok.mpr ⟨by rw [Input.remaining, Input.remaining, hi], rfl⟩, hi⟩

theorem parallel_byte (what : String) : Parallel same (byte what) (byte what) (· = ·) := by
  apply parallel_of_bytes
  intro i i' b j hi hr
  unfold byte at hr ⊢
  split at hr
  · rename_i c rest hb
    cases hr
    rw [hi] at hb
    exact ⟨⟨rest, i'.offset + 1⟩, by rw [hb], rfl⟩
  · cases hr

theorem parallel_take (n : Nat) (what : String) : Parallel same (take n what) (take n what) (· = ·) := by
  apply parallel_of_bytes
  intro i i' bs j hi hr
  obtain ⟨hn, rfl, rfl⟩ := take_eq_ok.mp hr
  rw [Input.remaining, hi] at hn
  exact ⟨i'.skip n, take_eq_ok.mpr ⟨hn, by rw [hi], rfl⟩, skip_bytes hi n⟩

theorem parallel_unsigned (w : Leb128.Width) (what : String) :
    Parallel same (unsigned w what) (unsigned w what) (· = ·) := by
  apply parallel_of_bytes
  intro i i' v j hi hr
  unfold unsigned at hr ⊢
  rw [hi] at hr
  split at hr
  · rename_i n hn
    cases hr
    exact ⟨i'.skip n, rfl, skip_bytes hi n⟩
  · cases hr

theorem parallel_signed (w : Leb128.Width) (what : String) :
    Parallel same (signed w what) (signed w what) (· = ·) := by
  apply parallel_of_bytes
  intro i i' v j hi hr
  unfold signed at hr ⊢
  rw [hi] at hr
  split at hr
  · rename_i n hn
    cases hr
    exact ⟨i'.skip n, rfl, skip_bytes hi n⟩
  · cases hr

theorem parallel_u32 (what : String) : Parallel same (u32 what) (u32 what) (· = ·) :=
  parallel_unsigned .w32 what

theorem parallel_word (n : Nat) (what : String) : Parallel same (word n what) (word n what) (· = ·) :=
  (parallel_take n what).map fun _ _ h => by rw [h]

theorem parallel_name (what : String) : Parallel same (name what) (name what) (· = ·) := by
  refine parallel_offset.bind fun o o' _ => (parallel_u32 _).then fun n => ?_
  refine (parallel_take n what).then fun bytes => ?_
  split
  · exact parallel_pure rfl
  · exact parallel_failAt _ _ _

theorem parallel_window (n : Nat) (what : String) :
    Parallel same (window n what) (window n what) fun w w' => w.bytes = w'.bytes :=
  parallel_offset.bind fun _ _ _ => (parallel_take n what).map fun _ _ h => h

theorem parallel_inside {w w' : Input} (hr : Parallel same r r' R) (hw : w.bytes = w'.bytes) :
    Parallel same (inside w r) (inside w' r') fun x x' => R x.1 x'.1 ∧ x.2.bytes = x'.2.bytes := by
  intro i i' x j hi h
  unfold inside at h ⊢
  cases hrw : r w with
  | error e =>
    rw [hrw] at h
    cases h
  | ok x =>
    rw [hrw] at h
    cases h
    obtain ⟨hs, hv⟩ := hr w w' _ _ hw hrw
    constructor
    · intro hsame
      obtain ⟨a', j', hr'⟩ := hs hsame
      exact ⟨(a', j'), i', by rw [hr']⟩
    · intro y j' h'
      cases hrw' : r' w' with
      | error e =>
        rw [hrw'] at h'
        cases h'
      | ok y =>
        rw [hrw'] at h'
        cases h'
        obtain ⟨hj, ha⟩ := hv _ _ hrw'
        exact ⟨hi, ha, hj⟩

theorem parallel_mapM {γ' : Type} {f : γ → Reader α} {f' : γ' → Reader α'} {xs : List γ} {ys : List γ'}
    (h : List.Forall₂ (fun x y => Parallel same (f x) (f' y) R) xs ys) :
    Parallel same (xs.mapM f) (ys.mapM f') (List.Forall₂ R) := by
  induction h with
  | nil => exact parallel_pure .nil
  | cons hx _ ih =>
    rw [List.mapM_cons, List.mapM_cons]
    apply hx.bind
    intro a a' ha
    exact ih.map fun as as' has => .cons ha has

theorem parallel_times {r : Nat → Reader α} {r' : Nat → Reader α'} (n : Nat)
    (h : ∀ k, Parallel same (r k) (r' k) R) : Parallel same (times n r) (times n r') (List.Forall₂ R) := by
  apply parallel_mapM
  exact List.forall₂_same.mpr fun k _ => h k

theorem eq_of_forall₂ {xs ys : List α} (h : List.Forall₂ (· = ·) xs ys) : xs = ys :=
  List.forall₂_eq_eq_eq ▸ h

theorem parallel_times_eq {r r' : Nat → Reader α} (n : Nat) (h : ∀ k, Parallel same (r k) (r' k) (· = ·)) :
    Parallel same (times n r) (times n r') (· = ·) :=
  (parallel_times n h).imp fun _ _ => eq_of_forall₂

/-- A state that is extended from step to step. -/
theorem parallel_foldlM {f : β → γ → Reader β} {f' : β' → γ → Reader β'} {b : β} {b' : β'}
    (ks : List γ) (hb : Q b b') (h : ∀ b b' k, Q b b' → Parallel same (f b k) (f' b' k) Q) :
    Parallel same (ks.foldlM f b) (ks.foldlM f' b') Q := by
  induction ks generalizing b b' with
  | nil => exact parallel_pure hb
  | cons k ks ih =>
    rw [List.foldlM_cons, List.foldlM_cons]
    exact (h b b' k hb).bind fun c c' hc => ih hc

end ProtoWasm.Reader
