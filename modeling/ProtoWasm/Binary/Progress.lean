import ProtoWasm.Binary.Reader

/-! # Readers make progress -/
namespace ProtoWasm.Reader

open List

variable {α β : Type} {i j k : Input} {r : Reader α} {f : α → Reader β} {o : Int} {n : Nat} {what : String} {a : α}

theorem bind_eq_ok {b : β} :
    (r >>= f) i = .ok (b, k) ↔ ∃ a j, r i = .ok (a, j) ∧ f a j = .ok (b, k) := by
  simp only [Bind.bind, StateT.bind, Except.bind]
  cases r i with
  | error e => simp
  | ok v =>
    constructor
    · intro h
      exact ⟨v.1, v.2, rfl, h⟩
    · rintro ⟨a, j, hv, h⟩
      cases hv
      exact h

theorem pure_eq_ok {b : α} : (pure a : Reader α) i = .ok (b, j) ↔ a = b ∧ i = j := by
  constructor
  · intro h
    cases h
    exact ⟨rfl, rfl⟩
  · rintro ⟨rfl, rfl⟩
    rfl

theorem offset_eq_ok : offset i = .ok (o, j) ↔ i.offset = o ∧ i = j := by
  simp [offset]

theorem remaining_eq_ok : remaining i = .ok (n, j) ↔ i.remaining = n ∧ i = j := by
  simp [remaining]

theorem failAt_eq_ok {f : Fault} : failAt o f i = .ok (a, j) ↔ False := by
  simp [failAt]

theorem refuse_eq_ok {p : Prop} [Decidable p] {f : Fault} {u : Unit} :
    refuse p o f i = .ok (u, j) ↔ ¬ p ∧ i = j := by
  by_cases hp : p
  · simp [refuse, hp, failAt_eq_ok]
  · simp [refuse, hp, pure_eq_ok]

theorem readUnsigned_pos {bits : Nat} {bytes : List UInt8} {v n : Nat}
    (h : Leb128.readUnsigned bits bytes = .ok (v, n)) : 0 < n ∧ n ≤ bytes.length := by
  induction bytes generalizing bits v n with
  | nil => simp [Leb128.readUnsigned] at h
  | cons b rest ih =>
    unfold Leb128.readUnsigned at h
    split at h
    · split at h
      · cases h; simp
      · cases h
    · split at h
      · cases h; simp
      · split at h
        · rename_i hr
          cases h
          have := ih hr
          simp only [List.length_cons]
          omega
        · cases h

theorem readSigned_pos {bits : Nat} {bytes : List UInt8} {v : Int} {n : Nat}
    (h : Leb128.readSigned bits bytes = .ok (v, n)) : 0 < n ∧ n ≤ bytes.length := by
  induction bytes generalizing bits v n with
  | nil => simp [Leb128.readSigned] at h
  | cons b rest ih =>
    unfold Leb128.readSigned at h
    split at h
    · (repeat' split at h) <;> cases h <;> simp
    · split at h
      · cases h; simp
      · split at h
        · cases h; simp
        · split at h
          · rename_i hr
            cases h
            have := ih hr
            simp only [List.length_cons]
            omega
          · cases h

/-- A reader that takes bytes from the front of its input and leaves the others. -/
def Advances (r : Reader α) : Prop :=
  ∀ i a j, r i = .ok (a, j) → ∃ used, i.bytes = used ++ j.bytes ∧ j.offset = i.offset + used.length

theorem advances_pure (a : α) : Advances (pure a : Reader α) := by
  intro i b j h
  obtain ⟨-, rfl⟩ := pure_eq_ok.mp h
  exact ⟨[], by simp⟩

theorem Advances.bind (hr : Advances r) (hf : ∀ a, Advances (f a)) : Advances (r >>= f) := by
  intro i b k h
  obtain ⟨a, j, h₁, h₂⟩ := bind_eq_ok.mp h
  obtain ⟨us, hu, ho⟩ := hr i a j h₁
  obtain ⟨vs, hv, hp⟩ := hf a j b k h₂
  refine ⟨us ++ vs, by simp [hu, hv], ?_⟩
  rw [hp, ho, length_append]
  omega

theorem advances_failAt (o : Int) (f : Fault) : Advances (failAt o f : Reader α) := by
  intro i a j h
  exact (failAt_eq_ok.mp h).elim

theorem advances_refuse (p : Prop) [Decidable p] (o : Int) (f : Fault) : Advances (refuse p o f) := by
  intro i a j h
  obtain ⟨-, rfl⟩ := refuse_eq_ok.mp h
  exact ⟨[], by simp⟩

theorem advances_offset : Advances offset := by
  intro i a j h
  obtain ⟨-, rfl⟩ := offset_eq_ok.mp h
  exact ⟨[], by simp⟩

theorem advances_remaining : Advances remaining := by
  intro i a j h
  obtain ⟨-, rfl⟩ := remaining_eq_ok.mp h
  exact ⟨[], by simp⟩

theorem remaining_byte {b : UInt8} (h : byte what i = .ok (b, j)) : i.remaining = j.remaining + 1 := by
  unfold byte at h
  split at h
  · rename_i hb
    cases h
    simp [Input.remaining, hb]
  · cases h

theorem advances_byte (what : String) : Advances (byte what) := by
  intro i b j h
  unfold byte at h
  split at h
  · rename_i hb
    cases h
    exact ⟨[b], by simp [hb]⟩
  · cases h

theorem take_eq_ok {bs : List UInt8} :
    take n what i = .ok (bs, j) ↔ n ≤ i.remaining ∧ i.bytes.take n = bs ∧ i.skip n = j := by
  by_cases hn : n ≤ i.remaining
  · simp [take, hn]
  · simp [take, hn]

theorem skip_advances (h : n ≤ i.bytes.length) :
    i.bytes = i.bytes.take n ++ (i.skip n).bytes ∧ (i.skip n).offset = i.offset + (i.bytes.take n).length := by
  constructor
  · exact (take_append_drop n i.bytes).symm
  · rw [length_take, Nat.min_eq_left h]
    rfl

theorem advances_take (n : Nat) (what : String) : Advances (take n what) := by
  intro i bs j h
  obtain ⟨hn, -, rfl⟩ := take_eq_ok.mp h
  exact ⟨_, skip_advances hn⟩

theorem advances_unsigned (w : Leb128.Width) (what : String) : Advances (unsigned w what) := by
  intro i v j h
  unfold unsigned at h
  split at h
  · rename_i hr
    cases h
    exact ⟨_, skip_advances ((readUnsigned_pos hr).2)⟩
  · cases h

theorem advances_signed (w : Leb128.Width) (what : String) : Advances (signed w what) := by
  intro i v j h
  unfold signed at h
  split at h
  · rename_i hr
    cases h
    exact ⟨_, skip_advances ((readSigned_pos hr).2)⟩
  · cases h

theorem advances_word (n : Nat) (what : String) : Advances (word n what) :=
  (advances_take n what).bind fun _ => advances_pure _

theorem advances_name (what : String) : Advances (name what) := by
  refine advances_offset.bind fun _ => (advances_unsigned _ _).bind fun n => ?_
  refine (advances_take n what).bind fun bytes => ?_
  split
  · exact advances_pure _
  · exact advances_failAt _ _

theorem advances_window (n : Nat) (what : String) : Advances (window n what) :=
  advances_offset.bind fun _ => (advances_take n what).bind fun _ => advances_pure _

theorem advances_mapM {α β : Type} {f : β → Reader α} (hf : ∀ b, Advances (f b)) (xs : List β) :
    Advances (xs.mapM f) := by
  induction xs with
  | nil => exact advances_pure _
  | cons x xs ih =>
    rw [mapM_cons]
    exact (hf x).bind fun _ => ih.bind fun _ => advances_pure _

/-- A reader that never gives bytes back. -/
def Shrinks {α : Type} (r : Reader α) : Prop :=
  ∀ i a j, r i = .ok (a, j) → j.remaining ≤ i.remaining

theorem Advances.shrinks (hr : Advances r) : Shrinks r := by
  intro i a j h
  obtain ⟨used, hb, -⟩ := hr i a j h
  simp [Input.remaining, hb]

theorem remaining_unsigned_lt {w : Leb128.Width} {what : String} {i j : Input} {v : Nat}
    (h : unsigned w what i = .ok (v, j)) : j.remaining < i.remaining := by
  unfold unsigned at h
  split at h
  · rename_i hr
    obtain ⟨rfl, rfl⟩ := Prod.mk.inj (Except.ok.inj h)
    have := readUnsigned_pos hr
    simp only [Input.remaining, Input.skip, List.length_drop]
    omega
  · cases h

end ProtoWasm.Reader
