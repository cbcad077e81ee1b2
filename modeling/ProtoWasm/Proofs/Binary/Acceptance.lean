import ProtoWasm.Proofs.Binary.Reading

/-! # Bytes that a reader accepts, whatever follows them -/
namespace ProtoWasm.Reader

open List

variable {α β γ : Type} {P : α → Prop} {Q : β → Prop} {xs ys : List UInt8} {r : Reader α} {f : α → Reader β}
  {R : γ → α → Prop} {enc : γ → List UInt8} {cs : List γ}

/-- The reader takes the bytes, whatever follows them and wherever they stand, and gives a value with
the property. -/
def Accepts (r : Reader α) (bytes : List UInt8) (P : α → Prop) : Prop :=
  ∀ rest o, ∃ a, r ⟨bytes ++ rest, o⟩ = .ok (a, ⟨rest, o + bytes.length⟩) ∧ P a

theorem Accepts.imp {R : α → Prop} (h : Accepts r xs P) (hR : ∀ a, P a → R a) : Accepts r xs R := by
  intro rest o
  obtain ⟨a, ha, hP⟩ := h rest o
  exact ⟨a, ha, hR a hP⟩

theorem accepts_pure {a : α} (h : P a) : Accepts (pure a : Reader α) [] P := by
  intro rest o
  exact ⟨a, by simp [pure_eq_ok], h⟩

theorem Accepts.bind (hr : Accepts r xs P)
    (hf : ∀ a, P a → Accepts (f a) ys Q) : Accepts (r >>= f) (xs ++ ys) Q := by
  intro rest o
  obtain ⟨a, ha, hP⟩ := hr (ys ++ rest) o
  obtain ⟨b, hb, hQ⟩ := hf a hP rest (o + xs.length)
  refine ⟨b, bind_eq_ok.mpr ⟨a, ⟨ys ++ rest, o + xs.length⟩, ?_, ?_⟩, hQ⟩
  · rw [append_assoc]
    exact ha
  · rw [hb, length_append]
    congr 3
    omega

theorem Accepts.cons {b : UInt8} (hr : Accepts r [b] P)
    (hf : ∀ a, P a → Accepts (f a) ys Q) : Accepts (r >>= f) (b :: ys) Q :=
  hr.bind hf

theorem Accepts.after (hr : Accepts r [] P) (hf : ∀ a, P a → Accepts (f a) ys Q) : Accepts (r >>= f) ys Q :=
  hr.bind hf

theorem Accepts.last (hr : Accepts r xs P) (hf : ∀ a, P a → Accepts (f a) [] Q) : Accepts (r >>= f) xs Q := by
  have := hr.bind hf
  rwa [append_nil] at this

theorem Accepts.map {f : α → β} (hr : Accepts r xs P) (hf : ∀ a, P a → Q (f a)) :
    Accepts (r >>= fun a => pure (f a)) xs Q :=
  hr.last fun a ha => accepts_pure (hf a ha)

theorem accepts_offset : Accepts offset [] fun _ => True :=
  fun _ o => ⟨o, by simp [offset_eq_ok], trivial⟩

theorem Accepts.offset {f : Int → Reader β} (hf : ∀ o, Accepts (f o) ys Q) : Accepts (Reader.offset >>= f) ys Q :=
  accepts_offset.after fun o _ => hf o

theorem accepts_refuse {p : Prop} [Decidable p] (h : ¬ p) (o : Int) (f : Fault) :
    Accepts (refuse p o f) [] fun _ => True :=
  fun _ _ => ⟨(), by simp [refuse_eq_ok, h], trivial⟩

theorem accepts_byte (what : String) (b : UInt8) : Accepts (byte what) [b] fun a => a = b :=
  fun _ _ => ⟨b, rfl, rfl⟩

theorem accepts_take (what : String) (bs : List UInt8) :
    Accepts (take bs.length what) bs fun a => a = bs := by
  intro rest o
  refine ⟨bs, take_eq_ok.mpr ⟨?_, take_left, ?_⟩, rfl⟩
  · simp [Input.remaining]
  · simp [Input.skip]

theorem accepts_u32 (what : String) {n : Nat} (hn : n < 2 ^ 32) :
    Accepts (u32 what) (Leb128.encodeUnsigned n) fun a => a = n := by
  intro rest o
  have hr := Leb128.readUnsigned_encodeUnsigned hn (by decide) rest
  refine ⟨n, ?_, rfl⟩
  simp [u32, unsigned, Leb128.decodeUnsigned, Leb128.Width.bits, hr, Input.skip]

theorem accepts_unsigned_own (w : Leb128.Width) (what : String) {v : Nat}
    (h : Leb128.decodeUnsigned w xs = .ok (v, xs.length)) :
    Accepts (unsigned w what) xs fun a => a = v := by
  intro rest o
  have hr := Leb128.reads_unsigned.take_append w.bits_pos h rest
  rw [take_length] at hr
  refine ⟨v, ?_, rfl⟩
  simp [unsigned, Leb128.decodeUnsigned, hr, Input.skip]

theorem accepts_signed_own (w : Leb128.Width) (what : String) {v : Int}
    (h : Leb128.decodeSigned w xs = .ok (v, xs.length)) :
    Accepts (signed w what) xs fun a => a = v := by
  intro rest o
  have hr := Leb128.reads_signed.take_append w.bits_pos h rest
  rw [take_length] at hr
  refine ⟨v, ?_, rfl⟩
  simp [signed, Leb128.decodeSigned, hr, Input.skip]

theorem accepts_word (what : String) (bs : List UInt8) :
    Accepts (word bs.length what) bs fun a => a = LittleEndian.decode bs :=
  (accepts_take what bs).map fun _ h => by rw [h]

/-- A text is accepted in the form of its length and its bytes. -/
theorem accepts_name (what s : String) (hs : s.toUTF8.data.toList.length < 2 ^ 32) :
    Accepts (name what) (Leb128.encodeUnsigned s.toUTF8.data.toList.length ++ s.toUTF8.data.toList)
      fun a => a = s := by
  have hutf : String.fromUTF8? ⟨s.toUTF8.data.toList.toArray⟩ = some s := by
    simp only [String.fromUTF8?, Array.toArray_toList, Option.dite_none_right_eq_some]
    exact ⟨s.isValidUTF8, rfl⟩
  refine .offset fun o => ?_
  apply (accepts_u32 _ hs).bind
  rintro _ rfl
  intro rest o'
  obtain ⟨_, hb, rfl⟩ := accepts_take what s.toUTF8.data.toList rest o'
  refine ⟨s, bind_eq_ok.mpr ⟨_, _, hb, ?_⟩, rfl⟩
  simp only [hutf]
  rfl

theorem accepts_window (what : String) (bs : List UInt8) :
    Accepts (window bs.length what) bs fun w => w.bytes = bs :=
  accepts_offset.after fun _ _ => (accepts_take what bs).map fun _ h => h

theorem accepts_inside {w : Input} (h : ∃ a j, r w = .ok (a, j) ∧ P a) :
    Accepts (inside w r) [] fun x => P x.1 := by
  obtain ⟨a, j, hr, ha⟩ := h
  intro rest o
  refine ⟨(a, j), ?_, ha⟩
  simp [inside, hr]

theorem accepts_mapM {δ : Type} {f : δ → Reader α}
    {ks : List δ} (h : List.Forall₂ (fun k c => Accepts (f k) (enc c) (R c)) ks cs) :
    Accepts (ks.mapM f) (cs.flatMap enc) (List.Forall₂ R cs) := by
  induction h with
  | nil => exact accepts_pure .nil
  | cons hc _ ih =>
    rw [mapM_cons, flatMap_cons]
    apply hc.bind
    intro a ha
    exact ih.map fun as has => .cons ha has

theorem accepts_times {r : Nat → Reader α} (h : ∀ k, ∀ c ∈ cs, Accepts (r k) (enc c) (R c)) :
    Accepts (times cs.length r) (cs.flatMap enc) (List.Forall₂ R cs) := by
  apply accepts_mapM
  have hlen : (List.range cs.length).length = cs.length := length_range
  generalize List.range cs.length = ks at hlen
  induction ks generalizing cs with
  | nil =>
    rw [eq_nil_of_length_eq_zero hlen.symm]
    exact .nil
  | cons k ks ih =>
    cases cs with
    | nil => cases hlen
    | cons c cs =>
      obtain ⟨hc, hcs⟩ := forall_mem_cons.mp (h k)
      refine .cons hc (ih ?_ (Nat.succ.inj hlen))
      exact fun k c hc => h k c (mem_cons_of_mem _ hc)

/-- An invariant of what has been read so far, from step to step. -/
theorem accepts_foldlM {f : β → Nat → Reader β} (enc : γ → List UInt8)
    (I : List γ → β → Prop) (ks : List Nat) (done cs : List γ) (hlen : ks.length = cs.length) {b : β}
    (hb : I done b) (h : ∀ before c after b k, done ++ cs = before ++ c :: after → I before b →
      Accepts (f b k) (enc c) (I (before ++ [c]))) :
    Accepts (ks.foldlM f b) (cs.flatMap enc) (I (done ++ cs)) := by
  induction cs generalizing ks done b with
  | nil =>
    rw [eq_nil_of_length_eq_zero hlen, append_nil]
    exact accepts_pure hb
  | cons c cs ih =>
    cases ks with
    | nil => cases hlen
    | cons k ks =>
      rw [foldlM_cons, flatMap_cons]
      apply (h done c cs b k rfl hb).bind
      intro b' hb'
      have hrest := ih ks (done ++ [c]) (Nat.succ.inj hlen) hb'
      rw [append_assoc] at hrest
      exact hrest h

end ProtoWasm.Reader
