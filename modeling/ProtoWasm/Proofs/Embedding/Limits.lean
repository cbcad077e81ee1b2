import ProtoWasm.Proofs.Embedding.Sessions
import ProtoWasm.Proofs.Memory.Access

/-! # The memory limit of an embedding

No memory has more pages than its maximum, whatever is done with the embedding. The maximum of a memory of the host is
at most the limit, and that of a memory that a module declares is too, unless the limit is zero. The size of a memory
is told as a word, which has no room for that of the largest memory.
-/
namespace ProtoWasm.Embedding

open StoreM

variable {limit : Nat} {e e' : Embedding} {σ σ' : Session} {config : EmbeddingConfig}

structure Limited (limit : Nat) (e : Embedding) : Prop where
  memories : ∀ (k : MemoryId) mem, e.store.memories[k]? = some mem →
    mem.Capped ∧ mem.max ≤ Module.effectiveLimit limit
  hostMemory : ∀ id ∈ e.hostMemories, ∃ mem, e.store.memories[id]? = some mem ∧ mem.max ≤ limit

theorem Limited.continues {defined : String → Prop} (h : e.Limited limit) (hc : Continues limit defined e e') :
    e'.Limited limit where
  memories k mem' hmem' := by
    by_cases hk : k < e.store.memories.size
    · have hmem := Array.getElem?_eq_getElem hk
      obtain ⟨hcap, hle⟩ := h.memories k _ hmem
      obtain ⟨mem, hmem, hmax, hcap'⟩ := hc.memories.kept k _ hmem
      cases hmem.symm.trans hmem'
      exact ⟨hcap' hcap, hmax ▸ hle⟩
    · exact hc.memories.added k mem' (Nat.le_of_not_lt hk) hmem'
  hostMemory id hid := by
    rcases hc.hostMemory id hid with hid | hmem
    · obtain ⟨mem, hmem, hle⟩ := h.hostMemory id hid
      obtain ⟨mem', hmem', hmax, -⟩ := hc.memories.kept id mem hmem
      exact ⟨mem', hmem', hmax ▸ hle⟩
    · exact hmem

theorem limited_create (limit : Nat) {registered : Bool} (h : create config registered = .ok e) :
    e.config = config ∧ e.Limited limit := by
  unfold create at h
  split at h
  · cases h
  · cases h
    exact ⟨rfl, by simp, by simp⟩

/-- After any operations the pages of a memory are at most its maximum, which is at most the limit, where zero stands
for the most pages that there are. For memories of the host zero is a limit like any other. -/
theorem performAll_memories_within {config : EmbeddingConfig} {registered : Bool} {ops : List Operation}
    (hcreate : create config registered = .ok e) (hr : performAll ops { embedding := e } = .ok σ) (k : MemoryId)
    (mem : Memory InstanceId) (hmem : σ.embedding.store.memories[k]? = some mem) :
    mem.pages ≤ mem.max ∧
    mem.max ≤ (if config.maxPages = 0 then Memory.maxPages else config.maxPages) ∧
    (k ∈ σ.embedding.hostMemories → mem.max ≤ config.maxPages) ∧
    (config.maxPages ≤ Memory.maxPages → mem.max ≤ Memory.maxPages) := by
  obtain ⟨hconfig, hlimited⟩ := limited_create config.maxPages hcreate
  have hunder : Session.Under config.maxPages { embedding := e } := ⟨hconfig ▸ rfl, by simp⟩
  obtain ⟨-, h⟩ := performAll_induction (I := fun σ => σ.embedding.Limited config.maxPages)
    (fun _ _ _ _ _ hc h => h.continues hc) hunder hlimited hr
  obtain ⟨hcap, hle⟩ := h.memories k mem hmem
  refine ⟨hcap, hle, fun hk => ?_, fun hmax => ?_⟩
  · obtain ⟨mem', hmem', hle'⟩ := h.hostMemory k hk
    cases hmem.symm.trans hmem'
    exact hle'
  · unfold Module.effectiveLimit at hle
    split at hle
    · exact hle
    · exact Nat.le_trans hle hmax

/-- The size that is told is that of the pages that growing by none tells, and the addresses below it are those that can
be read, until the memory has all the pages there are: then it is told to have no bytes although all can be read. -/
theorem memorySize_agrees {first most : Nat} {guarded : Bool} {m : Memory InstanceId} (hle : first ≤ most)
    (hmost : most ≤ Memory.maxPages) (hm : Memory.create first most guarded = .ok m) (ops : List Memory.Operation)
    (hfits : ∀ op ∈ ops, op.Fits) :
    ∃ m' pages, (m.performAll ops).2 = m' ∧ m'.perform (.grow 0) = (.grew pages, m') ∧ pages ≤ most ∧
      (pages < 65536 → (memorySize m').toNat = 65536 * pages ∧
        ∀ offset : UInt32, (m'.readByte offset).isSome = true ↔ offset.toNat < (memorySize m').toNat) ∧
      (pages = 65536 → memorySize m' = 0 ∧ ∀ offset : UInt32, (m'.readByte offset).isSome = true) := by
  obtain ⟨-, hshows⟩ := (Memory.shows_of_create hle hm).performFrom hfits
  have hpages := hshows.pages_eq
  have hbound := Nat.le_trans hshows.bounded hmost
  have hsize : (m.performAll ops).2.size = (m.performAll ops).2.pages * 65536 := hpages ▸ hshows.size
  have htold : (memorySize (m.performAll ops).2).toNat = (m.performAll ops).2.size % 2 ^ 32 := UInt32.toNat_ofNat'
  have hread (offset : UInt32) : ((m.performAll ops).2.readByte offset).isSome = true ↔
      offset.toNat < (m.performAll ops).2.size := by
    rw [Memory.readByte_eq, Memory.getElem?_contents]
    split <;> simp_all
  rw [← hpages] at hbound
  refine ⟨_, (m.performAll ops).2.pages, rfl, rfl, hpages ▸ hshows.bounded, fun hlt => ?_, fun hall => ?_⟩
  · have hword : (memorySize (m.performAll ops).2).toNat = 65536 * (m.performAll ops).2.pages := by omega
    refine ⟨hword, fun offset => ?_⟩
    rw [hread, hword, hsize, Nat.mul_comm]
  · refine ⟨UInt32.toNat_inj.mp (htold.trans ?_), fun offset => (hread offset).mpr ?_⟩
    · rw [hsize, hall]
      rfl
    · have hoffset := offset.toNat_lt
      omega

/-- A memory of one page grows to two of three pages, which are all told. -/
theorem memorySize_agrees_two :
    ∃ m m' : Memory InstanceId, Memory.create 1 3 true = .ok m ∧ (m.performAll [.grow 1, .grow 7]).2 = m' ∧
      m'.perform (.grow 0) = (.grew 2, m') ∧ (memorySize m').toNat = 131072 ∧
      ((m'.readByte 131071).isSome = true ↔ (131071 : UInt32).toNat < (memorySize m').toNat) := by
  obtain ⟨m, hm, -⟩ := Memory.exists_create (ρ := InstanceId) (show 1 ≤ 3 by decide) true
  obtain ⟨m', pages, rfl, hgrow, -, hbelow, -⟩ := memorySize_agrees (show 1 ≤ 3 by decide) (by decide) hm
    [.grow 1, .grow 7] (by simp [Memory.Operation.Fits])
  have hpages : pages = 2 := by
    cases hm
    cases congrArg Prod.fst hgrow
    rfl
  subst hpages
  obtain ⟨hword, hread⟩ := hbelow (by decide)
  exact ⟨m, _, hm, rfl, hgrow, hword, hread _⟩

/-- The largest memory is told to have no bytes, and its first byte can be read. -/
theorem memorySize_largest :
    ∃ m : Memory InstanceId, Memory.create Memory.maxPages Memory.maxPages false = .ok m ∧
      m.perform (.grow 0) = (.grew Memory.maxPages, m) ∧ (memorySize m).toNat ≠ 65536 * Memory.maxPages ∧
      memorySize m = 0 ∧ (m.readByte 0).isSome = true :=
  ⟨_, rfl, rfl, by decide, rfl, rfl⟩

/-- What comes of operations on a new embedding, if it is made and nothing ends in a defect. -/
def session (config : EmbeddingConfig) (ops : List Operation) : Option Session := do
  let e ← (create config false).toOption
  (performAll ops { embedding := e }).toOption

theorem session_eq_some {ops : List Operation} (h : session config ops = some σ) :
    ∃ e, create config false = .ok e ∧ performAll ops { embedding := e } = .ok σ := by
  simp only [session, Option.bind_eq_bind, Option.bind_eq_some_iff, toOption_eq_some] at h
  exact h

theorem exists_of_map_toList {α β : Type} {f : α → β} {xs : Array α} {ys : List β} (h : xs.toList.map f = ys) (k : Nat)
    {b : β} (hb : ys[k]? = some b) : ∃ x, xs[k]? = some x ∧ f x = b := by
  subst h
  rwa [List.getElem?_map, Option.map_eq_some_iff, Array.getElem?_toList] at hb

/-- A module with a memory is instantiated, its memory grows as far as it can, and the host defines a memory. -/
def filled : List Operation :=
  [.compile (some storing) false, .instantiate 0 { name := some "a" } false, .growMemory 0 1, .growMemory 0 1,
    .host "h" [("m", .memory 1 3)]]

theorem performAll_memories_within_filled :
    ∃ e σ mem, create { maxPages := 3 } false = .ok e ∧ performAll filled { embedding := e } = .ok σ ∧
      σ.embedding.store.memories[0]? = some mem ∧ mem.pages = 2 ∧ mem.pages ≤ mem.max ∧ mem.max ≤ 3 := by
  have hok : (session { maxPages := 3 } filled).map (fun σ =>
      σ.embedding.store.memories.toList.map fun mem => (mem.pages, mem.max)) = some [(2, 2), (1, 3)] := by
    decide +kernel
  obtain ⟨σ, hσ, hmemories⟩ := Option.map_eq_some_iff.mp hok
  obtain ⟨e, hcreate, hr⟩ := session_eq_some hσ
  obtain ⟨mem, hmem, hpages⟩ := exists_of_map_toList hmemories 0 rfl
  obtain ⟨hle, hmax, -⟩ := performAll_memories_within hcreate hr 0 mem hmem
  exact ⟨e, σ, mem, hcreate, hr, hmem, congrArg Prod.fst hpages, hle, hmax⟩

/-- A limit of zero pages lets a module have a memory, and a limit that is too high lets the host have one that is too
large. -/
theorem session_exceeds :
    (session { maxPages := 0 } [.compile (some storing) false, .instantiate 0 { name := some "a" } false]).map
      (fun σ => σ.embedding.store.memories.toList.map fun mem => (mem.pages, mem.max)) = some [(1, 2)] ∧
    (session { maxPages := Memory.maxPages + 1 } [.host "h" [("m", .memory 0 (Memory.maxPages + 1))]]).map
      (fun σ => σ.embedding.store.memories.toList.map fun mem => (mem.pages, mem.max)) =
        some [(0, Memory.maxPages + 1)] := by
  decide +kernel

end ProtoWasm.Embedding
