import ProtoWasm.Proofs.Code.References
import ProtoWasm.Proofs.Store.Machine
import ProtoWasm.Proofs.Store.Registration

/-! # Who is told that a memory grew

The code of an instance embeds the extent of its memory. It is right as long as the instance is among the dependents of
the memory, which are told whenever the memory grows, and as long as nobody else tells it of an extent.
-/
namespace ProtoWasm

theorem Embedded.relocate_relocate (v : Embedded) (e : Extent) : (v.relocate e).relocate e = v.relocate e := by
  cases v <;> rfl

theorem LinkedCode.relocate_relocate (c : LinkedCode) (e : Extent) : (c.relocate e).relocate e = c.relocate e := by
  simp only [relocate, List.map_map, Function.comp_def, Embedded.relocate_relocate]

theorem Instance.told_told (x : Instance) (e : Extent) : (x.told e).told e = x.told e := by
  simp only [told, Option.map_map, Function.comp_def, LinkedCode.relocate_relocate]

namespace Store

open StoreM

variable {s s' s₀ : Store} {m : Module} {name : String} {key : ModuleKey} {x y : Instance} {i : InstanceId}
  {id : MemoryId} {mem : Memory InstanceId} {closed : List MemoryId}
  {source : List UInt8} {limit : Nat} {seen : List Section} {xs : Array Instance} {code : LinkedCode}

theorem getElem?_tell (e : Extent) (is : List InstanceId) (xs : Array Instance) (j : InstanceId) :
    (tell e is xs)[j]? = if j ∈ is then xs[j]?.map (·.told e) else xs[j]? := by
  induction is generalizing xs with
  | nil => rfl
  | cons i is ih =>
    rw [tell, ih, Array.getElem?_modify]
    by_cases hij : i = j
    · subst hij
      simp [Function.comp_def, Instance.told_told]
    · simp [hij, Ne.symm hij]

theorem exists_tell (e : Extent) (is : List InstanceId) (hx : xs[i]? = some x) :
    ∃ x', (tell e is xs)[i]? = some x' ∧ x'.memory = x.memory ∧ x'.ownsMemory = x.ownsMemory ∧
      x'.closed = x.closed := by
  rw [getElem?_tell, hx]
  split
  · exact ⟨_, rfl, rfl, rfl, rfl⟩
  · exact ⟨_, rfl, rfl, rfl, rfl⟩

def holding (x : Instance) : Option MemoryId × Bool × Bool × Option LinkedCode :=
  (x.memory, x.ownsMemory, x.closed, x.code)

/-- The memory was not closed, and no instance that owns it was. -/
structure InUse (closed : List MemoryId) (xs : Array Instance) (id : MemoryId) : Prop where
  spared : id ∉ closed
  owners : ∀ (i : InstanceId) x, xs[i]? = some x → x.memory = some id → x.ownsMemory = true → x.closed = false

/-- Code in a store embeds the memories as they are, unless they were closed. -/
structure Informed (closed : List MemoryId) (s : Store) : Prop where
  cached : ∀ key c, s.cache.find? key = some c → c.table.Annotated
  listed : ∀ (id : MemoryId) mem, s.memories[id]? = some mem →
    ∀ i ∈ mem.dependents, ∃ x, s.instances[i]? = some x ∧ x.memory = some id
  current : ∀ (i : InstanceId) x c id, s.instances[i]? = some x → x.closed = false → x.code = some c →
    x.memory = some id → InUse closed s.instances id →
      c.table.Annotated ∧ ∃ mem, s.memories[id]? = some mem ∧ i ∈ mem.dependents ∧ c.Embeds (mem.extent id)

theorem informed_empty (config : StoreConfig) : Informed [] { config } where
  cached _ _ h := nomatch h
  listed := by simp
  current := by simp

/-- A memory is in use if it is later, when those that own it are still there and none was closed or opened. -/
theorem InUse.before {xs' : Array Instance} (h : InUse closed xs' id)
    (hkept : ∀ (i : InstanceId) x, xs[i]? = some x → x.memory = some id → x.ownsMemory = true →
      ∃ x', xs'[i]? = some x' ∧ x'.memory = x.memory ∧ x'.ownsMemory = x.ownsMemory ∧ x'.closed = x.closed) :
    InUse closed xs id where
  spared := h.spared
  owners i x hx hid hown := by
    obtain ⟨x', hx', hmemory, howns, hclosed⟩ := hkept i x hx hid hown
    exact hclosed ▸ h.owners i x' hx' (hmemory.trans hid) (howns.trans hown)

theorem InUse.of_cons {k : MemoryId} (h : InUse (k :: closed) xs id) :
    k ≠ id ∧ InUse closed xs id := by
  have hspared := h.spared
  rw [List.mem_cons, not_or] at hspared
  exact ⟨Ne.symm hspared.1, hspared.2, h.owners⟩

namespace Informed

theorem same (h : Informed closed s) (hcache : s'.cache = s.cache) (hmemories : SameFrames s.memories s'.memories)
    (hinstances : ∀ i : InstanceId, s'.instances[i]?.map holding = s.instances[i]?.map holding) :
    Informed closed s' where
  cached := hcache ▸ h.cached
  listed id mem' hmem' i hi := by
    obtain ⟨mem, hmem, -, hdependents, -⟩ := hmemories.symm.exists hmem'
    obtain ⟨x, hx, hid⟩ := h.listed id mem hmem i (hdependents ▸ hi)
    have hsame := hinstances i
    rw [hx] at hsame
    obtain ⟨x', hx', hholding⟩ := Option.map_eq_some_iff.mp hsame
    exact ⟨x', hx', (congrArg Prod.fst hholding).trans hid⟩
  current i x' c id hx' hopen hc hid huse := by
    have hsame := (hinstances i).symm
    rw [hx'] at hsame
    obtain ⟨x, hx, hholding⟩ := Option.map_eq_some_iff.mp hsame
    simp only [holding, Prod.mk.injEq] at hholding
    obtain ⟨hmemory, -, hclosed, hcode⟩ := hholding
    have hbefore : InUse closed s.instances id := by
      refine huse.before fun j y hy _ _ => ?_
      have hsame := hinstances j
      rw [hy] at hsame
      obtain ⟨y', hy', hholding⟩ := Option.map_eq_some_iff.mp hsame
      simp only [holding, Prod.mk.injEq] at hholding
      exact ⟨y', hy', hholding.1, hholding.2.1, hholding.2.2.1⟩
    obtain ⟨ht, mem, hmem, hi, hembeds⟩ :=
      h.current i x c id hx (hclosed.trans hopen) (hcode.trans hc) (hmemory.trans hid) hbefore
    obtain ⟨mem', hmem', hextent, hdependents, -⟩ := hmemories.exists hmem
    exact ⟨ht, mem', hmem', hdependents ▸ hi, hextent ▸ hembeds⟩

/-- A memory grows. All that depend on it are told, and these are no others than those that use it. -/
theorem grow (h : Informed closed s) (hmem : s.memories[id]? = some mem) {delta : Nat} {mem' : Memory InstanceId}
    (hgrow : mem.grow delta = .ok mem') : Informed closed { s with
      memories := s.memories.setIfInBounds id mem'
      instances := tell (mem'.extent id) (mem.notified delta) s.instances } := by
  by_cases hdelta : delta = 0
  · subst hdelta
    cases hgrow
    rw [setIfInBounds_self hmem]
    exact h
  have hnotified : mem.notified delta = mem.dependents := if_neg hdelta
  obtain ⟨-, -, -, hdependents⟩ := Memory.grow_ok hgrow
  rw [hnotified]
  refine ⟨h.cached, fun k n hn j hj => ?_, fun j x' c k hx' hopen hc hid huse => ?_⟩
  · obtain ⟨y, hy, hid⟩ : ∃ y, s.instances[j]? = some y ∧ y.memory = some k := by
      obtain ⟨rfl, rfl⟩ | ⟨-, hn⟩ := of_getElem?_put hn
      · exact h.listed id mem hmem j (hdependents ▸ hj)
      · exact h.listed k n hn j hj
    obtain ⟨y', hy', hmemory, -⟩ := exists_tell (mem'.extent id) mem.dependents hy
    exact ⟨y', hy', hmemory.trans hid⟩
  · have hbefore : InUse closed s.instances k := huse.before fun i y hy _ _ => exists_tell _ _ hy
    rw [getElem?_tell] at hx'
    split at hx'
    · rename_i hj
      obtain ⟨x, hx, rfl⟩ := Option.map_eq_some_iff.mp hx'
      obtain ⟨y, hy, hyid⟩ := h.listed id mem hmem j hj
      cases hx.symm.trans hy
      obtain rfl : id = k := Option.some.inj (hyid.symm.trans hid)
      obtain ⟨c₀, hc₀, rfl⟩ := Option.map_eq_some_iff.mp hc
      obtain ⟨ht, n, hn, -, hembeds⟩ := h.current j x c₀ id hx hopen hc₀ hid hbefore
      exact ⟨ht, mem', getElem?_put hmem, hdependents ▸ hj, hembeds.relocate _⟩
    · rename_i hj
      obtain ⟨ht, n, hn, hjn, hembeds⟩ := h.current j x' c k hx' hopen hc hid hbefore
      have hk : id ≠ k := by
        rintro rfl
        cases hmem.symm.trans hn
        exact hj hjn
      exact ⟨ht, n, by rwa [Array.getElem?_setIfInBounds_ne hk], hjn, hembeds⟩

theorem evolves (h : Informed closed s) (hs : s.Evolves s') : Informed closed s' := by
  induction hs with
  | refl s => exact h
  | trans _ _ ih ih' => exact ih' (ih h)
  | signatures | log | metrics | storage => exact h.same rfl (.refl _) fun _ => rfl
  | write hm hb => exact h.same rfl (sameFrames_write hm hb) fun _ => rfl
  | grow hm hg => exact h.grow hm hg

end Informed

theorem getElem?_shut (s : Store) (i j : InstanceId) : (s.shut i).instances[j]? = if i = j then
      s.instances[j]?.map fun x => { x with closed := true, code := x.code.map LinkedCode.close }
    else s.instances[j]? := by
  rw [shut, Array.getElem?_modify]

/-- What is in use after an instance was closed was so before, and the instance does not own it. -/
theorem InUse.of_shut (h : InUse closed (s.shut i).instances id) :
    InUse closed s.instances id ∧ ∀ y, s.instances[i]? = some y → y.memory = some id → y.ownsMemory = false := by
  have hclosed : ∀ y, s.instances[i]? = some y → y.memory = some id → y.ownsMemory = false := by
    intro y hy hid
    by_contra hown
    have hshut := getElem?_shut s i i
    rw [if_pos rfl, hy, Option.map_some] at hshut
    cases h.owners i _ hshut hid (Bool.of_not_eq_false hown)
  refine ⟨h.before fun j y hy hid hown => ⟨y, ?_, rfl, rfl, rfl⟩, hclosed⟩
  have hij : i ≠ j := by
    rintro rfl
    cases (hclosed y hy hid).symm.trans hown
  rw [getElem?_shut, if_neg hij, hy]

/-- An instance is closed, and the memories keep their other dependents. -/
theorem Informed.shut (h : Informed closed s) {memories : Array (Memory InstanceId)}
    (hlisted : ∀ (k : MemoryId) mem', memories[k]? = some mem' →
      ∃ mem, s.memories[k]? = some mem ∧ ∀ j ∈ mem'.dependents, j ∈ mem.dependents)
    (hkept : ∀ (k : MemoryId) mem, s.memories[k]? = some mem → InUse closed (s.shut i).instances k →
      ∃ mem', memories[k]? = some mem' ∧ mem'.extent k = mem.extent k ∧
        ∀ j ∈ mem.dependents, j ≠ i → j ∈ mem'.dependents) : Informed closed { s.shut i with memories } where
  cached := h.cached
  listed k mem' hmem' j hj := by
    obtain ⟨mem, hmem, hsub⟩ := hlisted k mem' hmem'
    obtain ⟨x, hx, hid⟩ := h.listed k mem hmem j (hsub j hj)
    dsimp only
    rw [getElem?_shut, hx]
    split
    · exact ⟨_, rfl, hid⟩
    · exact ⟨x, rfl, hid⟩
  current j x c k hx hopen hc hid huse := by
    dsimp only at hx
    rw [getElem?_shut] at hx
    split at hx
    · obtain ⟨y, -, rfl⟩ := Option.map_eq_some_iff.mp hx
      cases hopen
    · rename_i hij
      obtain ⟨ht, mem, hmem, hj, hembeds⟩ := h.current j x c k hx hopen hc hid huse.of_shut.1
      obtain ⟨mem', hmem', hextent, hdependents⟩ := hkept k mem hmem huse
      exact ⟨ht, mem', hmem', hdependents j hj (Ne.symm hij), hextent ▸ hembeds⟩

/-- The memory of an instance that does not own it stays as it is, but for the instance among its dependents. -/
theorem leave_of_borrowed (hown : y.ownsMemory = false) (mem : Memory InstanceId) (k : MemoryId) :
    (leave i y mem).extent k = mem.extent k ∧ ∀ j ∈ mem.dependents, j ≠ i → j ∈ (leave i y mem).dependents := by
  unfold leave
  dsimp only
  rw [hown, if_neg Bool.false_ne_true]
  split
  · exact ⟨rfl, fun j hj hne => (List.mem_erase_of_ne hne).mpr hj⟩
  · exact ⟨rfl, fun j hj _ => hj⟩

theorem Informed.does_release (h : Informed closed s) (i : InstanceId) :
    Does False (release i) s fun _ s' => Informed closed s' := by
  refine does_release_of_stored fun y hy => ?_
  refine Store.does_release hy False.elim (fun _ => ?_) fun id mem hid hmem => ?_
  · exact h.shut (fun k mem hmem => ⟨mem, hmem, fun _ hj => hj⟩)
      fun k mem hmem _ => ⟨mem, hmem, rfl, fun _ hj _ => hj⟩
  · refine h.shut (fun k n hn => ?_) fun k n hn huse => ?_
    · obtain ⟨rfl, rfl⟩ | ⟨-, hn⟩ := of_getElem?_put hn
      · exact ⟨mem, hmem, fun j => mem_of_mem_leave⟩
      · exact ⟨n, hn, fun _ hj => hj⟩
    · by_cases hk : id = k
      · subst hk
        cases hmem.symm.trans hn
        have hown := huse.of_shut.2 y hy hid
        exact ⟨_, getElem?_put hmem, leave_of_borrowed hown mem id⟩
      · exact ⟨n, by rwa [Array.getElem?_setIfInBounds_ne hk], rfl, fun _ hj _ => hj⟩

theorem Grown.informed (hg : Grown s₀ m s) (hx : s.instances[s₀.instances.size]? = some x) (hcode : x.code = none)
    (h : Informed closed s₀) : Informed closed s where
  cached := hg.kept.cache ▸ h.cached
  listed k mem hmem j hj := by
    by_cases hlt : k < s₀.memories.size
    · have hold := Array.getElem?_eq_getElem hlt
      cases hmem.symm.trans (hg.kept.memories k _ hold)
      obtain ⟨y, hy, hid⟩ := h.listed k _ hold j hj
      exact ⟨y, hg.kept.instances j y hy, hid⟩
    · rw [(hg.newMemories k mem (Nat.le_of_not_lt hlt) hmem).1] at hj
      cases hj
  current j y c k hy hopen hc hid huse := by
    by_cases hlt : j < s₀.instances.size
    · have hold := Array.getElem?_eq_getElem hlt
      cases hy.symm.trans (hg.kept.instances j _ hold)
      have hbefore : InUse closed s₀.instances k :=
        huse.before fun i z hz _ _ => ⟨z, hg.kept.instances i z hz, rfl, rfl, rfl⟩
      obtain ⟨ht, mem, hmem, hj, hembeds⟩ := h.current j _ c k hold hopen hc hid hbefore
      exact ⟨ht, mem, hg.kept.memories k mem hmem, hj, hembeds⟩
    · have hsize := lt_size hy
      rw [hg.count] at hsize
      obtain rfl : j = s₀.instances.size := Nat.le_antisymm (Nat.le_of_lt_succ hsize) (Nat.le_of_not_lt hlt)
      cases hx.symm.trans hy
      cases hcode.symm.trans hc

theorem getElem?_attach (i : InstanceId) (memory : Option MemoryId) (ms : Array (Memory InstanceId)) (k : MemoryId) :
    (attach i memory ms)[k]? = if memory = some k then ms[k]?.map (·.addDependent i) else ms[k]? := by
  cases memory with
  | none => rfl
  | some id =>
    rw [attach, Array.getElem?_modify]
    simp only [Option.some.injEq]

theorem Informed.attach (h : Informed closed s) (hx : s.instances[i]? = some x)
    (ht : code.table.Annotated)
    (hsites : ∀ id, x.memory = some id → ∃ mem, s.memories[id]? = some mem ∧ code.Embeds (mem.extent id)) :
    Informed closed { s with
      instances := s.instances.modify i fun _ => { x with code := some code }
      memories := attach i x.memory s.memories } := by
  have hget (j : InstanceId) : (s.instances.modify i fun _ => { x with code := some code })[j]? =
      if i = j then some { x with code := some code } else s.instances[j]? := by
    rw [Array.getElem?_modify]
    split
    · rename_i hij
      rw [← hij, hx, Option.map_some]
    · rfl
  have hkept : ∀ (j : InstanceId) y, s.instances[j]? = some y →
      ∃ y', (s.instances.modify i fun _ => { x with code := some code })[j]? = some y' ∧ y'.memory = y.memory ∧
        y'.ownsMemory = y.ownsMemory ∧ y'.closed = y.closed := by
    intro j y hy
    rw [hget]
    split
    · rename_i hij
      subst hij
      cases hx.symm.trans hy
      exact ⟨_, rfl, rfl, rfl, rfl⟩
    · exact ⟨y, hy, rfl, rfl, rfl⟩
  refine ⟨h.cached, fun k mem' hmem' j hj => ?_, fun j y c k hy hopen hc hid huse => ?_⟩
  · -- the new dependent uses the memory, and the others did before
    obtain ⟨y, hy, hid⟩ : ∃ y, s.instances[j]? = some y ∧ y.memory = some k := by
      rw [getElem?_attach] at hmem'
      split at hmem'
      · rename_i hk
        obtain ⟨mem, hmem, rfl⟩ := Option.map_eq_some_iff.mp hmem'
        rcases List.mem_append.mp hj with hj | hj
        · exact h.listed k mem hmem j hj
        · exact ⟨x, List.mem_singleton.mp hj ▸ hx, hk⟩
      · exact h.listed k mem' hmem' j hj
    obtain ⟨y', hy', hmemory, -⟩ := hkept j y hy
    exact ⟨y', hy', hmemory.trans hid⟩
  · have hbefore : InUse closed s.instances k := huse.before fun j y hy _ _ => hkept j y hy
    have hframe : ∀ mem, s.memories[k]? = some mem → ∃ mem', (Store.attach i x.memory s.memories)[k]? = some mem' ∧
        mem'.extent k = mem.extent k ∧ (∀ j ∈ mem.dependents, j ∈ mem'.dependents) ∧
        (x.memory = some k → i ∈ mem'.dependents) := by
      intro mem hmem
      rw [getElem?_attach, hmem]
      split
      · exact ⟨_, rfl, rfl, fun j hj => List.mem_append_left _ hj, fun _ => List.mem_append_right _ List.mem_cons_self⟩
      · rename_i hk
        exact ⟨mem, rfl, rfl, fun _ hj => hj, fun hid => absurd hid hk⟩
    dsimp only at hy
    rw [hget] at hy
    split at hy
    · rename_i hij
      subst hij
      cases hy
      cases hc
      obtain ⟨mem, hmem, hembeds⟩ := hsites k hid
      obtain ⟨mem', hmem', hextent, -, hself⟩ := hframe mem hmem
      exact ⟨ht, mem', hmem', hself hid, hextent ▸ hembeds⟩
    · obtain ⟨ht, mem, hmem, hj, hembeds⟩ := h.current j y c k hy hopen hc hid hbefore
      obtain ⟨mem', hmem', hextent, hothers, -⟩ := hframe mem hmem
      exact ⟨ht, mem', hmem', hothers j hj, hextent ▸ hembeds⟩

/-- Code for imports has no graphs. -/
theorem Links.annotated {functions : List (Option FunctionId)} {memory : Option MemoryId}
    (h : s.Links key m functions memory code) (hc : code.compiled.table.Annotated) : code.table.Annotated := by
  obtain ⟨t, hb, ht⟩ := h.table
  intro k j g he
  rw [ht] at he
  by_cases hk : k < m.importedFunctions
  · obtain ⟨f, c, -, hcode, hentry⟩ := hb.imports k (Nat.zero_le k) (by omega)
    cases he.symm.trans hentry
    cases hcode
  · exact hc k j g ((hb.others k (.inr (by omega))).symm.trans he)

theorem Activated.informed {s₁ : Store} {x₁ : Instance} (ha : Activated s₀.instances.size key s x s₁ x₁)
    (hc : Complete s₀ m name s x) (hb : m.Built source limit seen) (h : Informed closed s₀) : Informed closed s₁ := by
  obtain ⟨code, hlink, rfl⟩ := ha.linked
  obtain ⟨tables, memories, hs₁⟩ := ha.eq_with
  obtain ⟨hx, hd⟩ := hc.drafted
  obtain rfl := hd.module
  have hs : Informed closed s := hd.toGrown.informed hx hd.code h
  have htries : Tries False (linkInstance x.name key x.module x.functions x.memory) s _ _ :=
    tries_linkInstance False.elim (hc.conforms.imported hb) hd.memory False.elim
  obtain ⟨-, -, hlinks⟩ := htries.of_ok hlink
  have ht := hlinks.annotated (hs.cached key _ hlinks.cached)
  refine (hs.attach hx ht hlinks.sites).same ?_ ha.attached fun j => ?_
  · rw [hs₁]
  · rw [hs₁]

theorem tries_prepare_informed (hb : m.Built source limit seen) (h : Informed closed s₀) :
    Tries False (prepare s₀.instances.size key) (s₀.withInstance name m)
      (fun _ s' => Informed closed s') fun _ s' => Informed closed s' := by
  refine (tries_prepare hb False.elim False.elim False.elim).imp ?_ ?_
  · rintro x₁ s₁ ⟨-, x, s, hx, ha⟩
    exact ha.informed hx hb h
  · rintro e s' ⟨-, x, hx, hpending⟩
    exact hpending.toGrown.informed hx hpending.code h

theorem tries_instantiate_informed (hb : m.Built source limit seen) (h : Informed closed s)
    (startDisabled canceled : Bool) :
    Tries False (instantiate key m name startDisabled canceled) s (fun _ s' => Informed closed s')
      fun _ s' => Informed closed s' := by
  refine tries_instantiate_invariant (tries_prepare_informed hb h) (fun h => h.evolves) ?_
    (fun h => h.does_release) startDisabled canceled
  -- exports have nothing to do with memories
  intro s h i x exports exported names hx
  refine h.same rfl (.refl _) fun j => ?_
  dsimp only
  rw [Array.getElem?_modify]
  split
  · rename_i hij
    subst hij
    rw [hx]
    rfl
  · rfl

end Store

end ProtoWasm
