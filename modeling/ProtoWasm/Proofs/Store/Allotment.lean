import ProtoWasm.Proofs.Store.Notification

/-! # What a store does to its memories -/
namespace ProtoWasm

namespace Memory

variable {ρ : Type} {m m' : Memory ρ}

def Capped (m : Memory ρ) : Prop := m.pages ≤ m.max

theorem Capped.grow (hm : m.Capped) {delta : Nat} (h : m.grow delta = .ok m') : m'.Capped := by
  have hmax := (grow_ok h).2.2.1
  unfold Memory.grow at h
  split at h
  · cases h
    exact hm
  · split at h
    · cases h
    · rename_i hdelta hle
      have hroom : m.size ≤ bytesOfPages (m.pages + delta) := by
        unfold bytesOfPages pages pageSize
        omega
      rw [Capped, pages, (resize_ok h hroom).1, hmax, bytesOfPages, Nat.mul_div_cancel _ (by decide)]
      exact Nat.le_of_not_lt hle

theorem Capped.close (hm : m.Capped) : m.close.Capped := by
  unfold Capped pages size buffer Memory.close at *
  cases hb : m.backing with
  | block b =>
    rw [hb] at hm
    exact hm
  | reserved r => exact Nat.le_trans (Nat.le_of_eq (Nat.zero_div _)) (Nat.zero_le _)

end Memory

namespace Store

open StoreM

variable {s s' s₀ : Store} {m : Module} {name : String} {x y : Instance} {key : ModuleKey} {b : Nat}
  {source : List UInt8} {limit : Nat} {seen : List Section} {ms ms' ms'' : Array (Memory InstanceId)}

/-- Memories keep their maximum and stay below it, and those that are new may have at most so many pages. -/
structure Allots (b : Nat) (ms ms' : Array (Memory InstanceId)) : Prop where
  kept : ∀ (k : MemoryId) mem, ms[k]? = some mem →
    ∃ mem', ms'[k]? = some mem' ∧ mem'.max = mem.max ∧ (mem.Capped → mem'.Capped)
  added : ∀ (k : MemoryId) mem', ms.size ≤ k → ms'[k]? = some mem' → mem'.Capped ∧ mem'.max ≤ b

namespace Allots

theorem refl (b : Nat) (ms : Array (Memory InstanceId)) : Allots b ms ms where
  kept _ mem hmem := ⟨mem, hmem, rfl, id⟩
  added _ _ := none_beyond

theorem trans (h : Allots b ms ms') (h' : Allots b ms' ms'') : Allots b ms ms'' where
  kept k mem hmem := by
    obtain ⟨mem', hmem', hmax, hcap⟩ := h.kept k mem hmem
    obtain ⟨mem'', hmem'', hmax', hcap'⟩ := h'.kept k mem' hmem'
    exact ⟨mem'', hmem'', hmax'.trans hmax, hcap' ∘ hcap⟩
  added k mem'' hk hmem'' := by
    by_cases hlt : k < ms'.size
    · have hmem' := Array.getElem?_eq_getElem hlt
      obtain ⟨hcap, hle⟩ := h.added k _ hk hmem'
      obtain ⟨mem, hmem, hmax, hcap'⟩ := h'.kept k _ hmem'
      cases hmem.symm.trans hmem''
      exact ⟨hcap' hcap, hmax ▸ hle⟩
    · exact h'.added k mem'' (Nat.le_of_not_lt hlt) hmem''

theorem set {k : MemoryId} {mem mem' : Memory InstanceId} (hmem : ms[k]? = some mem) (hmax : mem'.max = mem.max)
    (hcap : mem.Capped → mem'.Capped) : Allots b ms (ms.setIfInBounds k mem') where
  kept _ _ := exists_getElem?_put (R := fun m m' => m'.max = m.max ∧ (m.Capped → m'.Capped)) hmem
    ⟨hmax, hcap⟩ fun _ => ⟨rfl, id⟩
  added j n hj hn := by
    have hlt := lt_size hn
    rw [Array.size_setIfInBounds] at hlt
    exact absurd hlt (Nat.not_lt.mpr hj)

theorem ofKeeps (h : Keeps ms ms')
    (hadded : ∀ (k : MemoryId) mem', ms.size ≤ k → ms'[k]? = some mem' → mem'.Capped ∧ mem'.max ≤ b) :
    Allots b ms ms' where
  kept k mem hmem := ⟨mem, h k mem hmem, rfl, id⟩
  added := hadded

theorem ofSameFrames (h : SameFrames ms ms') : Allots b ms ms' where
  kept k mem hmem := by
    obtain ⟨mem', hmem', hextent, -, hmax⟩ := h.exists hmem
    have hsize : mem'.size = mem.size := congrArg Extent.size hextent
    refine ⟨mem', hmem', hmax, fun hcap => ?_⟩
    rw [Memory.Capped, Memory.pages, hsize, hmax]
    exact hcap
  added k mem' hk hmem' := by
    obtain ⟨mem, hmem, -⟩ := h.symm.exists hmem'
    exact none_beyond hk hmem

end Allots

theorem Evolves.allots (h : s.Evolves s') (b : Nat) : Allots b s.memories s'.memories := by
  induction h with
  | refl s => exact .refl b _
  | trans _ _ ih ih' => exact ih.trans ih'
  | signatures s | log s | metrics s => exact .refl b _
  | write hm hb =>
    refine .set hm rfl fun hcap => ?_
    rw [Memory.Capped, Memory.pages, Memory.size_setBuffer, hb]
    exact hcap
  | grow hm hg => exact .set hm (Memory.grow_ok hg).2.2.1 fun hcap => hcap.grow hg
  | storage hb hlen => exact .refl b _

theorem Grown.allots (h : Grown s₀ m s) (hb : m.Built source limit seen) : Allots limit s₀.memories s.memories := by
  refine .ofKeeps h.kept.memories fun k mem hk hmem => ?_
  obtain ⟨t, ht, hpages, hmax⟩ := h.declared k mem hk hmem
  obtain ⟨⟨hmin, hle⟩, -⟩ := hb.memory t ht
  rw [Memory.Capped, hpages, hmax]
  exact ⟨hmin, hle⟩

theorem allots_attach (i : InstanceId) (memory : Option MemoryId) (ms : Array (Memory InstanceId)) :
    Allots b ms (attach i memory ms) where
  kept k mem hmem := by
    rw [getElem?_attach, hmem]
    split
    · exact ⟨_, rfl, rfl, id⟩
    · exact ⟨_, rfl, rfl, id⟩
  added k mem' hk hmem' := by
    have hlt := lt_size hmem'
    rw [size_attach] at hlt
    exact absurd hlt (Nat.not_lt.mpr hk)

theorem allots_leave {i : InstanceId} {id : MemoryId} {mem : Memory InstanceId} (hmem : ms[id]? = some mem) :
    Allots b ms (ms.setIfInBounds id (leave i y mem)) := by
  obtain ⟨mem', hmem', hmax, hcap⟩ : ∃ mem', mem' = (if y.code.isSome then mem.removeDependent i else mem) ∧
      mem'.max = mem.max ∧ (mem.Capped → mem'.Capped) := by
    split
    · exact ⟨_, rfl, rfl, fun h => h⟩
    · exact ⟨_, rfl, rfl, fun h => h⟩
  unfold leave
  dsimp only
  rw [← hmem']
  split
  · exact .set hmem hmax fun h => (hcap h).close
  · exact .set hmem hmax hcap

theorem does_release_allots (i : InstanceId) :
    Does False (release i) s fun _ s' => Allots b s.memories s'.memories :=
  does_release_of_stored fun _ hy => does_release hy False.elim (fun _ => .refl b _) fun _ _ _ hmem => allots_leave hmem

theorem does_closeInstance_allots (i : InstanceId) :
    Does False (closeInstance i) s fun _ s' => Allots b s.memories s'.memories := by
  refine Does.bind (does_getInstance False.elim fun x _ => ?_)
  split
  · exact does_pure (.refl b _)
  · exact does_release_allots i

theorem tries_prepare_allots (hb : m.Built source limit seen) :
    Tries False (prepare s.instances.size key) (s.withInstance name m)
      (fun _ s' => Allots limit s.memories s'.memories) fun _ s' => Allots limit s.memories s'.memories := by
  refine (tries_prepare hb False.elim False.elim False.elim).imp ?_ ?_
  · rintro x₁ s₁ ⟨-, x, s', hx, ha⟩
    exact ((hx.drafted.2.toGrown.allots hb).trans (allots_attach _ _ _)).trans (.ofSameFrames ha.attached)
  · rintro e s' ⟨-, x, hx, hpending⟩
    exact hpending.toGrown.allots hb

theorem tries_instantiate_allots (hb : m.Built source limit seen) (startDisabled canceled : Bool) :
    Tries False (instantiate key m name startDisabled canceled) s
      (fun _ s' => Allots limit s.memories s'.memories) fun _ s' => Allots limit s.memories s'.memories := by
  refine tries_instantiate_invariant (I := fun s' => Allots limit s.memories s'.memories)
    (tries_prepare_allots hb) (fun h he => h.trans (he.allots limit)) ?_ ?_ startDisabled canceled
  · exact fun h _ _ _ _ _ _ => h
  · exact fun h i => (does_release_allots i).imp fun _ _ h' => h.trans h'

end Store

end ProtoWasm
