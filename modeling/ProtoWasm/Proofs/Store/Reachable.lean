import ProtoWasm.Proofs.Store.Instantiation
import ProtoWasm.Store.Compile

/-! # Stores that can be reached are sound -/
namespace ProtoWasm

theorem lookup_filter_ne {κ α : Type} [BEq κ] [LawfulBEq κ] (k k' : κ) (xs : List (κ × α)) :
    (xs.filter fun x => x.1 != k).lookup k' = if k' == k then none else xs.lookup k' := by
  induction xs with
  | nil => simp
  | cons x xs ih =>
    obtain ⟨k₀, a⟩ := x
    rw [List.filter_cons]
    split
    · rename_i h
      simp only [List.lookup_cons, ih]
      split
      · rename_i h'
        rw [beq_iff_eq] at h'
        subst h'
        rw [if_neg (by simpa using h)]
      · rfl
    · rename_i h
      obtain rfl : k₀ = k := by simpa using h
      rw [ih, List.lookup_cons]
      cases k' == k₀ <;> rfl

theorem Namespace.resolve?_remove {α : Type} {ns : Namespace α} {name module field : String} {a : α}
    (h : (ns.remove name).resolve? module field = some a) : ns.resolve? module field = some a := by
  obtain ⟨fields, hfields, hfield⟩ := Option.bind_eq_some_iff.mp h
  refine Option.bind_eq_some_iff.mpr ⟨fields, ?_, hfield⟩
  have hlookup := (lookup_filter_ne name module ns.modules).symm.trans hfields
  split at hlookup
  · cases hlookup
  · exact hlookup

namespace Store

open StoreM

/-- One operation on a store. The values that a program registers are in the store, and its globals hold values. -/
inductive Step (s : Store) : Store → Prop
  | newKey : Step s { s with nextKey := s.nextKey + 1 }
  | compile {key m canceled r s'} (h : Store.compile key m canceled s = .ok (r, s')) : Step s s'
  | deleteCompiled (key : ModuleKey) : Step s { s with cache := s.cache.delete key }
  | addTable (min max : Nat) : Step s { s with tables := s.tables.push (.create min max) }
  | addMemory {min max guarded mem} (h : Memory.create min max guarded = .ok mem) :
      Step s { s with memories := s.memories.push mem }
  | addGlobal {t v g s'} (ht : t.valType.isValue = true) (h : addHostGlobal t v s = .ok (g, s')) : Step s s'
  | register (module field : String) {v} (hv : s.Has v) :
      Step s { s with names := s.names.register module field v }
  | removeName (name : String) : Step s { s with names := s.names.remove name }
  | typeId {t k s'} (h : Store.typeId t s = .ok (k, s')) : Step s s'
  | instantiate {source maxPages checks key m name startDisabled canceled r s'}
      (hm : Module.decodeUnder source maxPages checks = .ok m)
      (h : Store.instantiate key m name startDisabled canceled s = .ok (r, s')) : Step s s'
  | call {f params canceled r s'} (h : Store.call f params canceled s = .ok (r, s')) : Step s s'
  | callVia {i f params canceled r s'} (h : Store.callVia i f params canceled s = .ok (r, s')) : Step s s'
  | growMemory {i delta r s'} (h : Store.growMemory i delta s = .ok (r, s')) : Step s s'
  | writeMemory {id mem} (h : s.memories[id]? = some mem) (bytes : Buffer) :
      Step s { s with memories := s.memories.setIfInBounds id (mem.setBuffer bytes) }
  | closeMemory {id mem} (h : s.memories[id]? = some mem) :
      Step s { s with memories := s.memories.setIfInBounds id mem.close }
  | setGlobal {g v r s'} (h : Store.setGlobal g v s = .ok (r, s')) : Step s s'
  | relocate {i target r s'} (h : Store.relocate i target s = .ok (r, s')) : Step s s'
  | foreignExtent {size r s'} (h : Store.foreignExtent size s = .ok (r, s')) : Step s s'
  | closeInstance {i r s'} (h : Store.closeInstance i s = .ok (r, s')) : Step s s'

/-- The store comes from an empty one by operations. -/
inductive Reachable : Store → Prop
  | empty (config : StoreConfig) : Reachable { config }
  | step {s s'} (h : Reachable s) (hs : Step s s') : Reachable s'

variable {s s' : Store} {key : ModuleKey} {m : Module} {canceled : Bool} {r : Except Error Unit}
  {i : InstanceId}

theorem sound_empty (config : StoreConfig) : Sound { config } where
  owners := by simp
  views := by simp
  resolved _ _ _ h := nomatch h
  dependents := by simp

/-- Compiling a module changes nothing but what is kept of it, and the metrics. -/
theorem eq_of_compile
    (h : Store.compile key m canceled s = .ok (r, s')) : ∃ cache metrics, s' = { s with cache, metrics } := by
  have htries : Tries False (Store.compile key m canceled) s
      (fun _ s' => ∃ cache metrics, s' = { s with cache, metrics })
      fun _ s' => ∃ cache metrics, s' = { s with cache, metrics } := by
    refine Tries.bind (tries_get ?_)
    dsimp only
    split
    · exact tries_pure ⟨_, _, rfl⟩
    · split
      · exact Tries.after (does_defect id)
      · refine Tries.bind (tries_modify ?_)
        split
        · exact tries_throw ⟨_, _, rfl⟩
        · exact tries_modify ⟨_, _, rfl⟩
  cases r with
  | ok x => exact htries.of_ok h
  | error e => exact htries.of_error h

theorem sound_compile (h : Store.compile key m canceled s = .ok (r, s')) (hs : s.Sound) : s'.Sound := by
  obtain ⟨cache, metrics, rfl⟩ := eq_of_compile h
  exact { hs with }

theorem sound_addHostGlobal {t : GlobalType} (ht : t.valType.isValue = true) {v : UInt64} {g : GlobalId}
    (h : addHostGlobal t v s = .ok (g, s')) (hs : s.Sound) : s'.Sound := by
  have hdoes : Does False (addHostGlobal t v) s fun _ s' => s'.Sound := by
    refine Does.bind (does_modifyGet (Does.bind (does_modifyGet ?_)))
    refine Does.bind ((livesOn_setGlobal _ v _).imp ?_)
    intro _ s₁ hlives
    refine does_pure (Sound.lives ?_ hlives.lives)
    exact (hs.addStorage _).addGlobal ht ⟨_, Array.getElem?_push_size, by simp⟩
  exact hdoes.of_eq h

theorem sound_instantiate {source : List UInt8} {limit : Nat} {seen : List Section}
    (hb : m.Built source limit seen) {name : String} {startDisabled : Bool}
    {r : Except Error InstanceId} (h : Store.instantiate key m name startDisabled canceled s = .ok (r, s'))
    (hs : s.Sound) : s'.Sound := by
  cases r with
  | ok i =>
    obtain ⟨-, x, hx⟩ := instantiate_ok hb h
    exact hx.sound hs
  | error e => exact (instantiate_error hb h).2 hs

theorem sound_relocate {target : Extent} {n : Nat}
    (h : Store.relocate i target s = .ok (n, s')) (hs : s.Sound) : s'.Sound := by
  have hdoes : Does False (Store.relocate i target) s fun _ s' => s'.Sound := by
    refine Does.bind ((livesOn_getCode i s).imp ?_)
    intro code s₁ hlives
    exact Does.bind (does_modify (does_pure ((hs.lives hlives.lives).modifyInstances i _)))
  exact hdoes.of_eq h

theorem sound_closeInstance {u : Unit} (h : Store.closeInstance i s = .ok (u, s')) (hs : s.Sound) :
    s'.Sound := by
  have hdoes : Does False (Store.closeInstance i) s fun _ s' => s'.Sound := by
    refine Does.bind (does_getInstance False.elim fun x _ => ?_)
    split
    · exact does_pure hs
    · exact (does_release_sound i).imp fun _ _ h => h hs
  exact hdoes.of_eq h

theorem Step.sound (h : Step s s') (hs : s.Sound) : s'.Sound := by
  cases h with
  | newKey | deleteCompiled key => exact { hs with }
  | compile h => exact sound_compile h hs
  | addTable min max => exact hs.addTable _
  | addMemory h => exact hs.addMemory (by simp [(Memory.create_ok h).1])
  | addGlobal ht h => exact sound_addHostGlobal ht h hs
  | register module field hv => exact hs.register module field hv
  | removeName name =>
    exact { hs with resolved := fun module field v hv => hs.resolved module field v (Namespace.resolve?_remove hv) }
  | typeId h => exact hs.lives ((livesOn_typeId _ s).of_eq h).lives
  | instantiate hm h =>
    obtain ⟨seen, hb⟩ := Module.built_decodeUnder hm
    exact sound_instantiate hb h hs
  | call h => exact hs.lives ((livesOn_call _ _ _ s).of_eq h).lives
  | callVia h => exact hs.lives ((livesOn_callVia _ _ _ _ s).of_eq h).lives
  | growMemory h => exact hs.lives ((livesThrough_growMemory _ _).run s |>.of_eq h).lives
  | @writeMemory id mem h bytes =>
    have hmem : ∀ i ∈ (mem.setBuffer bytes).dependents, i < s.instances.size := hs.dependents id mem h
    exact hs.setMemory hmem
  | closeMemory h => exact hs.setMemory fun i hi => nomatch hi
  | setGlobal h => exact hs.lives ((livesOn_setGlobal _ _ s).of_eq h).lives
  | relocate h => exact sound_relocate h hs
  | foreignExtent h =>
    cases h
    exact { hs with }
  | closeInstance h => exact sound_closeInstance h hs

theorem Reachable.sound (h : Reachable s) : s.Sound := by
  induction h with
  | empty config => exact sound_empty config
  | step _ hs ih => exact hs.sound ih

end Store

end ProtoWasm
