import ProtoWasm.Proofs.Store.Notification
import ProtoWasm.Proofs.Store.Outcome

/-! # What code reads of its memory

Modules may be instantiated and fail to, memories may grow by way of any instance, instances may be closed, and calls
may be under way: as long as a memory is not closed, the code of every open instance that uses it finds it as it is.
-/
namespace ProtoWasm.Store

open StoreM

namespace Config

variable {canceled : Bool} {c d : Config}

theorem store_turnConfig (t : Turn) (K : List Waiting) (s : Store) : (t.config K s).store = s := by
  cases t with
  | call plan => cases plan <;> rfl
  | pass | run | host => rfl

theorem store_planConfig {α : Type} (plan : Plan α) (fr : Frame) (next : α → Process Outcome) (K : List Waiting)
    (s : Store) : (plan.config fr next K s).store = s := by
  cases plan <;> rfl

theorem Step.evolves (h : c.Step canceled d) : c.store.Evolves d.store := by
  cases h with
  | overflow | cancel | stuck | done | defect | resume | leave | leaveHost => exact .refl _
  | turn _ _ h =>
    rw [store_turnConfig]
    exact ((does_turn _ _).of_eq h).1
  | ask h =>
    rw [store_planConfig]
    exact ((plans_answer _ _ _).of_eq h).1

theorem Reaches.evolves (h : c.Reaches canceled d) : c.store.Evolves d.store := by
  induction h with
  | refl c => exact .refl _
  | step hs _ ih => exact hs.evolves.trans ih

theorem start_evolves (f : FunctionId) (params : List UInt64) (s : Store) : s.Evolves (start f params s).store := by
  unfold start
  split
  · rename_i plan s' hplan
    rw [store_turnConfig]
    exact ((plans_function 0 f params s).of_eq hplan).1
  · exact .refl s

end Config

/-- The store comes from an empty one by operations, and the memories of the list were closed in the course of them. -/
inductive Reached : List MemoryId → Store → Prop
  | empty (config : StoreConfig) : Reached [] { config }
  /-- An operation that leaves memories, instances and compiled modules alone. -/
  | aside {closed s s'} (h : Reached closed s) (hs : Step s s') (hm : s'.memories = s.memories)
      (hi : s'.instances = s.instances) (hc : s'.cache = s.cache) : Reached closed s'
  | compile {closed s s' source maxPages checks key m canceled r} (h : Reached closed s)
      (hm : Module.decodeUnder source maxPages checks = .ok m) (hs : Store.compile key m canceled s = .ok (r, s')) :
      Reached closed s'
  | deleteCompiled {closed s} (h : Reached closed s) (key : ModuleKey) :
      Reached closed { s with cache := s.cache.delete key }
  | addMemory {closed s min max guarded mem} (h : Reached closed s) (hs : Memory.create min max guarded = .ok mem) :
      Reached closed { s with memories := s.memories.push mem }
  | writeMemory {closed s id mem mem' offset bytes} (h : Reached closed s) (hmem : s.memories[id]? = some mem)
      (hs : mem.write offset bytes = some mem') :
      Reached closed { s with memories := s.memories.setIfInBounds id mem' }
  | growMemory {closed s s' i delta r} (h : Reached closed s) (hs : Store.growMemory i delta s = .ok (r, s')) :
      Reached closed s'
  | closeMemory {closed s id mem} (h : Reached closed s) (hmem : s.memories[id]? = some mem) :
      Reached (id :: closed) { s with memories := s.memories.setIfInBounds id mem.close }
  | instantiate {closed s s' source maxPages checks key m name startDisabled canceled r} (h : Reached closed s)
      (hm : Module.decodeUnder source maxPages checks = .ok m)
      (hs : Store.instantiate key m name startDisabled canceled s = .ok (r, s')) : Reached closed s'
  /-- A module is being instantiated, and its start function is next. -/
  | prepare {closed s s' source maxPages checks key m name x} (h : Reached closed s)
      (hm : Module.decodeUnder source maxPages checks = .ok m)
      (hs : Store.prepare s.instances.size key { s with instances := s.instances.push (.ofModule name m) } =
        .ok (.ok x, s')) : Reached closed s'
  /-- A call is under way, or has come to its end. -/
  | call {closed s f params canceled c} (h : Reached closed s)
      (hs : (Config.start f params s).Reaches canceled c) : Reached closed c.store
  | callVia {closed s s' i f params canceled r} (h : Reached closed s)
      (hs : Store.callVia i f params canceled s = .ok (r, s')) : Reached closed s'
  | closeInstance {closed s s' i r} (h : Reached closed s) (hs : Store.closeInstance i s = .ok (r, s')) :
      Reached closed s'

variable {s s' : Store} {closed : List MemoryId} {mem : Memory InstanceId} {id : MemoryId}

theorem CodeCache.find?_insert (c : CodeCache) (key key' : ModuleKey) (code : CompiledModule) :
    (c.insert key code).find? key' = if key' == key then some code else c.find? key' := by
  rw [CodeCache.find?, CodeCache.insert, List.lookup_cons, lookup_filter_ne key key' c.modules]
  cases key' == key <;> rfl

theorem CodeCache.find?_delete (c : CodeCache) (key key' : ModuleKey) :
    (c.delete key).find? key' = if key' == key then none else c.find? key' :=
  lookup_filter_ne key key' c.modules

namespace Informed

theorem compile (h : Informed closed s) {source : List UInt8} {limit : Nat} {seen : List Section} {m : Module}
    (hb : m.Built source limit seen) {key : ModuleKey} {canceled : Bool} {r : Except Error Unit}
    (hs : Store.compile key m canceled s = .ok (r, s')) : Informed closed s' := by
  have htries : Tries False (Store.compile key m canceled) s (fun _ s' => Informed closed s')
      fun _ s' => Informed closed s' := by
    refine Tries.bind (tries_get ?_)
    dsimp only
    split
    · exact tries_pure h
    · split
      · exact Tries.after (does_defect id)
      · refine Tries.bind (tries_modify ?_)
        split
        · exact tries_throw (h.evolves (.metrics s _))
        · rename_i code hcode
          refine tries_modify { h with cached := fun key' c hc => ?_ }
          rw [CodeCache.find?_insert] at hc
          split at hc
          · cases hc
            exact (hb.compiled hcode).annotated
          · exact h.cached key' c hc
  cases r with
  | ok u => exact htries.of_ok hs
  | error e => exact htries.of_error hs

theorem deleteCompiled (h : Informed closed s) (key : ModuleKey) :
    Informed closed { s with cache := s.cache.delete key } :=
  { h with
    cached := by
      intro key' c hc
      rw [CodeCache.find?_delete] at hc
      split at hc
      · cases hc
      · exact h.cached key' c hc }

theorem addMemory (h : Informed closed s) (hmem : mem.dependents = []) :
    Informed closed { s with memories := s.memories.push mem } :=
  { h with
    listed := by
      intro k n hn j hj
      rw [Array.getElem?_push] at hn
      split at hn
      · cases hn
        rw [hmem] at hj
        cases hj
      · exact h.listed k n hn j hj
    current := by
      intro j x c k hx hopen hc hid huse
      obtain ⟨ht, n, hn, hj, hembeds⟩ := h.current j x c k hx hopen hc hid huse
      exact ⟨ht, n, (Keeps.refl _).push mem k n hn, hj, hembeds⟩ }

theorem closeMemory (h : Informed closed s) (id : MemoryId) (mem : Memory InstanceId) :
    Informed (id :: closed) { s with memories := s.memories.setIfInBounds id mem.close } := by
  refine ⟨h.cached, fun k n hn j hj => ?_, fun j x c k hx hopen hc hid huse => ?_⟩
  · obtain ⟨-, rfl⟩ | ⟨-, hn⟩ := of_getElem?_put hn
    · cases hj
    · exact h.listed k n hn j hj
  · obtain ⟨hk, hbefore⟩ := huse.of_cons
    obtain ⟨ht, n, hn, hj, hembeds⟩ := h.current j x c k hx hopen hc hid hbefore
    exact ⟨ht, n, by rwa [Array.getElem?_setIfInBounds_ne hk], hj, hembeds⟩

end Informed

theorem Reached.informed (h : Reached closed s) : Informed closed s := by
  induction h with
  | empty config => exact informed_empty config
  | aside _ _ hm hi hc ih => exact ih.same hc (hm ▸ .refl _) fun _ => by rw [hi]
  | compile _ hm hs ih =>
    obtain ⟨seen, hb⟩ := Module.built_decodeUnder hm
    exact ih.compile hb hs
  | deleteCompiled _ key ih => exact ih.deleteCompiled key
  | addMemory _ hs ih => exact ih.addMemory (Memory.create_ok hs).1
  | writeMemory _ hmem hs ih =>
    unfold Memory.write at hs
    split at hs
    · cases hs
      exact ih.same rfl (sameFrames_write hmem (Buffer.size_write _ _ _)) fun _ => rfl
    · cases hs
  | growMemory _ hs ih => exact ih.evolves ((livesThrough_growMemory _ _).run _ |>.of_eq hs)
  | @closeMemory _ _ id mem _ _ ih => exact ih.closeMemory id mem
  | @instantiate _ _ _ _ _ _ _ _ _ _ _ r _ hm hs ih =>
    obtain ⟨seen, hb⟩ := Module.built_decodeUnder hm
    cases r with
    | ok i => exact (tries_instantiate_informed hb ih _ _).of_ok hs
    | error e => exact (tries_instantiate_informed hb ih _ _).of_error hs
  | prepare _ hm hs ih =>
    obtain ⟨seen, hb⟩ := Module.built_decodeUnder hm
    exact (tries_prepare_informed hb ih).of_ok hs
  | call _ hs ih => exact ih.evolves ((Config.start_evolves _ _ _).trans hs.evolves)
  | callVia _ hs ih => exact ih.evolves ((livesOn_callVia _ _ _ _ _).of_eq hs)
  | @closeInstance _ _ _ i _ _ hs ih =>
    have hdoes : Does False (Store.closeInstance i) _ _ := Does.bind (does_getInstance False.elim fun x _ =>
      does_ite (does_pure ih) (ih.does_release i))
    exact hdoes.of_eq hs

section

variable {enter : Enter} {i : InstanceId} {x : Instance} {c : LinkedCode} {k n depth : Nat} {g : Graph}

theorem answer_reference (fr : Frame) (n : NodeId) : answer enter fr (.reference n) = referenceAt fr n := by
  change (referenceAt fr n >>= fun a => pure (Plan.give a)) >>= _ = _
  rw [bind_assoc]
  exact bind_pure _

theorem answer_reference_size (hx : s.instances[i]? = some x) (hc : x.code = some c) {size : Nat}
    (hv : c.memoryValue? k n = some (.size size)) :
    answer enter ⟨i, some (k, g), depth⟩ (.reference n) s = .ok (some (.size size), s) := by
  rw [answer_reference]
  refine (bind_of_ok (getCode_of_some hx hc)).trans ?_
  rw [hv]
  rfl

theorem answer_reference_base (hx : s.instances[i]? = some x) (hc : x.code = some c)
    (hid : x.memory = some id) (hmem : s.memories[id]? = some mem)
    (hv : c.memoryValue? k n = some (.base (mem.extent id).address)) :
    answer enter ⟨i, some (k, g), depth⟩ (.reference n) s = .ok (some (.base true), s) := by
  rw [answer_reference]
  refine (bind_of_ok (getCode_of_some hx hc)).trans ?_
  rw [hv]
  refine (bind_of_ok (getInstance_of_some hx)).trans ?_
  have hget : getMemory id s = .ok (mem, s) := by
    change expect .unset s.memories[id]? s = _
    rw [hmem]
    rfl
  have hexpect : expect .unset x.memory s = .ok (id, s) := by
    rw [hid]
    rfl
  refine (bind_of_ok hexpect).trans ((bind_of_ok hget).trans ?_)
  rw [decide_eq_true rfl]
  rfl

/-- An open instance that uses a memory which was not closed: each of its nodes that stands for the size of the memory
or for its base has a value, which is that of the memory as it is. -/
theorem Reached.references_current (h : Reached closed s) (hx : s.instances[i]? = some x) (hopen : x.closed = false)
    (hc : x.code = some c) {id : MemoryId} (hid : x.memory = some id) (huse : InUse closed s.instances id) :
    ∃ mem, s.memories[id]? = some mem ∧ ∀ k g n y, .function k g ∈ c.table.entries → g.node? n = some y →
      ∀ enter depth,
        (y.op = .memorySize →
          answer enter ⟨i, some (k, g), depth⟩ (.reference n) s = .ok (some (.size mem.size), s)) ∧
        (y.op = .memoryBase → answer enter ⟨i, some (k, g), depth⟩ (.reference n) s = .ok (some (.base true), s)) := by
  obtain ⟨ht, mem, hmem, -, hembeds⟩ := h.informed.current i x c id hx hopen hc hid huse
  refine ⟨mem, hmem, fun k g n y hg hy enter depth => ⟨fun hop => ?_, fun hop => ?_⟩⟩
  · have hv : c.memoryValue? k n = some (.of .size (mem.extent id)) := hembeds.memoryValue? ht hg hy hop
    exact answer_reference_size hx hc hv
  · have hv : c.memoryValue? k n = some (.of .base (mem.extent id)) := hembeds.memoryValue? ht hg hy hop
    exact answer_reference_base hx hc hid hmem hv

end

section

open ProtoWasm.Module

def lending : List UInt8 :=
  header ++
    encodeSection "signatures" ([1] ++ encodeSignature ⟨[], []⟩) ++
    encodeSection "function_signatures" [1, 0] ++
    encodeSection "memory" (encodeMemory ⟨1, 3, true, false⟩) ++
    encodeSection "function_bodies" [1, 8, 0, 0x33, 0, 0, 0x09, 0, 0x09, 0]

/-- A module that imports the memory and has such a function too, which may be its start function. -/
def borrowing (start : List UInt8) : List UInt8 :=
  header ++
    encodeSection "signatures" ([1] ++ encodeSignature ⟨[], []⟩) ++
    encodeSection "import_table" ([1] ++ encodeImport ⟨"lender", "memory", .memory ⟨1, 3, false, true⟩, 0⟩) ++
    encodeSection "function_signatures" [1, 0] ++ start ++
    encodeSection "function_bodies" [1, 8, 0, 0x33, 0, 0, 0x09, 0, 0x09, 0]

/-- Three instances share a memory, a fourth fails as nothing runs its start function, and one is closed between the
times that the memory grows. -/
def sharing : Option Store := do
  let m₀ ← (decodeUnder lending 0 (some .all)).toOption
  let m₁ ← (decodeUnder (borrowing []) 0 (some .all)).toOption
  let m₂ ← (decodeUnder (borrowing (encodeSection "start_function" [0])) 0 (some .all)).toOption
  let (_, s) ← (compile 0 m₀ false {}).toOption
  let (_, s) ← (compile 1 m₁ false s).toOption
  let (_, s) ← (compile 2 m₂ false s).toOption
  let (_, s) ← (instantiate 0 m₀ "lender" false false s).toOption
  let (_, s) ← (instantiate 1 m₁ "borrower" false false s).toOption
  let (_, s) ← (instantiate 2 m₂ "failing" false false s).toOption
  let (_, s) ← (instantiate 1 m₁ "guest" false false s).toOption
  let (_, s) ← (growMemory 1 1 s).toOption
  let (_, s) ← (closeInstance 3 s).toOption
  let (_, s) ← (growMemory 0 1 s).toOption
  return s

theorem reached_sharing (h : sharing = some s) : Reached [] s := by
  simp only [sharing, Option.bind_eq_bind, Option.bind_eq_some_iff, Option.pure_def, Prod.exists,
    Option.some.injEq] at h
  obtain ⟨m₀, hm₀, m₁, hm₁, m₂, hm₂, _, s₁, h₁, _, s₂, h₂, _, s₃, h₃, _, s₄, h₄, _, s₅, h₅, _, s₆, h₆, _, s₇, h₇,
    _, s₈, h₈, _, s₉, h₉, _, s₁₀, h₁₀, rfl⟩ := h
  have hm₀ := toOption_eq_some.mp hm₀
  have hm₁ := toOption_eq_some.mp hm₁
  have hm₂ := toOption_eq_some.mp hm₂
  have hcompiled : Reached [] s₃ :=
    (((Reached.empty {}).compile hm₀ (toOption_eq_some.mp h₁)).compile hm₁ (toOption_eq_some.mp h₂)).compile hm₂
      (toOption_eq_some.mp h₃)
  have hshared : Reached [] s₅ :=
    (hcompiled.instantiate hm₀ (toOption_eq_some.mp h₄)).instantiate hm₁ (toOption_eq_some.mp h₅)
  have hguest : Reached [] s₇ :=
    (hshared.instantiate hm₂ (toOption_eq_some.mp h₆)).instantiate hm₁ (toOption_eq_some.mp h₇)
  have hgrown : Reached [] s₈ := hguest.growMemory (toOption_eq_some.mp h₈)
  exact (hgrown.closeInstance (toOption_eq_some.mp h₉)).growMemory (toOption_eq_some.mp h₁₀)

def firstGraph? (s : Store) (i : InstanceId) : Option (Instance × LinkedCode × Graph) := do
  let x ← s.instances[i]?
  let c ← x.code
  match c.table.entries.head? with
  | some (Code.function 0 g) => return (x, c, g)
  | _ => none

theorem firstGraph?_eq_some {i : InstanceId} {x : Instance} {c : LinkedCode} {g : Graph}
    (h : firstGraph? s i = some (x, c, g)) :
    s.instances[i]? = some x ∧ x.code = some c ∧ .function 0 g ∈ c.table.entries := by
  obtain ⟨x', hx, h⟩ := Option.bind_eq_some_iff.mp h
  obtain ⟨c', hc, h⟩ := Option.bind_eq_some_iff.mp h
  split at h
  · rename_i hg
    cases h
    exact ⟨hx, hc, List.mem_of_head? hg⟩
  · cases h

def unclosed (s : Store) (id : MemoryId) : Bool :=
  s.instances.toList.all fun x => x.memory != some id || !x.ownsMemory || !x.closed

theorem inUse_of_unclosed (h : s.unclosed id = true) : InUse [] s.instances id where
  spared := List.not_mem_nil
  owners i x hx hid hown := by
    have hx := List.all_eq_true.mp h x (Array.mem_toList_iff.mpr (Array.mem_of_getElem? hx))
    simpa [hid, hown] using hx

theorem references_current_sharing :
    ∃ s, Reached [] s ∧ InUse [] s.instances 0 ∧ ∀ i ∈ [0, 1], ∃ x c g, s.instances[i]? = some x ∧ x.closed = false ∧
      x.code = some c ∧ x.memory = some 0 ∧ .function 0 g ∈ c.table.entries ∧ ∀ enter depth,
        answer enter ⟨i, some (0, g), depth⟩ (.reference 5) s = .ok (some (.size 196608), s) ∧
        answer enter ⟨i, some (0, g), depth⟩ (.reference 4) s = .ok (some (.base true), s) := by
  have hok : sharing.map (fun s => (s.unclosed 0, s.memories[0]?.map Memory.size, [0, 1].all fun i =>
      (s.firstGraph? i).any fun (x, _, g) => x.closed = false ∧ x.memory = some 0 ∧
        (g.node? 4).map Node.op = some .memoryBase ∧ (g.node? 5).map Node.op = some .memorySize)) =
      some (true, some 196608, true) := by decide +kernel
  obtain ⟨s, hs, hok⟩ := Option.map_eq_some_iff.mp hok
  simp only [Prod.mk.injEq, List.all_eq_true, Option.any_eq_true, decide_eq_true_eq] at hok
  obtain ⟨hunclosed, hsize, hgraphs⟩ := hok
  have huse := inUse_of_unclosed hunclosed
  refine ⟨s, reached_sharing hs, huse, fun i hi => ?_⟩
  obtain ⟨⟨x, c, g⟩, hgraph, hopen, hid, hbase, hbytes⟩ := hgraphs i hi
  obtain ⟨hx, hc, hg⟩ := firstGraph?_eq_some hgraph
  obtain ⟨y, hy, hbase⟩ := Option.map_eq_some_iff.mp hbase
  obtain ⟨z, hz, hbytes⟩ := Option.map_eq_some_iff.mp hbytes
  obtain ⟨mem, hmem, hcurrent⟩ := (reached_sharing hs).references_current hx hopen hc hid huse
  rw [hmem, Option.map_some, Option.some.injEq] at hsize
  rw [← hsize]
  exact ⟨x, c, g, hx, hopen, hc, hid, hg, fun enter depth =>
    ⟨(hcurrent 0 g 5 z hg hz enter depth).1 hbytes, (hcurrent 0 g 4 y hg hy enter depth).2 hbase⟩⟩

end

end ProtoWasm.Store
