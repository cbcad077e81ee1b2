import ProtoWasm.Proofs.Memory.Bytes
import ProtoWasm.Proofs.Store.Sound

/-! # Calls in a store

The body of a function is a process that asks the store for one thing after another. What the answers change is said
once, and everything that calls keep follows from it.
-/
namespace ProtoWasm

def Instance.told (x : Instance) (e : Extent) : Instance := { x with code := x.code.map (·.relocate e) }

namespace Store

open StoreM

theorem Lives.setMemory {s : Store} {k : MemoryId} {m m' : Memory InstanceId} (hm : s.memories[k]? = some m)
    (hshape : memoryShape m' = memoryShape m) (hsize : m.size ≤ m'.size) :
    s.Lives { s with memories := s.memories.setIfInBounds k m' } :=
  { Lives.refl s with
    memories := by
      apply Array.ext_getElem?
      intro j
      rw [Array.getElem?_map, Array.getElem?_map]
      by_cases hj : k = j
      · subst hj
        rw [getElem?_put hm, hm, Option.map_some, Option.map_some, hshape]
      · rw [Array.getElem?_setIfInBounds_ne hj]
    grown := by
      intro j n n' hn hn'
      obtain ⟨rfl, rfl⟩ | ⟨-, hn'⟩ := of_getElem?_put hn'
      · cases hm.symm.trans hn
        exact hsize
      · cases hn.symm.trans hn'
        exact Nat.le_refl _ }

theorem memoryShape_setBuffer (m : Memory InstanceId) (b : Buffer) :
    memoryShape (m.setBuffer b) = memoryShape m := rfl

theorem Lives.setStorage {s : Store} {k : StorageId} {b b' : List UInt8} (hb : s.storages[k]? = some b)
    (hlen : b.length ≤ b'.length) : s.Lives { s with storages := s.storages.setIfInBounds k b' } :=
  { Lives.refl s with
    storages := fun _ _ => exists_getElem?_put (R := fun b c => b.length ≤ c.length) hb hlen fun _ => Nat.le_refl _ }

theorem Lives.modifyCode (s : Store) (i : InstanceId) (target : Extent) :
    s.Lives { s with instances := s.instances.modify i (·.told target) } :=
  { Lives.refl s with
    instances := by
      apply Array.ext_getElem?
      intro j
      rw [Array.getElem?_map, Array.getElem?_map, Array.getElem?_modify]
      split
      · cases s.instances[j]? with
        | none => rfl
        | some x =>
          have hcode : (x.code.map (·.relocate target)).map codeShape = x.code.map codeShape := by
            rw [Option.map_map]
            rfl
          rw [Option.map_some, Option.map_some, Option.map_some, instanceShape, Instance.told, hcode]
          rfl
      · rfl }

def tell (e : Extent) : List InstanceId → Array Instance → Array Instance
  | [], xs => xs
  | i :: is, xs => tell e is (xs.modify i (·.told e))

theorem Lives.tell (s : Store) (e : Extent) (is : List InstanceId) :
    s.Lives { s with instances := tell e is s.instances } := by
  induction is generalizing s with
  | nil => exact .refl s
  | cons i is ih => exact (Lives.modifyCode s i e).trans (ih _)

/-- The store changed as calls change it: signatures got numbers, memories were written, or they grew and all who
depend on them were told, globals were set, and events and metrics were noted. -/
inductive Evolves : Store → Store → Prop
  | refl (s : Store) : Evolves s s
  | trans {s s' s''} (h : Evolves s s') (h' : Evolves s' s'') : Evolves s s''
  | signatures (s : Store) {signatures} (h : s.signatures <+: signatures)
      (hnodup : s.signatures.Nodup → signatures.Nodup) : Evolves s { s with signatures }
  | log (s : Store) (log : Array Event) : Evolves s { s with log }
  | metrics (s : Store) (metrics : Metrics) : Evolves s { s with metrics }
  | write {s : Store} {k : MemoryId} {m b} (hm : s.memories[k]? = some m) (hb : b.size = m.size) :
      Evolves s { s with memories := s.memories.setIfInBounds k (m.setBuffer b) }
  | grow {s : Store} {k : MemoryId} {m m' delta} (hm : s.memories[k]? = some m) (hg : m.grow delta = .ok m') :
      Evolves s { s with
        memories := s.memories.setIfInBounds k m'
        instances := tell (m'.extent k) (m.notified delta) s.instances }
  | storage {s : Store} {k : StorageId} {b b'} (hb : s.storages[k]? = some b) (hlen : b.length ≤ b'.length) :
      Evolves s { s with storages := s.storages.setIfInBounds k b' }

theorem Evolves.lives {s s' : Store} (h : s.Evolves s') : s.Lives s' := by
  induction h with
  | refl s => exact .refl s
  | trans _ _ ih ih' => exact ih.trans ih'
  | signatures s | log s | metrics s => exact { Lives.refl s with }
  | write hm hb =>
    exact .setMemory hm (memoryShape_setBuffer _ _) (Nat.le_of_eq (by rw [Memory.size_setBuffer, hb]))
  | grow hm hg =>
    obtain ⟨hsize, hmin, hmax, hdependents⟩ := Memory.grow_ok hg
    refine (Lives.setMemory hm ?_ hsize).trans (.tell _ _ _)
    rw [memoryShape, memoryShape, hmin, hmax, hdependents]
  | storage hb hlen => exact .setStorage hb hlen

variable {α β : Type} {a : StoreM α}

/-- The store lives on after the action, changed in nothing but what calls change. -/
def LivesOn (a : StoreM α) : Prop := ∀ s, Does False a s fun _ s' => s.Evolves s'

theorem livesOn_pure (x : α) : LivesOn (pure x : StoreM α) := fun s => does_pure (.refl s)

theorem LivesOn.bind {f : α → StoreM β} (ha : LivesOn a) (hf : ∀ x, LivesOn (f x)) :
    LivesOn (a >>= f) := by
  intro s
  refine Does.bind ((ha s).imp ?_)
  intro x s' hs
  exact (hf x s').imp fun y s'' hs' => hs.trans hs'

theorem livesOn_defect (d : Defect) : LivesOn (defect d : StoreM α) := fun _ => does_defect id

theorem livesOn_get : LivesOn (get : StoreM Store) := fun s => does_get (.refl s)

theorem livesOn_expect (d : Defect) (o : Option α) : LivesOn (expect d o) :=
  fun s => does_expect False.elim fun _ _ => .refl s

theorem livesOn_checked (e : Except Defect α) : LivesOn (checked e) :=
  fun s => does_checked False.elim fun _ _ => .refl s

theorem livesOn_entry (xs : List (Option α)) (k : Nat) : LivesOn (entry xs k) :=
  fun s => does_entry False.elim fun _ _ => .refl s

theorem livesOn_getInstance (i : InstanceId) : LivesOn (getInstance i) :=
  livesOn_get.bind fun _ => livesOn_expect _ _

theorem livesOn_getFunction (f : FunctionId) : LivesOn (getFunction f) :=
  livesOn_get.bind fun _ => livesOn_expect _ _

theorem livesOn_getTable (t : TableId) : LivesOn (getTable t) :=
  livesOn_get.bind fun _ => livesOn_expect _ _

theorem livesOn_getMemory (m : MemoryId) : LivesOn (getMemory m) :=
  livesOn_get.bind fun _ => livesOn_expect _ _

theorem livesOn_getGlobal (g : GlobalId) : LivesOn (getGlobal g) :=
  livesOn_get.bind fun _ => livesOn_expect _ _

theorem livesOn_getCode (i : InstanceId) : LivesOn (getCode i) :=
  (livesOn_getInstance i).bind fun _ => livesOn_expect _ _

theorem livesOn_typeId (t : FuncType) : LivesOn (typeId t) := by
  intro s
  apply does_typeId
  intro k signatures hfirst _ hnodup
  exact .signatures s hfirst hnodup

theorem livesOn_globalValue (g : GlobalId) : LivesOn (globalValue g) :=
  (livesOn_getGlobal g).bind fun _ => livesOn_get.bind fun _ => (livesOn_expect _ _).bind fun _ =>
    livesOn_checked _

theorem livesOn_setGlobal (g : GlobalId) (v : UInt64) : LivesOn (setGlobal g v) :=
  fun _ => does_setGlobal False.elim fun _ _ _ _ hbytes hw => .storage hbytes (GlobalInstance.length_write hw)

def LivesThrough (a : Action α) : Prop := ∀ s, Tries False a s (fun _ s' => s.Evolves s') fun _ s' => s.Evolves s'

theorem livesThrough_pure (x : α) : LivesThrough (pure x : Action α) := fun s => tries_pure (.refl s)

theorem livesThrough_throw (e : Error) : LivesThrough (throw e : Action α) := fun s => tries_throw (.refl s)

theorem LivesThrough.bind {a : Action α} {f : α → Action β} (ha : LivesThrough a)
    (hf : ∀ x, LivesThrough (f x)) : LivesThrough (a >>= f) := by
  intro s
  refine Tries.bind ((ha s).imp ?_ fun _ _ h => h)
  intro x s' hs
  exact (hf x s').imp (fun y s'' hs' => hs.trans hs') fun e s'' hs' => hs.trans hs'

theorem LivesOn.lift (h : LivesOn a) : LivesThrough (liftM a : Action α) :=
  fun s => tries_lift (h s)

theorem LivesThrough.run {a : Action α} (h : LivesThrough a) : LivesOn a.run := by
  intro s
  refine Does.imp (h s) ?_
  intro r s' hr
  cases r with
  | ok x => exact hr
  | error e => exact hr

theorem tries_tell {safe : Prop} {s : Store} {E : Error → Store → Prop} (e : Extent) (is : List InstanceId) :
    Tries safe (is.forM fun i =>
        (modifyInstance i fun x => { x with code := x.code.map (·.relocate e) } : Action Unit)) s
      (fun _ s' => s' = { s with instances := tell e is s.instances }) E := by
  induction is generalizing s with
  | nil => exact tries_pure rfl
  | cons i is ih => exact Tries.after (does_modify ih)

theorem livesThrough_growMemory (i : InstanceId) (delta : Nat) : LivesThrough (growMemory i delta) := by
  refine (livesOn_getInstance i).lift.bind fun x => ?_
  cases x.memory with
  | none => exact livesThrough_throw _
  | some id =>
    -- what is known of the memory that is there is needed where it is replaced
    intro s
    refine Tries.after (does_getMemory False.elim ?_)
    intro mem hmem
    cases hgrow : mem.grow delta with
    | error r => exact tries_throw (.refl s)
    | ok grown =>
      refine Tries.after (does_modify (Tries.bind ((tries_tell _ _).imp ?_ fun _ _ h => h)))
      rintro - _ rfl
      exact Tries.bind (tries_modify (tries_pure ((Evolves.grow hmem hgrow).trans (.metrics _ _))))

theorem livesOn_run {answer : (r : Request) → StoreM r.Answer} (h : ∀ r, LivesOn (answer r))
    (p : Process α) : LivesOn (p.run answer) := by
  induction p with
  | done a => exact livesOn_pure a
  | ask r next ih => exact (h r).bind fun a => ih a

theorem livesOn_ite {p : Prop} [Decidable p] {b : StoreM α} (ha : LivesOn a) (hb : LivesOn b) :
    LivesOn (if p then a else b) := by
  split
  · exact ha
  · exact hb

theorem livesOn_callNode (g : Graph) (site : NodeId) : LivesOn (callNode g site) :=
  livesOn_ite (livesOn_pure _) (livesOn_expect _ _)

theorem livesOn_findCallee (inst : Instance) (node : Node) (key : Nat) : LivesOn (findCallee inst node key) := by
  unfold findCallee
  split
  · exact livesOn_pure _
  · refine (livesOn_expect _ _).bind fun t => (livesOn_typeId t).bind fun id => ?_
    exact (livesOn_expect _ _).bind fun table => (livesOn_getTable table).bind fun t => livesOn_pure _

theorem livesOn_referenceAt (fr : Frame) (node : NodeId) : LivesOn (referenceAt fr node) := by
  unfold referenceAt
  split
  · exact livesOn_pure _
  · refine (livesOn_getCode fr.owner).bind fun code => ?_
    split
    · exact livesOn_pure _
    · exact livesOn_pure _
    · refine (livesOn_getInstance fr.owner).bind fun inst => (livesOn_expect _ _).bind fun id => ?_
      exact (livesOn_getMemory id).bind fun mem => livesOn_pure _

theorem livesOn_storeBytes (i : InstanceId) (address : Nat) (bytes : List UInt8) :
    LivesOn (storeBytes i address bytes) := by
  refine (livesOn_getInstance i).bind fun inst => (livesOn_expect _ _).bind fun id => ?_
  intro s
  refine Does.bind (does_getMemory False.elim ?_)
  intro mem hmem
  split
  · exact livesOn_defect _ s
  · exact does_modify (.write hmem (Buffer.size_write _ _ _))

/-- An instance has the code: as an entry, at the entry point of a function or where a place refers to it. -/
def Offers (s : Store) (c : Code) : Prop :=
  ∃ (i : InstanceId) (x : Instance) (code : LinkedCode), s.instances[i]? = some x ∧ x.code = some code ∧
    (c ∈ code.table.entries ∨ (∃ k, code.table.entry? k = some c) ∨ ∃ r ∈ code.table.relocs, r.ref = c)

/-- A plan enters code of an instance, by way of that instance or at a depth, if it enters any. -/
def Plan.Leads (depth : Nat) (s : Store) : Plan α → Prop
  | give _ => True
  | enter e _ => (e.depth = 0 ∨ e.depth = depth) ∧ s.Offers e.code

def Plans (depth : Nat) (a : StoreM (Plan α)) : Prop :=
  ∀ s, Does False a s fun plan s' => s.Evolves s' ∧ plan.Leads depth s'

variable {depth : Nat}

theorem Plans.livesOn {a : StoreM (Plan α)} (h : Plans depth a) : LivesOn a := fun s => (h s).imp fun _ _ h => h.1

theorem plans_give (x : α) : Plans depth (pure (.give x)) := fun s => does_pure ⟨.refl s, trivial⟩

theorem LivesOn.plans {f : α → StoreM (Plan β)} (ha : LivesOn a) (hf : ∀ x, Plans depth (f x)) :
    Plans depth (a >>= f) := by
  intro s
  refine Does.bind ((ha s).imp fun x s' hs => ?_)
  exact (hf x s').imp fun _ _ h => ⟨hs.trans h.1, h.2⟩

theorem plans_ite {p : Prop} [Decidable p] {a b : StoreM (Plan α)} (ha : Plans depth a) (hb : Plans depth b) :
    Plans depth (if p then a else b) := by
  split
  · exact ha
  · exact hb

theorem plans_through (depth : Nat) (i : InstanceId) (f : FunctionInstance) (params : List UInt64) :
    Plans depth (planThrough i f params) := by
  intro s
  refine Does.bind (does_getCode fun x code hx hcode => Does.bind (does_getInstance False.elim fun _ _ => ?_))
  refine does_ite (plans_give _ s) (does_ite (plans_give _ s) (Does.bind (does_expect False.elim fun c hc => ?_)))
  exact does_pure ⟨.refl s, .inl rfl, i, x, code, hx, hcode, .inr (.inl ⟨_, hc⟩)⟩

theorem plans_function (depth : Nat) (f : FunctionId) (params : List UInt64) : Plans depth (planFunction f params) :=
  (livesOn_getFunction f).plans fun f => plans_ite (plans_give _) (plans_through depth f.owner f params)

theorem plans_call (fr : Frame) (site : NodeId) (params : List UInt64) :
    Plans (fr.depth + 1) (planCall fr site params) := by
  unfold planCall
  split
  · exact plans_give _
  · intro s
    refine Does.bind (does_getCode fun x code hx hcode => ?_)
    split
    · exact plans_give _ s
    · refine Does.bind (does_expect False.elim fun r hr => ?_)
      exact does_pure ⟨.refl s, .inr rfl, _, x, code, hx, hcode, .inr (.inr ⟨r, List.mem_of_getElem? hr, rfl⟩)⟩

theorem plans_indirect (fr : Frame) (site : NodeId) (key : Nat) (params : List UInt64) :
    Plans (fr.depth + 1) (planIndirect fr site key params) := by
  unfold planIndirect
  split
  · exact plans_give _
  · refine (livesOn_callNode _ _).plans fun node => plans_ite (plans_give _) ?_
    refine (livesOn_getInstance fr.owner).plans fun inst => (livesOn_findCallee inst node key).plans fun found => ?_
    cases found with
    | error k => exact plans_give _
    | ok f =>
      refine (livesOn_getFunction f).plans fun callee => plans_ite (fun s => ?_) (plans_function _ f params)
      refine Does.bind (does_getCode fun x code hx hcode => Does.bind (does_expect False.elim fun c hc => ?_))
      exact does_pure ⟨.refl s, .inr rfl, _, x, code, hx, hcode, .inl (List.mem_of_getElem? hc)⟩

/-- A process calls inside its instance, one deeper, or by way of an instance. -/
theorem plans_answer (fr : Frame) (r : Request) : Plans (fr.depth + 1) (planAnswer fr r) := by
  cases r with
  | call site params => exact plans_call fr site params
  | callIndirect site key params => exact plans_indirect fr site key params
  | callExport name params =>
    refine (livesOn_getInstance fr.owner).plans fun inst => ?_
    cases inst.exportedFunction? name with
    | none => exact plans_give _
    | some f =>
      intro s
      refine Does.bind ((plans_function (fr.depth + 1) f params s).imp fun plan s' h => does_pure ?_)
      cases plan <;> exact h
  | reference node => exact (livesOn_referenceAt fr node).plans fun _ => plans_give _
  | getGlobal k =>
    refine (livesOn_getInstance fr.owner).plans fun inst => (livesOn_entry _ _).plans fun g => ?_
    exact (livesOn_globalValue g).plans fun _ => plans_give _
  | setGlobal k v =>
    refine (livesOn_getInstance fr.owner).plans fun inst => (livesOn_entry _ _).plans fun g => ?_
    exact (livesOn_setGlobal g v).plans fun _ => plans_give _
  | load address n =>
    refine (livesOn_getInstance fr.owner).plans fun inst => (livesOn_expect _ _).plans fun id => ?_
    exact (livesOn_getMemory id).plans fun mem => (livesOn_checked _).plans fun _ => plans_give _
  | store address bytes => exact (livesOn_storeBytes fr.owner address bytes).plans fun _ => plans_give _
  | hasMemory => exact (livesOn_getInstance fr.owner).plans fun inst => plans_give _
  | grow delta => exact (livesThrough_growMemory fr.owner delta).run.plans fun _ => plans_give _
  | note e => exact LivesOn.plans (fun s => does_modify (.log s _)) fun _ => plans_give _

/-- What code does, it does no less deep than it was entered. -/
def Turn.Leads (depth : Nat) (s : Store) : Turn → Prop
  | pass e => depth ≤ e.depth ∧ s.Offers e.code
  | call plan => plan.Leads 0 s
  | run fr _ | host fr _ => fr.depth = depth

theorem does_turn (e : Entry) (s : Store) : Does False (turn e) s fun t s' => s.Evolves s' ∧ t.Leads e.depth s' := by
  obtain ⟨i, code, params, depth⟩ := e
  cases code with
  | placeholder | unknown => exact does_pure ⟨.refl s, trivial⟩
  | function index graph =>
    exact Does.bind (does_getInstance False.elim fun _ _ => Does.bind (does_get (does_pure ⟨.refl s, rfl⟩)))
  | exportWrapper index k =>
    refine Does.bind (does_getCode fun x code hx hcode => Does.bind (does_expect False.elim fun r hr => ?_))
    refine does_pure ⟨.refl s, Nat.le_refl depth, i, x, code, hx, hcode, ?_⟩
    exact .inr (.inr ⟨r, List.mem_of_getElem? hr, rfl⟩)
  | reuse index f =>
    refine Does.bind (does_getFunction False.elim fun f _ => Does.bind (does_getCode fun x code hx hcode => ?_))
    refine does_ite (does_pure ⟨.refl s, trivial⟩) (Does.bind (does_expect False.elim fun c hc => ?_))
    exact does_pure ⟨.refl s, Nat.le_succ depth, _, x, code, hx, hcode, .inl (List.mem_of_getElem? hc)⟩
  | importAdapter index f =>
    refine Does.bind (does_getFunction False.elim fun g _ => ?_)
    split
    · exact Does.bind ((plans_function 0 f params s).imp fun plan s' h => does_pure h)
    · exact Does.bind (does_getInstance False.elim fun _ _ => does_pure ⟨.refl s, rfl⟩)

variable {enter : Enter}

def EntersAlive (enter : Enter) : Prop := ∀ i code params depth, LivesOn (enter i code params depth)

theorem livesOn_follow (h : EntersAlive enter) (plan : Plan α) : LivesOn (plan.follow enter) := by
  cases plan with
  | give a => exact livesOn_pure a
  | enter e post => exact (h _ _ _ _).bind fun o => livesOn_pure _

theorem livesOn_answer (h : EntersAlive enter) (fr : Frame) (r : Request) : LivesOn (answer enter fr r) :=
  (plans_answer fr r).livesOn.bind fun plan => livesOn_follow h plan

theorem livesOn_take (h : EntersAlive enter) (t : Turn) : LivesOn (t.take enter) := by
  cases t with
  | pass e => exact h _ _ _ _
  | call plan => exact livesOn_follow h plan
  | run fr p => exact livesOn_run (livesOn_answer h fr) p
  | host fr p => exact (livesOn_run (livesOn_answer h fr) p).bind fun o => livesOn_pure _

theorem EntersAlive.enterCode (h : EntersAlive enter) (canceled : Bool) :
    EntersAlive (Store.enterCode canceled enter) := by
  intro i code params depth
  refine livesOn_ite (livesOn_pure _) (livesOn_ite (livesOn_pure _) ?_)
  exact LivesOn.bind (fun s => (does_turn _ s).imp fun _ _ h => h.1) fun t => livesOn_take h t

/-- Whatever is entered, the store lives on: by induction on how deep calls are followed. -/
theorem entersAlive_invoke (canceled : Bool) (fuel : Nat) : EntersAlive (invoke canceled fuel) := by
  induction fuel with
  | zero => exact fun _ _ _ _ => livesOn_defect _
  | succ fuel ih => exact ih.enterCode canceled

theorem livesOn_call (f : FunctionId) (params : List UInt64) (canceled : Bool) : LivesOn (call f params canceled) :=
  (plans_function 0 f params).livesOn.bind fun plan => livesOn_follow (entersAlive_invoke canceled maxNesting) plan

theorem livesOn_callVia (i : InstanceId) (f : FunctionId) (params : List UInt64) (canceled : Bool) :
    LivesOn (callVia i f params canceled) :=
  (livesOn_getFunction f).bind fun f => (plans_through 0 i f params).livesOn.bind fun plan =>
    livesOn_follow (entersAlive_invoke canceled maxNesting) plan

end Store

end ProtoWasm
