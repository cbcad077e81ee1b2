import ProtoWasm.Proofs.Store.Linking
import ProtoWasm.Proofs.Store.Segments

/-! # The steps of an instantiation up to the start function -/
namespace ProtoWasm.Store

open List StoreM

variable {safe : Prop} {s s' s₀ : Store} {m : Module} {name : String} {x : Instance} {source : List UInt8}
  {limit : Nat} {seen : List Section} {k : MemoryId} {mem : Memory InstanceId} {key : ModuleKey}
  {E : Error → Store → Prop}

structure Prepared (s₀ : Store) (m : Module) (name : String) (s : Store) (x : Instance) : Prop where
  names : s.names = s₀.names
  stored : ∃ y, s.instances[s₀.instances.size]? = some y ∧ instanceShape y = instanceShape x
  name : x.name = name
  module : x.module = m
  code : ∃ c, x.code = some c
  lengths : x.functions.length = m.functions.length ∧ x.tables.length = m.tables.length ∧
    x.globals.length = m.globals.length
  conforms : s.Conforms m x
  bound : AllBound s₀ m s x
  memory : ∀ id, x.memory = some id → id < s.memories.size
  sound : s₀.Sound → s.Sound
  /-- Only its own memory has the instance among its dependents, and only once. -/
  dependents : s₀.Sound → ∀ (k : MemoryId) mem, s.memories[k]? = some mem →
    s₀.instances.size ∉ mem.dependents.erase s₀.instances.size ∧
      (x.memory ≠ some k → s₀.instances.size ∉ mem.dependents)

theorem Prepared.lives (h : Prepared s₀ m name s x) (hs : s.Lives s') : Prepared s₀ m name s' x :=
  { h with
    names := hs.names.trans h.names
    stored := by
      obtain ⟨y, hy, hshape⟩ := h.stored
      obtain ⟨y', hy', hshape'⟩ := hs.instance hy
      exact ⟨y', hy', hshape'.trans hshape⟩
    conforms := h.conforms.later hs.later
    bound := h.bound.later hs.later (fun _ _ => rfl) rfl
    memory := by
      intro id hid
      rw [size_of_map_eq hs.memories]
      exact h.memory id hid
    sound := fun h₀ => (h.sound h₀).lives hs
    dependents := by
      intro h₀ k mem' hmem'
      obtain ⟨mem, hmem, hshape⟩ := getElem?_of_map_eq hs.memories.symm hmem'
      simp only [memoryShape, Prod.mk.injEq] at hshape
      rw [← hshape.2.2]
      exact h.dependents h₀ k mem hmem }

theorem Later.setMemory {mem' : Memory InstanceId} (hmem : s.memories[k]? = some mem)
    (hsize : mem.size ≤ mem'.size) (hmax : mem'.max = mem.max) :
    s.Later { s with memories := s.memories.setIfInBounds k mem' } :=
  { Later.refl s with
    memories := fun _ _ => exists_getElem?_put (R := fun m m' => m.size ≤ m'.size ∧ m'.max = m.max) hmem
      ⟨hsize, hmax⟩ fun _ => ⟨Nat.le_refl _, rfl⟩ }

theorem Sound.setMemory (h : s.Sound) (hmem : ∀ i ∈ mem.dependents, i < s.instances.size) :
    Sound { s with memories := s.memories.setIfInBounds k mem } :=
  { h with
    resolved := fun module field v hv => (h.resolved module field v hv).mono (Nat.le_refl _) (Nat.le_refl _)
      (Nat.le_of_eq Array.size_setIfInBounds.symm) (Nat.le_refl _)
    dependents := by
      intro j n hn
      obtain ⟨-, rfl⟩ | ⟨-, hn⟩ := of_getElem?_put hn
      · exact hmem
      · exact h.dependents j n hn }

theorem Draft.not_dependent (hd : Draft s₀ m name s x) (h₀ : s₀.Sound)
    (hmem : s.memories[k]? = some mem) : s₀.instances.size ∉ mem.dependents :=
  fun hi => Nat.lt_irrefl _ (hd.free h₀ k mem hmem _ hi)

section

variable (hd : Draft s₀ m name s x) (hx : s.Conforms m x) (hbound : AllBound s₀ m s x) (code : LinkedCode)
include hd hx hbound

theorem Draft.prepared (hl : s.Later s') (hnames : s'.names = s.names)
    (hstored : s'.instances[s₀.instances.size]? = some { x with code := some code })
    (hsound : s₀.Sound → s'.Sound)
    (hdependents : s₀.Sound → ∀ (k : MemoryId) mem, s'.memories[k]? = some mem →
      s₀.instances.size ∉ mem.dependents.erase s₀.instances.size ∧
        (x.memory ≠ some k → s₀.instances.size ∉ mem.dependents)) :
    Prepared s₀ m name s' { x with code := some code } where
  names := hnames.trans hd.kept.names
  stored := ⟨_, hstored, rfl⟩
  name := hd.name
  module := hd.module
  code := ⟨code, rfl⟩
  lengths := ⟨hd.functions, hd.tables, hd.globals⟩
  conforms := fun kind k => (hx kind k).later hl rfl
  bound := hbound.later hl (fun _ _ => rfl) rfl
  memory := by
    intro id hid
    obtain ⟨mem, hmem, -⟩ := hl.memories id _ (Array.getElem?_eq_getElem (hd.memory id hid))
    exact lt_size hmem
  sound := hsound
  dependents := hdependents

theorem Draft.attach_none : Prepared s₀ m name
      { s with instances := s.instances.modify s₀.instances.size fun _ => { x with code := some code } }
      { x with code := some code } := by
  refine hd.prepared hx hbound code (.put s _ _) rfl ?_ ?_ ?_
  · exact hd.toGrown.stored_put _
  · exact (hd.toGrown.put _).sound
  · intro h₀ k mem hmem
    have hi := hd.not_dependent h₀ hmem
    exact ⟨fun h => hi (mem_of_mem_erase h), fun _ => hi⟩

theorem Draft.attach_some {id : MemoryId} (hid : x.memory = some id) (hmem : s.memories[id]? = some mem) :
    Prepared s₀ m name
      { s with
        instances := s.instances.modify s₀.instances.size fun _ => { x with code := some code }
        memories := s.memories.setIfInBounds id (mem.addDependent s₀.instances.size) }
      { x with code := some code } := by
  have hput := hd.toGrown.put fun _ => { x with code := some code }
  have hset : s.Later { s with memories := s.memories.setIfInBounds id (mem.addDependent s₀.instances.size) } :=
    .setMemory hmem (Nat.le_refl _) rfl
  refine hd.prepared hx hbound code { hset with } rfl ?_ ?_ ?_
  · exact hd.toGrown.stored_put _
  · intro h₀
    refine (hput.sound h₀).setMemory fun i hi => ?_
    rw [hput.count]
    rcases mem_append.mp hi with hi | hi
    · exact Nat.lt_succ_of_lt (hd.free h₀ id mem hmem i hi)
    · exact mem_singleton.mp hi ▸ Nat.lt_succ_self _
  · intro h₀ k mem' hmem'
    obtain ⟨rfl, rfl⟩ | ⟨-, hmem'⟩ := of_getElem?_put hmem'
    · have hi := hd.not_dependent h₀ hmem
      refine ⟨?_, fun hne => absurd hid hne⟩
      rw [Memory.addDependent, erase_append_right _ hi]
      simpa using hi
    · have hi := hd.not_dependent h₀ hmem'
      exact ⟨fun h => hi (mem_of_mem_erase h), fun _ => hi⟩

end

/-- The code that is kept under the key has a place for every import. -/
def HasCode (s : Store) (key : ModuleKey) (m : Module) : Prop :=
  ∀ c, s.cache.find? key = some c → m.importedFunctions ≤ c.table.entries.length

theorem Prepared.tries_write (hb : m.Built source limit seen)
    (h : Prepared s₀ m name s x) (helements : ∀ e ∈ m.elements, s.ElementFits x e)
    (hdata : ∀ d ∈ m.data, s.DataFits x d) :
    Tries safe (do writeElements x m.elements; writeData x m.data; return x : Action Instance) s
      (fun x' s' => x' = x ∧ Prepared s₀ m name s' x ∧
        (∀ w ∈ m.elements.flatMap (segmentWrites s x), s.Admits w) ∧
        ∃ memories, s' = { s.writeAll (m.elements.flatMap (segmentWrites s x)) with memories } ∧
          SameFrames s.memories memories ∧
          ∀ id, x.memory = some id → Overwrites (s.lastByte? x m.data) id s.memories memories) E := by
  refine Tries.after ((does_writeElements hb h.conforms (fun _ he => he) helements).imp ?_)
  rintro - _ ⟨rfl, hadmits⟩
  have hwrites := writes_writeAll s (m.elements.flatMap (segmentWrites s x))
  obtain ⟨tables, htables⟩ := exists_writeAll_eq s (m.elements.flatMap (segmentWrites s x))
  refine Tries.after ((does_writeData fun d hd => (hdata d hd).retains hwrites.retains).imp ?_)
  rintro - s₂ ⟨h₂, memories, hs₂, hframes, hover⟩
  rw [lastByte?_congr hwrites.1.globals hwrites.2] at hover
  rw [htables] at hframes hover
  exact tries_pure ⟨rfl, (h.lives hwrites.1).lives h₂.1, hadmits, memories, hs₂, hframes, hover⟩

structure Complete (s₀ : Store) (m : Module) (name : String) (s : Store) (x : Instance) : Prop where
  drafted : Drafted s₀ m name s x
  conforms : s.Conforms m x
  bound : AllBound s₀ m s x
  held : s₀.Sound → m.Laid → ∀ k g, m.globals[k]? = some g → m.importedGlobals ≤ k → Holds s₀ x.globals s x g k

def attach (i : InstanceId) (memory : Option MemoryId) (ms : Array (Memory InstanceId)) : Array (Memory InstanceId) :=
  match memory with
  | none => ms
  | some id => ms.modify id (·.addDependent i)

theorem modify_eq_setIfInBounds {α : Type} {xs : Array α} {k : Nat} {a : α} (h : xs[k]? = some a) (f : α → α) :
    xs.modify k f = xs.setIfInBounds k (f a) := by
  apply Array.ext_getElem?
  intro j
  rw [Array.getElem?_modify]
  split
  · rename_i hk
    subst hk
    rw [h, getElem?_put h]
    rfl
  · rename_i hk
    rw [Array.getElem?_setIfInBounds_ne hk]

/-- An instance gets code that was linked for it and becomes a dependent of its memory, and its segments are written.
Nothing else changes. -/
structure Activated (i : InstanceId) (key : ModuleKey) (s : Store) (x : Instance) (s' : Store) (x' : Instance) :
    Prop where
  fits : s.segmentFault? x = none
  linked : ∃ code, linkInstance x.name key x.module x.functions x.memory s = .ok (.ok code, s) ∧
    x' = { x with code := some code }
  admits : ∀ w ∈ x.module.elements.flatMap (segmentWrites s x), s.Admits w
  result : ∃ memories, s' =
    { s.writeAll (x.module.elements.flatMap (segmentWrites s x)) with
      instances := s.instances.modify i fun _ => x', memories }
  attached : SameFrames (attach i x.memory s.memories) s'.memories
  written : ∀ id, x.memory = some id → Overwrites (s.lastByte? x x.module.data) id s.memories s'.memories

theorem Activated.eq_with {i : InstanceId} {x' : Instance} (ha : Activated i key s x s' x') : ∃ tables memories,
    s' = { s with instances := s.instances.modify i fun _ => x', tables, memories } := by
  obtain ⟨memories, hs'⟩ := ha.result
  obtain ⟨tables, htables⟩ := exists_writeAll_eq s (x.module.elements.flatMap (segmentWrites s x))
  rw [htables] at hs'
  exact ⟨tables, memories, hs'⟩

theorem writeAll_with (s : Store) (ws : List Write) (instances : Array Instance)
    (memories : Array (Memory InstanceId)) :
    writeAll { s with instances, memories } ws = { s.writeAll ws with instances, memories } := by
  induction ws generalizing s with
  | nil => rfl
  | cons w ws ih =>
    rw [writeAll_cons, writeAll_cons, ← ih]
    congr 1
    unfold write
    cases s.functions[w.function]? <;> rfl

/-- A segment does not fit, or all of them do and there is no code for the instance. -/
def Faults (s : Store) (x : Instance) (e : Error) : Prop :=
  s.segmentFault? x = some e ∨ s.segmentFault? x = none ∧ ∃ cause, e = .instantiation x.name "engine" cause

section

variable (hb : m.Built source limit seen)
include hb

theorem tries_attached {code : LinkedCode} (hx : x.module = m) (hfits : s.segmentFault? x = none)
    (hlink : linkInstance x.name key x.module x.functions x.memory s = .ok (.ok code, s))
    {s₁ : Store} {memories : Array (Memory InstanceId)} (hs₁ : s₁ = { s with
      instances := s.instances.modify s₀.instances.size fun _ => { x with code := some code }, memories })
    (hmemories : memories = attach s₀.instances.size x.memory s.memories)
    (h : Prepared s₀ m name s₁ { x with code := some code }) (hretains : s.Retains s₁)
    (helements : ∀ e ∈ m.elements, s.ElementFits x e) (hdata : ∀ d ∈ m.data, s.DataFits x d) :
    Tries safe (do
        writeElements { x with code := some code } m.elements
        writeData { x with code := some code } m.data
        return { x with code := some code } : Action Instance) s₁
      (fun x' s' => Prepared s₀ m name s' x' ∧ Activated s₀.instances.size key s x s' x') E := by
  have hsame : segmentWrites s₁ { x with code := some code } = segmentWrites s x :=
    funext fun e => segmentWrites_congr (x := { x with code := some code })
      (offset?_congr hretains.globals hretains.storages e.offset)
  refine (h.tries_write hb ?_ ?_).imp ?_ fun _ _ h => h
  · exact fun e he => (helements e he).retains hretains
  · exact fun d hd => (hdata d hd).retains hretains
  rintro _ s' ⟨rfl, hprepared, hadmits, memories', hs', hframes, hover⟩
  have hbytes : s₁.lastByte? { x with code := some code } m.data = s.lastByte? x m.data :=
    lastByte?_congr (x := { x with code := some code }) hretains.globals hretains.storages m.data
  rw [hsame] at hadmits hs'
  rw [hbytes] at hover
  subst hs₁ hx hmemories hs'
  refine ⟨hprepared, hfits, ⟨code, hlink, rfl⟩, hadmits, ⟨memories', by rw [writeAll_with]⟩, hframes, ?_⟩
  intro id hid mem hmem
  refine hover id hid (mem.addDependent s₀.instances.size) ?_
  rw [hid, attach, Array.getElem?_modify, if_pos rfl, hmem]
  rfl

theorem tries_activate (hsafe : safe → s₀.Sound)
    (hcode : safe → s₀.HasCode key m) (h : Complete s₀ m name s x) :
    Tries safe (activate s₀.instances.size key x) s
      (fun x' s' => Prepared s₀ m name s' x' ∧ Activated s₀.instances.size key s x s' x')
      fun e s' => Declined name e ∧ s' = s ∧ s.Faults x e := by
  obtain ⟨⟨-, hd⟩, hx, hbound⟩ := h
  have hsound : safe → s.Sound := fun hs => hd.sound (hsafe hs)
  obtain rfl := hd.name
  obtain rfl := hd.module
  refine Tries.bind ((tries_checkData hb hsound rfl hx fun d hd => ?_).imp ?_ ?_)
  · exact fst_mem_of_mem_zipIdx hd
  swap
  · rintro e _ ⟨he, hs, hfault⟩
    exact ⟨he, hs, .inl (by rw [segmentFault?, hfault, Option.some_or])⟩
  rintro - s₁ ⟨rfl, hdata, hnone⟩
  refine Tries.bind ((tries_checkElements hb hsound rfl hx fun e he => ?_).imp ?_ ?_)
  · exact fst_mem_of_mem_zipIdx he
  swap
  · rintro e _ ⟨he, hs, hfault⟩
    exact ⟨he, hs, .inl (by rw [segmentFault?, hnone, hfault, Option.none_or])⟩
  rintro - s₁ ⟨rfl, helements, hnone'⟩
  have hfits : s₁.segmentFault? x = none := by rw [segmentFault?, hnone, hnone', Option.none_or]
  have hlink : Tries safe (linkInstance x.name key x.module x.functions x.memory) s₁ _ _ :=
    tries_linkInstance hsound (hx.imported hb) hd.memory fun hs c hc => hcode hs c (hd.kept.cache ▸ hc)
  refine Tries.bind ((tries_tryCatch (hlink.and_eq.imp (fun _ _ h => h) ?_)).imp ?_ fun _ _ h => h)
  · rintro cause _ ⟨rfl, hunfit, -⟩
    exact tries_throw ⟨⟨_, cause, rfl, by decide, hunfit⟩, rfl, .inr ⟨hfits, cause, rfl⟩⟩
  rintro code s₁ ⟨hlink, rfl, -⟩
  -- the segments still fit when they are written
  have hdata : ∀ d ∈ x.module.data, s₁.DataFits x d := by
    intro d hd
    obtain ⟨n, hn⟩ := getElem?_of_mem hd
    exact hdata (d, n) (mk_mem_zipIdx_iff_getElem?.mpr hn)
  have helements : ∀ e ∈ x.module.elements, s₁.ElementFits x e := by
    intro e he
    obtain ⟨n, hn⟩ := getElem?_of_mem he
    exact helements (e, n) (mk_mem_zipIdx_iff_getElem?.mpr hn)
  have hput := Later.put s₁ s₀.instances.size { x with code := some code }
  refine Tries.after (does_modify ?_)
  dsimp only
  split
  · rename_i hm
    have hretains : s₁.Retains _ := ⟨hput, rfl, rfl⟩
    have hmemories : s₁.memories = attach s₀.instances.size x.memory s₁.memories := by rw [hm, attach]
    exact tries_attached hb rfl hfits hlink rfl hmemories (hd.attach_none hx hbound code) hretains helements hdata
  · rename_i id hm
    refine Tries.after (does_getMemory (fun _ => ⟨_, Array.getElem?_eq_getElem (hd.memory id hm)⟩) ?_)
    intro mem hmem
    refine Tries.after (does_modify ?_)
    have hset := Later.setMemory hmem (Nat.le_refl (mem.addDependent s₀.instances.size).size) rfl
    have hretains : s₁.Retains _ := ⟨hput.trans { hset with }, rfl, rfl⟩
    have hmemories : s₁.memories.setIfInBounds id (mem.addDependent s₀.instances.size) =
        attach s₀.instances.size x.memory s₁.memories := by
      rw [hm, attach, modify_eq_setIfInBounds hmem]
    have hattached := hd.attach_some hx hbound code hm hmem
    exact tries_attached hb rfl hfits hlink rfl hmemories hattached hretains helements hdata

theorem tries_outfit (hsafe : safe → s₀.Sound ∧ m.Laid) :
    Tries safe (outfit s₀.instances.size) (s₀.withInstance name m)
      (fun x s' => Complete s₀ m name s' x)
      fun e s' => Declined name e ∧ ∃ x, s'.instances[s₀.instances.size]? = some x ∧ Pending s₀ m s' x := by
  have hg := Grown.new s₀ m (.ofModule name m)
  have hx₀ : (s₀.instances.push (.ofModule name m))[s₀.instances.size]? = some (.ofModule name m) :=
    Array.getElem?_push_size
  refine Tries.after (does_getInstance (fun _ => ⟨_, hx₀⟩) (forall_of_eq_some hx₀ ?_))
  refine Tries.bind ((tries_makeMemory hg).imp ?_ ?_)
  swap
  · rintro e _ ⟨he, rfl⟩
    exact ⟨he, _, hx₀, hg.pending name⟩
  intro x₁ s₁ hbegun
  refine Tries.after (does_modifyGet (Tries.after (does_modify ?_)))
  have hd₁ := (hbegun.addStorage (b := List.replicate x₁.module.globalsSize 0) (by simp [hbegun.module])).put
  -- imports
  refine Tries.bind ((hd₁.tries_bindAll hb fun hs => (hsafe hs).1).imp ?_ ?_)
  swap
  · rintro e s' ⟨he, y, hy, hdraft⟩
    exact ⟨he, y, hy, hdraft.toPending⟩
  rintro - s₂ ⟨x₂, hd₂, hbound₂⟩
  refine Tries.after (does_getInstance (fun _ => ⟨x₂, hd₂.1⟩) (forall_of_eq_some hd₂.1 ?_))
  -- definitions
  refine Tries.after ((does_define hb hsafe hd₂.2 (fun _ _ => fitsAt_of_bound hb hd₂.2.module hbound₂)
    fun h₀ => sameImports_of_bound hb h₀ hbound₂).imp ?_)
  rintro x₃ s₃ ⟨hd₃, hl₃, hx₃, hsame, hheld⟩
  refine Tries.after (does_modify (tries_pure ?_))
  have hput := Later.put s₃ s₀.instances.size x₃
  refine ⟨hd₃.put, hx₃.later hput, ?_, fun h₀ hlaid k g hg hk => ?_⟩
  swap
  · exact (hheld h₀ hlaid k g hg hk).observed rfl rfl rfl
  intro i hi
  obtain ⟨v, hv, hbound⟩ := hbound₂ i hi
  exact ⟨v, hv, hbound.later (hl₃.trans hput) (hsame _ _ (hb.declared hi).2) (hd₃.module.trans hd₂.2.module.symm)⟩

theorem exists_outfit (hs : s₀.Sound) (hlaid : m.Laid) : ∃ r s', outfit s₀.instances.size
    (s₀.withInstance name m) = .ok (r, s') :=
  have h : Tries True (outfit s₀.instances.size) _ _ _ := tries_outfit hb fun _ => ⟨hs, hlaid⟩
  Does.not_defect h trivial

theorem tries_prepare (hsafe : safe → s₀.Sound) (hcode : safe → s₀.HasCode key m)
    (houtfit : safe → ∃ r s', outfit s₀.instances.size (s₀.withInstance name m) = .ok (r, s')) :
    Tries safe (prepare s₀.instances.size key) (s₀.withInstance name m)
      (fun x' s' => Prepared s₀ m name s' x' ∧
        ∃ x s, Complete s₀ m name s x ∧ Activated s₀.instances.size key s x s' x')
      fun e s' => Declined name e ∧ ∃ x, s'.instances[s₀.instances.size]? = some x ∧ Pending s₀ m s' x := by
  refine Tries.bind (Tries.imp (Does.of_exists (tries_outfit hb False.elim) houtfit) ?_ fun _ _ h => h)
  intro x s hx
  refine (tries_activate hb hsafe hcode hx).imp ?_ ?_
  · rintro x' s' ⟨hprepared, hactivated⟩
    exact ⟨hprepared, x, s, hx, hactivated⟩
  · rintro e _ ⟨he, rfl, -⟩
    exact ⟨he, x, hx.drafted.1, hx.drafted.2.toPending⟩

end

end ProtoWasm.Store
