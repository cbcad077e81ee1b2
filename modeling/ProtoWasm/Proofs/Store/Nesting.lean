import ProtoWasm.Proofs.Store.Calls
import ProtoWasm.Proofs.Store.Machine

/-! # How deep calls are nested

Every call by way of an instance starts a chain of calls. The depth at which code is entered counts at least the
functions of its chain, so no chain holds more than the depth allows. How many functions of one instance are active is
bounded by the number of its chains, and by nothing else.
-/
namespace ProtoWasm.Store

open List StoreM

variable {s : Store} {K : List Waiting} {cs : List (List InstanceId)} {k : Nat}

def extendChain (i : InstanceId) : List (List InstanceId) → List (List InstanceId)
  | [] => [[i]]
  | chain :: rest => (i :: chain) :: rest

/-- Adds the function that a process runs for. A function of the host belongs to no instance. -/
def Frame.chained (fr : Frame) (chains : List (List InstanceId)) : List (List InstanceId) :=
  if fr.body.isSome then extendChain fr.owner chains else chains

/-- The instances of the functions that wait, chain by chain from the latest on. -/
def chains : List Waiting → List (List InstanceId)
  | [] => []
  | .caller fr _ :: K => fr.chained (chains K)
  | .via _ _ :: K => [] :: chains K
  | .host :: K => chains K

def latest (chains : List (List InstanceId)) : List InstanceId := chains.headD []

@[simp] theorem flatten_extendChain (i : InstanceId) (cs : List (List InstanceId)) :
    (extendChain i cs).flatten = i :: cs.flatten := by
  cases cs <;> rfl

theorem length_latest_chained (fr : Frame) (cs : List (List InstanceId)) :
    (latest (fr.chained cs)).length ≤ (latest cs).length + 1 := by
  unfold Frame.chained
  split
  · cases cs <;> exact Nat.le_refl _
  · exact Nat.le_succ _

/-- One function more may be too many only for the latest chain. -/
theorem Frame.forall_chained {P : List InstanceId → Prop} {fr : Frame}
    (h : ∀ chain ∈ cs, P chain) (hlatest : P (fr.owner :: latest cs)) : ∀ chain ∈ fr.chained cs, P chain := by
  unfold Frame.chained
  split
  · cases cs with
    | nil => exact forall_mem_singleton.mpr hlatest
    | cons chain rest => exact forall_mem_cons.mpr ⟨hlatest, (forall_mem_cons.mp h).2⟩
  · exact h

theorem count_flatten_le {n : Nat} (h : ∀ chain ∈ cs, chain.length ≤ n) (i : InstanceId) :
    cs.flatten.count i ≤ n * cs.countP fun chain => decide (i ∈ chain) := by
  induction cs with
  | nil => exact Nat.zero_le _
  | cons chain rest ih =>
    obtain ⟨hchain, hrest⟩ := forall_mem_cons.mp h
    rw [flatten_cons, count_append, countP_cons]
    by_cases hi : i ∈ chain
    · have hcount : chain.count i ≤ n := Nat.le_trans count_le_length hchain
      have hrest := ih hrest
      rw [if_pos (decide_eq_true hi), Nat.mul_succ]
      omega
    · rw [count_eq_zero_of_not_mem hi, if_neg (by simpa using hi), Nat.zero_add, Nat.add_zero]
      exact ih hrest

namespace Config

def chains (c : Config) : List (List InstanceId) :=
  match c.control with
  | .run fr _ => fr.chained (Store.chains c.stack)
  | _ => Store.chains c.stack

/-- How many functions of an instance are active. -/
def active (c : Config) (i : InstanceId) : Nat := c.chains.flatten.count i

/-- No process runs too deep, and its depth counts the functions before it in its chain. -/
def Deep (fr : Frame) (K : List Waiting) : Prop :=
  fr.depth < maxCallDepth ∧ (latest (Store.chains K)).length ≤ fr.depth

def DepthChain : List Waiting → Prop
  | [] => True
  | .caller fr _ :: K => Deep fr K ∧ DepthChain K
  | .via _ _ :: K => DepthChain K
  | .host :: K => DepthChain K

theorem DepthChain.length_le (h : DepthChain K) :
    ∀ chain ∈ Store.chains K, chain.length ≤ maxCallDepth := by
  induction K with
  | nil => exact forall_mem_nil _
  | cons w K ih =>
    cases w with
    | caller fr next =>
      obtain ⟨⟨hlt, hle⟩, h⟩ := h
      exact Frame.forall_chained (ih h) (Nat.succ_le_of_lt (Nat.lt_of_le_of_lt hle hlt))
    | via i post => exact forall_mem_cons.mpr ⟨Nat.zero_le _, ih h⟩
    | host => exact ih h

/-- The depths of a configuration are right: the depth at which code is entered counts the functions of its chain. -/
def DepthValid (c : Config) : Prop :=
  DepthChain c.stack ∧ match c.control with
    | .enter e => (latest (Store.chains c.stack)).length ≤ e.depth
    | .run fr _ => Deep fr c.stack
    | _ => True

variable {canceled : Bool} {c d : Config}

theorem depthValid_take {t : Turn} {depth : Nat} {s : Store} (ht : t.Leads depth s)
    (hlt : depth < maxCallDepth) (hle : (latest (Store.chains K)).length ≤ depth) (hK : DepthChain K) :
    (t.config K s).DepthValid := by
  cases t with
  | pass e => exact ⟨hK, Nat.le_trans hle ht.1⟩
  | call plan =>
    cases plan with
    | give o => exact ⟨hK, trivial⟩
    | enter e post => exact ⟨hK, Nat.zero_le _⟩
  | run fr p =>
    subst ht
    exact ⟨hK, hlt, hle⟩
  | host fr p =>
    subst ht
    exact ⟨hK, hlt, hle⟩

theorem Step.depthValid (h : c.Step canceled d) (hc : c.DepthValid) : d.DepthValid := by
  cases h with
  | overflow hd => exact ⟨hc.1, trivial⟩
  | cancel hd hn => exact ⟨hc.1, trivial⟩
  | turn hd hn h => exact depthValid_take ((does_turn _ _).of_eq h).2 hd hc.2 hc.1
  | stuck hd hn h => exact ⟨hc.1, trivial⟩
  | done => exact ⟨hc.1, trivial⟩
  | @ask fr r next K s plan s' h =>
    cases plan with
    | give a => exact ⟨hc.1, hc.2⟩
    | enter e post =>
      obtain ⟨-, hdepth, -⟩ := (plans_answer fr r s).of_eq h
      rw [Plan.config, callers]
      split
      · exact ⟨⟨hc.2, hc.1⟩, Nat.zero_le _⟩
      · rename_i hne
        refine ⟨⟨hc.2, hc.1⟩, ?_⟩
        calc (latest (fr.chained (Store.chains K))).length
            ≤ (latest (Store.chains K)).length + 1 := length_latest_chained fr _
          _ ≤ fr.depth + 1 := Nat.succ_le_succ hc.2.2
          _ = e.depth := (hdepth.resolve_left hne).symm
  | defect h => exact ⟨hc.1, trivial⟩
  | resume => exact ⟨hc.1.2, hc.1.1⟩
  | leave => exact ⟨hc.1, trivial⟩
  | leaveHost => exact ⟨hc.1, trivial⟩

theorem Reaches.depthValid (h : c.Reaches canceled d) (hc : c.DepthValid) : d.DepthValid := by
  induction h with
  | refl c => exact hc
  | step hs _ ih => exact ih (hs.depthValid hc)

theorem DepthValid.length_le (h : c.DepthValid) : ∀ chain ∈ c.chains, chain.length ≤ maxCallDepth := by
  obtain ⟨control, K, s⟩ := c
  obtain ⟨hK, hcontrol⟩ := h
  cases control with
  | run fr p => exact Frame.forall_chained hK.length_le (Nat.succ_le_of_lt (Nat.lt_of_le_of_lt hcontrol.2 hcontrol.1))
  | enter e => exact hK.length_le
  | give o => exact hK.length_le
  | fail x => exact hK.length_le

/-- Code that is entered too deep gives a trap and does nothing else. -/
theorem step_iff_of_deep {e : Entry} {s : Store} (h : maxCallDepth ≤ e.depth) :
    Step canceled ⟨.enter e, K, s⟩ d ↔ d = ⟨.give (.error (.trap .callStackOverflow 0 none)), K, s⟩ := by
  constructor
  · intro hs
    exact hs.unique (.overflow h)
  · rintro rfl
    exact .overflow h

theorem depthValid_start (f : FunctionId) (params : List UInt64) (s : Store) : (start f params s).DepthValid := by
  unfold start
  split
  · rename_i h
    have hplan := ((plans_function 0 f params s).of_eq h).2
    exact depthValid_take hplan (by decide : 0 < maxCallDepth) (Nat.le_refl _) trivial
  · exact ⟨trivial, trivial⟩

end Config

/-- A call comes to what the machine comes to, and along its run no chain holds more functions than may be nested: an
instance has no more active functions than its chains can hold. Where a chain is full, whatever is called next
traps. -/
theorem active_le_chains (f : FunctionId) (params : List UInt64) (canceled : Bool) (s : Store) :
    (Config.start f params s).Leads canceled [] (call f params canceled s) ∧
    ∀ d, (Config.start f params s).Reaches canceled d →
      (∀ chain ∈ d.chains, chain.length ≤ maxCallDepth) ∧
      (∀ i, d.active i ≤ maxCallDepth * d.chains.countP fun chain => decide (i ∈ chain)) ∧
      ∀ e, d.control = .enter e → maxCallDepth ≤ (latest d.chains).length → ∀ d', d.Step canceled d' ↔
        d' = ⟨.give (.error (.trap .callStackOverflow 0 none)), d.stack, d.store⟩ := by
  refine ⟨Config.leads_call f params canceled s, ?_⟩
  intro d hd
  have hvalid := hd.depthValid (Config.depthValid_start f params s)
  refine ⟨hvalid.length_le, count_flatten_le hvalid.length_le, ?_⟩
  obtain ⟨control, K, s'⟩ := d
  rintro e rfl hfull d'
  exact Config.step_iff_of_deep (Nat.le_trans hfull hvalid.2)

section

def weavingGraph : Graph := { nodes := #[{ op := .callIndirect }] }

def weavingTable : Table FunctionId := ((Table.create 2 2).set 0 ⟨0, 0⟩).set 1 ⟨0, 1⟩

def weavingInstance (name : String) (f : FunctionId) : Instance where
  name
  module := { signatures := [{}] }
  functions := [some f]
  globals := []
  tables := [some 0]
  code := some { name, compiled := {}, table := { entries := [.function 0 weavingGraph] } }

/-- Two instances that share a table. A function of each calls that of the other, without end. -/
def weaving : Store where
  config := { executor := fun inv => Task.callIndirect 1 (if inv.instanceName = "a" then 1 else 0) [] }
  signatures := [({} : FuncType).text]
  functions := #[⟨0, 0, {}, 0, "f", none⟩, ⟨1, 0, {}, 0, "g", none⟩]
  tables := #[weavingTable]
  instances := #[weavingInstance "a" 0, weavingInstance "b" 1]

def weavingEntry (i : InstanceId) : Entry := ⟨i, .function 0 weavingGraph, [], 0⟩

def weavingFrame (i : InstanceId) : Frame := ⟨i, some (0, weavingGraph), 0⟩

theorem lookup_weavingTable (hk : k < 2) : weavingTable.lookup k 0 = .ok k := by
  have hget : weavingTable.get? k = some ⟨0, k⟩ := by
    match k, hk with
    | 0, _ => simp [weavingTable, Table.get?, Table.set, Table.uninitialized, Std.HashMap.getElem_insert]
    | 1, _ => simp [weavingTable, Table.get?, Table.set, Table.uninitialized]
  rw [Table.lookup, hget]
  exact if_neg (Nat.not_le.mpr hk)

theorem findCallee_weaving (hk : k < 2) (name : String) (f : FunctionId) :
    findCallee (weavingInstance name f) { op := .callIndirect } k weaving = .ok (.ok k, weaving) := by
  change Except.ok (weavingTable.lookup k 0, weaving) = _
  rw [lookup_weavingTable hk]

theorem planAnswer_weaving {i j : InstanceId} {name : String} {f : FunctionId} {g : FunctionInstance}
    {plan : Plan Outcome} (hj : j < 2) (hx : weaving.instances[i]? = some (weavingInstance name f))
    (hg : weaving.functions[j]? = some g) (hne : g.owner ≠ i)
    (hplan : planFunction j [] weaving = .ok (plan, weaving)) :
    planAnswer (weavingFrame i) (.callIndirect 1 j []) weaving = .ok (plan, weaving) := by
  have hnode : callNode weavingGraph 1 weaving = .ok ({ op := .callIndirect }, weaving) := rfl
  refine (bind_of_ok hnode).trans ((congrFun (if_neg (by decide)) weaving).trans ?_)
  refine (bind_of_ok (getInstance_of_some hx)).trans ?_
  refine (bind_of_ok (findCallee_weaving hj name f)).trans ?_
  exact (bind_of_ok (getFunction_of_some hg)).trans ((congrFun (if_neg hne) weaving).trans hplan)

theorem reaches_weaving (K : List Waiting) : ∃ post post' next next', Config.Reaches false
    ⟨.enter (weavingEntry 0), K, weaving⟩ ⟨.enter (weavingEntry 0), .via 0 post :: .caller (weavingFrame 1) next ::
      .via 1 post' :: .caller (weavingFrame 0) next' :: K, weaving⟩ := by
  have hthere := planAnswer_weaving (i := 0) (j := 1) (by decide) rfl rfl (by decide) rfl
  have hback := planAnswer_weaving (i := 1) (j := 0) (by decide) rfl rfl (by decide) rfl
  exact ⟨_, _, _, _, .step (.turn (by decide) rfl rfl) (.step (.ask hthere)
    (.step (.turn (by decide) rfl rfl) (.step (.ask hback) (.refl _))))⟩

theorem reaches_active_weaving (K : List Waiting) (n : Nat) : ∃ K', Config.Reaches false
    ⟨.enter (weavingEntry 0), K, weaving⟩ ⟨.enter (weavingEntry 0), K', weaving⟩ ∧
      (chains K').flatten.count 0 = (chains K).flatten.count 0 + n := by
  induction n with
  | zero => exact ⟨K, .refl _, rfl⟩
  | succ n ih =>
    obtain ⟨K', hK', hcount⟩ := ih
    obtain ⟨post, post', next, next', hturn⟩ := reaches_weaving K'
    refine ⟨_, hK'.trans hturn, ?_⟩
    -- a function of the other instance was called in between
    change (1 :: (extendChain 0 (chains K')).flatten).count 0 = _
    rw [flatten_extendChain, count_cons_of_ne (by decide), count_cons_self, hcount, Nat.add_assoc]

/-- As many functions of an instance as one likes are active. -/
theorem reaches_start_weaving (n : Nat) : ∃ d, (Config.start 0 [] weaving).Reaches false d ∧ d.active 0 = n := by
  obtain ⟨K, hK, hcount⟩ := reaches_active_weaving [.via 0 (nameCall "a" "f")] n
  exact ⟨_, hK, hcount.trans (Nat.zero_add n)⟩

theorem active_le_chains_weaving : ∃ d, (Config.start 0 [] weaving).Reaches false d ∧ d.active 0 = 2 * maxCallDepth ∧
    (∀ chain ∈ d.chains, chain.length ≤ maxCallDepth) ∧ 2 ≤ d.chains.countP fun chain => decide (0 ∈ chain) := by
  obtain ⟨d, hd, hactive⟩ := reaches_start_weaving (2 * maxCallDepth)
  obtain ⟨hlength, hle, -⟩ := (active_le_chains 0 [] false weaving).2 d hd
  refine ⟨d, hd, hactive, hlength, ?_⟩
  have hcount := hle 0
  rw [hactive, Nat.mul_comm] at hcount
  exact Nat.le_of_mul_le_mul_left hcount (by decide)

/-- Functions of one instance can be active in greater number than may be nested. -/
theorem active_weaving_exceeds : ∃ d, (Config.start 0 [] weaving).Reaches false d ∧ maxCallDepth < d.active 0 := by
  obtain ⟨d, hd, hactive⟩ := reaches_start_weaving (maxCallDepth + 1)
  exact ⟨d, hd, Nat.lt_of_lt_of_le (Nat.lt_succ_self _) (Nat.le_of_eq hactive.symm)⟩

end

end ProtoWasm.Store
