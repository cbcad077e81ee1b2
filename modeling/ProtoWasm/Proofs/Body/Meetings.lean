import ProtoWasm.Proofs.Body.Tracking
import ProtoWasm.Proofs.Graph.Meeting

/-! # Where environments meet

The values of an environment that is reached by a join meet there. As long as it can be reached by further ways
its phis are not referred to, unless it is the beginning of a loop, where they get a value with every way.
-/
namespace ProtoWasm.Body

open Body.Expr ProtoWasm.Graph List

variable {ctx : Context} {p p' : Pending} {s s' : State} {g g' : Graph} {roots nodes : List NodeId}
  {ms : List Meeting} {count : Nat} {x : Node} {m : NodeId}

section Joins

variable {join old last : NodeId} {hidden : Bool} {front values : List NodeId}

theorem length_repeatThen (h : 0 < count) : (repeatThen old last count).length = count := by
  rw [repeatThen, length_append, length_replicate]
  exact Nat.sub_add_cancel h

theorem mem_repeatThen {v : NodeId} (h : v ∈ repeatThen old last count) : v = old ∨ v = last := by
  rcases mem_append.mp h with h | h
  · exact .inl (eq_of_mem_replicate h)
  · exact .inr (mem_singleton.mp h)

theorem extendValue_extended (h : 0 < g.inputCount join) (t : ValType) (old last : NodeId) :
    g.Extended join old last (extendValue g t join old last).1 (extendValue g t join old last).2 := by
  unfold extendValue
  split
  · exact .phi ‹_›
  · rename_i ho
    have ho : g.isPhiOf old join = false := by simpa using ho
    split
    · exact .new ho rfl rfl rfl (fun v => mem_repeatThen) (length_repeatThen h)
    · exact .same ho

theorem extendEffect_extended (h : 0 < g.inputCount join) (old last : NodeId) :
    g.Extended join old last (extendEffect g join old last).1 (extendEffect g join old last).2 := by
  unfold extendEffect
  split
  · exact .phi ‹_›
  · rename_i ho
    have ho : g.isPhiOf old join = false := by simpa using ho
    split
    · exact .new ho rfl rfl rfl (fun v => mem_repeatThen) (length_repeatThen h)
    · exact .same ho

theorem joinLocals_coherent {f : ValType → NodeId → NodeId → Graph → NodeId × Graph} {I : Graph → Prop}
    {types : List ValType} {target source : List NodeId}
    (hf : ∀ t b g, ∀ a ∈ target, I g → 0 < g.inputCount join →
      g.Extended join a b (f t a b g).1 (f t a b g).2 ∧ I (f t a b g).2)
    (ht : target.length = types.length) (hs : source.length = types.length) (hr : ∀ b ∈ source, b ∈ roots)
    (hI : I g) (h : g.Coherent roots ({ join, hidden, todo := front ++ target, values } :: ms)) :
    (joinLocals f types target source g).2.Coherent roots
        ({ join, hidden, todo := front, values := (joinLocals f types target source g).1 ++ values } :: ms) ∧
      I (joinLocals f types target source g).2 := by
  induction types generalizing target source front with
  | nil =>
    obtain rfl := length_eq_zero_iff.mp ht
    obtain rfl := length_eq_zero_iff.mp hs
    rw [append_nil] at h
    exact ⟨h, hI⟩
  | cons t types ih =>
    obtain ⟨a, target, rfl⟩ := exists_cons_of_length_eq_add_one ht
    obtain ⟨b, source, rfl⟩ := exists_cons_of_length_eq_add_one hs
    obtain ⟨hb, hr⟩ := forall_mem_cons.mp hr
    have h' : g.Coherent roots ({ join, hidden, todo := (front ++ [a]) ++ target, values } :: ms) := by
      rwa [append_assoc]
    obtain ⟨hc, hI'⟩ := ih (fun t b g a ha => hf t b g a (mem_cons_of_mem _ ha))
      (Nat.succ.inj ht) (Nat.succ.inj hs) hr h'
    obtain ⟨he, hI''⟩ := hf t b _ a mem_cons_self hI' hc.inputCount_pos
    exact ⟨hc.extend rfl hb he, hI''⟩

/-- A join that has just been emitted, with as many inputs as it got then, and of which nothing that was there
before is a phi. -/
structure Fresh (g : Graph) (join : NodeId) (count : Nat) (nodes : List NodeId) : Prop where
  exists_join : join ≤ g.nodes.size
  inputs : g.inputCount join = count
  none : ∀ n ∈ nodes, n ≤ g.nodes.size ∧ g.isPhiOf n join = false

theorem Fresh.push (h : Fresh g join count nodes)
    (hn : g'.nodes = g.nodes.push x) : Fresh g' join count nodes := by
  have hsize : g.nodes.size ≤ g'.nodes.size := by simp [hn]
  refine ⟨Nat.le_trans h.exists_join hsize, by rw [inputCount_of_push hn h.exists_join, h.inputs], fun n hm => ?_⟩
  obtain ⟨hle, hp⟩ := h.none n hm
  exact ⟨Nat.le_trans hle hsize, by rw [isPhiOf_of_push hn hle, hp]⟩

theorem fresh_of_push (h : g.Coherent roots ms) (hn : g'.nodes = g.nodes.push x)
    (hp : x.op.isPhi = false) (hm : ∀ n ∈ nodes, g.Shows ms n) :
    Fresh g' (g.nodes.size + 1) x.inputs.length nodes := by
  have hsize : g'.nodes.size = g.nodes.size + 1 := by simp [hn]
  refine ⟨Nat.le_of_eq hsize.symm, inputCount_of_node (node?_new hn), fun n hn' => ⟨?_, ?_⟩⟩
  · rw [hsize]
    exact Nat.le_succ_of_le (hm n hn').1
  · exact h.not_phi_of_push hn hp n

theorem Fresh.extended {a b : NodeId} (h : Fresh g join 2 nodes) (ha : a ∈ nodes)
    (hn : g'.nodes = g.nodes.push x) (hp : x.op.isPhi = true) (hx : x.inputs = [a, b] ++ [join]) :
    g.Extended join a b (g.nodes.size + 1) g' :=
  .new (h.none a ha).2 hn hp hx (fun v hv => by simpa using hv) h.inputs.symm

section Branches

variable {cond control : NodeId} (hcond : cond ∈ roots) (hcontrol : control ∈ roots) (h : g.Coherent roots ms)
include hcond hcontrol h

theorem emitIfTrue_coherent :
    let branch := g.add { op := .branch, inputs := [cond, control] }
    (branch.2.add { op := .ifTrue, inputs := [branch.1] }).2.Coherent
      ((g.emitBranch cond control).1.1 :: branch.1 :: roots) ms := by
  intro branch
  have h₁ : branch.2.Coherent (branch.1 :: roots) ms := by
    refine h.push rfl rfl fun m hm => h.roots m ?_
    rcases mem_cons.mp hm with rfl | hm
    · exact hcond
    · exact mem_singleton.mp hm ▸ hcontrol
  exact h₁.push rfl rfl (forall_mem_singleton.mpr (h₁.roots _ mem_cons_self))

theorem emitBranch_coherent : (g.emitBranch cond control).2.Coherent
      ((g.emitBranch cond control).1.2 :: (g.emitBranch cond control).1.1 :: roots) ms := by
  have h₁ := emitIfTrue_coherent hcond hcontrol h
  have hin := h₁.roots _ (mem_cons_of_mem _ mem_cons_self)
  refine Coherent.mono (h₁.push rfl rfl (forall_mem_singleton.mpr hin)) fun m hm => ?_
  rcases mem_cons.mp hm with rfl | hm
  · exact mem_cons_self
  · rcases mem_cons.mp hm with rfl | hm
    · exact mem_cons_of_mem _ mem_cons_self
    · exact mem_cons_of_mem _ (mem_cons_of_mem _ (mem_cons_of_mem _ hm))

/-- The direction in which a condition fails can be a join, to which another way is added later. -/
theorem emitBranch_met (hidden : Bool) (hv : ∀ n ∈ values, n ∈ roots) :
    (g.emitBranch cond control).2.Coherent ((g.emitBranch cond control).1.1 :: roots)
      ({ join := (g.emitBranch cond control).1.2, hidden, values } :: ms) := by
  have h₁ := emitIfTrue_coherent hcond hcontrol h
  have hin := h₁.roots _ (mem_cons_of_mem _ mem_cons_self)
  have hshow : ∀ n ∈ values, Graph.Shows _ ms n := fun n hn =>
    h₁.roots n (mem_cons_of_mem _ (mem_cons_of_mem _ (hv n hn)))
  refine Coherent.mono (h₁.pushMet rfl rfl (cons_ne_nil _ _) (forall_mem_singleton.mpr hin) hidden
    hshow) fun m hm => ?_
  rcases mem_cons.mp hm with rfl | hm
  · exact mem_cons_self
  · exact mem_cons_of_mem _ (mem_cons_of_mem _ hm)

end Branches

def Env.refs (e : Env) : List NodeId := e.chain.control :: e.chain.effect :: e.locals

/-- What meets at the control of an environment, after other values if there are some. -/
def Env.meeting (e : Env) (hidden : Bool) (todo others : List NodeId) : Meeting :=
  { join := e.chain.control, hidden, todo, values := others ++ e.locals ++ [e.chain.effect] }

variable {types : List ValType} {source target : Env}

theorem joinReached_coherent (h : g.Coherent roots ms) (hs : ∀ n ∈ source.refs, n ∈ roots)
    (ht : ∀ n ∈ front ++ target.refs, n ∈ roots) (hsl : source.locals.length = types.length)
    (htl : target.locals.length = types.length) (hidden : Bool) :
    (joinReached types source target g).2.Coherent roots
      ((joinReached types source target g).1.meeting hidden front [] :: ms) := by
  let node : Node := { op := .merge, inputs := [target.chain.control, source.chain.control] }
  let merge := g.add node
  let met := front ++ target.locals ++ [target.chain.effect]
  have hmet {n : NodeId} (hn : n ∈ met) : g.Shows ms n := by
    refine h.roots n (ht n ?_)
    simp only [met, Env.refs, mem_append, mem_cons, not_mem_nil, or_false] at hn ⊢
    rcases hn with (hn | hn) | hn
    · exact .inl hn
    · exact .inr (.inr (.inr hn))
    · exact .inr (.inr (.inl hn))
  have hpush : merge.2.nodes = g.nodes.push node := rfl
  have hm : merge.2.Coherent roots ({ join := merge.1, hidden, todo := met, values := [] } :: ms) := by
    refine h.pushJoin hpush rfl (cons_ne_nil _ _) (fun m hm => ?_) hidden fun n => hmet
    rcases mem_cons.mp hm with rfl | hm
    · exact h.roots _ (ht _ (by simp [Env.refs]))
    · rw [mem_singleton.mp hm]
      exact h.roots _ (hs _ (by simp [Env.refs]))
  have hfresh : Fresh merge.2 merge.1 2 met := fresh_of_push h hpush rfl fun n => hmet
  let effect := if source.chain.effect ≠ target.chain.effect then
      merge.2.emitEffectPhi merge.1 [target.chain.effect, source.chain.effect]
    else (target.chain.effect, merge.2)
  have he : merge.2.Extended merge.1 target.chain.effect source.chain.effect effect.1 effect.2 ∧
      Fresh effect.2 merge.1 2 met := by
    dsimp only [effect]
    split
    · exact ⟨hfresh.extended (by simp [met]) rfl rfl rfl, hfresh.push rfl⟩
    · exact ⟨.same (hfresh.none _ (by simp [met])).2, hfresh⟩
  have hc := hm.extend rfl (hs _ (by simp [Env.refs])) he.1
  exact (joinLocals_coherent (I := fun g => Fresh g merge.1 2 met)
    (f := fun t a b g => if a ≠ b then g.emitPhi t merge.1 [a, b] else (a, g))
    (fun t b g a ha hf _ => by
      dsimp only
      split
      · exact ⟨hf.extended (by simp [met, ha]) rfl rfl rfl, hf.push rfl⟩
      · exact ⟨.same (hf.none a (by simp [met, ha])).2, hf⟩) htl hsl
    (fun b hb => hs b (by simp [Env.refs, hb])) he.2 hc).1

theorem joinMore_coherent (h : g.Coherent roots (target.meeting hidden [] front :: ms))
    (hs : ∀ n ∈ source.refs, n ∈ roots) (hsl : source.locals.length = types.length)
    (htl : target.locals.length = types.length) : (joinMore types source target g).2.Coherent roots
      ((joinMore types source target g).1.meeting hidden front [] :: ms) := by
  have hm := h.appendToMerge rfl (h.roots source.chain.control (hs _ (by simp [Env.refs])))
  have hc := hm.extend rfl (hs _ (by simp [Env.refs]))
    (extendEffect_extended hm.inputCount_pos target.chain.effect source.chain.effect)
  exact (joinLocals_coherent (I := fun _ => True)
    (f := fun t a b g => extendValue g t target.chain.control a b)
    (fun t b g a _ _ hpos => ⟨extendValue_extended hpos t a b, trivial⟩) htl hsl
    (fun b hb => hs b (by simp [Env.refs, hb])) trivial hc).1

theorem loopLocals_coherent {entries : List (ValType × NodeId × Bool)}
    (hn : ∀ x ∈ entries, x.2.1 ∈ nodes) (hr : ∀ n ∈ nodes, n ∈ roots) (hf : Fresh g join 1 nodes)
    (h : g.Coherent roots ({ join, hidden, values } :: ms)) :
    let r := entries.foldr (fun (t, n, w) (locals, g) =>
      if w then
        let (phi, g) := Graph.emitPhi g t join [n]
        (phi :: locals, g)
      else (n :: locals, g)) (([] : List NodeId), g)
    r.2.Coherent roots ({ join, hidden, values := r.1 ++ values } :: ms) ∧ Fresh r.2 join 1 nodes := by
  induction entries with
  | nil => exact ⟨h, hf⟩
  | cons x entries ih =>
    obtain ⟨hx, hn⟩ := forall_mem_cons.mp hn
    obtain ⟨hc, hf'⟩ := ih hn
    have hshow := hc.roots _ (hr _ hx)
    dsimp only
    rw [foldr_cons]
    split
    · refine ⟨?_, hf'.push rfl⟩
      exact hc.pushPhi rfl rfl rfl (forall_mem_singleton.mpr hshow) hf'.inputs.symm
    · exact ⟨hc.retain hshow (hf'.none _ hx).2, hf'⟩

theorem openLoop_coherent (types) (assigned : Option (List Bool)) (source : Env) (h : g.Coherent roots ms)
    (hs : ∀ n ∈ source.refs, n ∈ roots) :
    (openLoop types assigned source g).2.Coherent ((openLoop types assigned source g).1.refs ++ roots)
      ((openLoop types assigned source g).1.meeting false [] [] :: ms) := by
  let node : Node := { op := .loop, inputs := [source.chain.control] }
  let loop := g.add node
  let effect := loop.2.emitEffectPhi loop.1 [source.chain.effect]
  have hshow {n : NodeId} (hn : n ∈ source.refs) : g.Shows ms n := h.roots n (hs n hn)
  have hpush : loop.2.nodes = g.nodes.push node := rfl
  have h₁ : loop.2.Coherent roots ({ join := loop.1, hidden := false, values := [] } :: ms) :=
    h.pushJoin hpush rfl (cons_ne_nil _ _) (forall_mem_singleton.mpr (hshow (by simp [Env.refs]))) false
      fun n hn => absurd hn not_mem_nil
  have hf : Fresh loop.2 loop.1 1 source.refs := fresh_of_push h hpush rfl fun n => hshow
  have h₂ : effect.2.Coherent roots ({ join := loop.1, hidden := false, values := [effect.1] } :: ms) := by
    refine h₁.pushPhi rfl rfl rfl (forall_mem_singleton.mpr ?_) hf.inputs.symm
    exact h₁.roots _ (hs _ (by simp [Env.refs]))
  have hf₂ : Fresh effect.2 loop.1 1 source.refs := hf.push rfl
  have h₃ : (effect.2.emitTerminate ⟨loop.1, effect.1⟩).Coherent roots
      ({ join := loop.1, hidden := false, values := [effect.1] } :: ms) := by
    refine (h₂.push rfl rfl fun m hm => ?_).mono fun n hn => mem_cons_of_mem _ hn
    rcases mem_cons.mp hm with rfl | hm
    · exact h₂.shows_of_value rfl mem_cons_self
    · rw [mem_singleton.mp hm]
      obtain ⟨x, hx, hp, -⟩ := (h₂.meetings _ mem_cons_self).join
      exact shows_of_not_phi hx hp
  have hf₃ : Fresh (effect.2.emitTerminate ⟨loop.1, effect.1⟩) loop.1 1 source.refs := hf₂.push rfl
  let wanted := assigned.getD (source.locals.map fun _ => true)
  have hlocals : ∀ x ∈ types.zip (source.locals.zip wanted), x.2.1 ∈ source.refs := by
    intro x hx
    exact mem_cons_of_mem _ (mem_cons_of_mem _ (of_mem_zip (of_mem_zip hx).2).1)
  obtain ⟨hc, -⟩ := loopLocals_coherent hlocals hs hf₃ h₃
  refine hc.add fun n hn => ?_
  rcases mem_cons.mp hn with rfl | hn
  · obtain ⟨x, hx, hp, -⟩ := (hc.meetings _ mem_cons_self).join
    exact shows_of_not_phi hx hp
  · refine hc.shows_of_value rfl (mem_append.mpr ?_)
    rcases mem_cons.mp hn with rfl | hn
    · exact .inr mem_cons_self
    · exact .inl hn

end Joins

section Targets

variable {n : Nat} {e env source : Env} {t : Target} {ts ts' : List Target} {roots' : List NodeId}

/-- Nodes that are needed where control gets to only. -/
def Env.given (e : Env) (ns : List NodeId) : List NodeId := if e.live then ns else []

theorem Env.given_of_live (h : e.live = true) (ns : List NodeId) : e.given ns = ns := if_pos h

theorem Env.given_of_dead (h : e.live = false) (ns : List NodeId) : e.given ns = [] := by simp [Env.given, h]

theorem mem_of_given {ns : List NodeId} (h : m ∈ e.given ns) : m ∈ ns := by
  unfold Env.given at h
  split at h
  · exact h
  · cases h

theorem mem_given (h : e.live = true) : m ∈ e.given [m] ++ roots := by
  rw [Env.given_of_live h]
  exact mem_cons_self

def Target.front : Target → List NodeId
  | .exit j => [j.node]
  | .header _ => []

/-- The phis at the end of a block are not in sight before the block is closed. -/
def Target.hidden : Target → Bool
  | .exit _ => true
  | .header _ => false

/-- A value that is none gets no phi. -/
def Target.kept : Target → List NodeId
  | .exit j => if j.type = .void then [j.node] else []
  | .header _ => []

def Target.refs (t : Target) : List NodeId :=
  (if t.env.reach = .once then t.front ++ t.env.refs else []) ++ t.kept

def Target.meetings (t : Target) : List Meeting :=
  if t.env.reach = .joined then [t.env.meeting t.hidden [] t.front] else []

/-- The graph is coherent with the point at hand and the targets, all of which have a node for each local. -/
structure Meets (g : Graph) (n : Nat) (e : Env) (ts : List Target) (roots : List NodeId) : Prop where
  coherent : g.Coherent (e.given e.refs ++ (ts.flatMap Target.refs ++ roots)) (ts.flatMap Target.meetings)
  here : e.live = true → e.locals.length = n
  targets : ∀ t ∈ ts, t.env.live = true → t.env.locals.length = n

namespace Meets

theorem mono (h : Meets g n e ts roots) (hr : ∀ m ∈ roots', m ∈ roots) : Meets g n e ts roots' := by
  refine ⟨h.coherent.mono fun m hm => ?_, h.here, h.targets⟩
  simp only [mem_append] at hm ⊢
  exact hm.imp_right (Or.imp_right (hr m))

theorem add (h : Meets g n e ts roots) (hr : ∀ m ∈ roots', g.Shows (ts.flatMap Target.meetings) m) :
    Meets g n e ts (roots' ++ roots) := by
  refine ⟨(h.coherent.add hr).mono fun m hm => ?_, h.here, h.targets⟩
  simp only [mem_append] at hm ⊢
  rcases hm with hm | hm | hm | hm
  · exact .inr (.inl hm)
  · exact .inr (.inr (.inl hm))
  · exact .inl hm
  · exact .inr (.inr (.inr hm))

theorem perm (h : Meets g n e ts roots) (hp : ts.Perm ts') : Meets g n e ts' roots := by
  refine ⟨(h.coherent.perm (hp.flatMap_right _)).mono fun m hm => ?_, h.here, fun t ht => ?_⟩
  · simp only [mem_append] at hm ⊢
    exact hm.imp_right (Or.imp_left (hp.flatMap_right _).mem_iff.mpr)
  · exact h.targets t (hp.mem_iff.mpr ht)

theorem finish (h : Meets g n e ts roots) (he : env.live = false) : Meets g n env ts roots := by
  refine ⟨h.coherent.mono fun m hm => ?_, fun hl => ?_, h.targets⟩
  · rw [Env.given_of_dead he] at hm
    exact mem_append_right _ hm
  · rw [he] at hl
    cases hl

theorem close (h : Meets g n e (t :: ts) roots) :
    g.Coherent (t.env.given (t.front ++ t.env.refs) ++ (e.given e.refs ++ (ts.flatMap Target.refs ++ roots)))
      (ts.flatMap Target.meetings) := by
  have hc := h.coherent
  rw [flatMap_cons, flatMap_cons] at hc
  cases hr : t.env.reach with
  | ended | unreached =>
    have hd : t.env.live = false := by simp [Env.live, hr]
    simp only [Target.meetings, hr, reduceCtorEq, if_false, nil_append] at hc
    refine hc.mono fun _ hm => ?_
    rw [Env.given_of_dead hd, nil_append] at hm
    simp only [mem_append] at hm ⊢
    tauto
  | once =>
    have hl : t.env.live = true := by simp [Env.live, hr]
    simp only [Target.meetings, hr, reduceCtorEq, if_false, nil_append] at hc
    refine hc.mono fun m hm => ?_
    rw [Env.given_of_live hl] at hm
    simp only [Target.refs, hr, if_true, mem_append] at hm ⊢
    tauto
  | joined =>
    have hl : t.env.live = true := by simp [Env.live, hr]
    simp only [Target.meetings, hr, if_true] at hc
    refine (hc.close rfl).mono fun m hm => ?_
    rw [Env.given_of_live hl] at hm
    simp only [Env.refs, Env.meeting, mem_append, mem_cons, not_mem_nil, or_false] at hm ⊢
    tauto

theorem forget {us : List Target} (h : Meets g n e (us ++ ts) roots) : Meets g n e ts roots := by
  induction us with
  | nil => exact h
  | cons u us ih =>
    exact ih ⟨h.close.mono fun _ hm => mem_append_right _ hm, h.here, (forall_mem_cons.mp h.targets).2⟩

theorem resume (h : Meets g n e (t :: ts) roots) : Meets g n t.env ts (t.env.given t.front ++ roots) := by
  obtain ⟨ht, hts⟩ := forall_mem_cons.mp h.targets
  refine ⟨h.close.mono fun m hm => ?_, ht, hts⟩
  cases hl : t.env.live with
  | false =>
    rw [Env.given_of_dead hl, Env.given_of_dead hl] at hm
    simp only [nil_append, mem_append] at hm ⊢
    tauto
  | true =>
    rw [Env.given_of_live hl, Env.given_of_live hl] at hm
    rw [Env.given_of_live hl]
    simp only [mem_append] at hm ⊢
    tauto

theorem goTo {types : List ValType} {og : Option Graph} (h : Meets g types.length source (t :: ts) roots)
    (hs : source.live = true) (ht : t.env.reach ≠ .unreached)
    (hgo : Body.goTo types source t.env (some g) = some (env, og)) :
    ∃ g', og = some g' ∧ env.locals.length = types.length ∧
      g'.Coherent (t.kept ++ (ts.flatMap Target.refs ++ roots))
        (env.meeting t.hidden t.front [] :: ts.flatMap Target.meetings) := by
  have hlive := live_of_goTo hgo hs ht
  have hsl := h.here hs
  have htl := h.targets t mem_cons_self hlive
  have hc := h.coherent
  rw [Env.given_of_live hs, flatMap_cons, flatMap_cons] at hc
  have hsource : ∀ m ∈ source.refs, m ∈ source.refs ++ (t.refs ++ ts.flatMap Target.refs ++ roots) :=
    fun m hm => mem_append_left _ hm
  have hkept : ∀ m ∈ t.kept ++ (ts.flatMap Target.refs ++ roots),
      m ∈ source.refs ++ (t.refs ++ ts.flatMap Target.refs ++ roots) := by
    intro m hm
    simp only [Target.refs, mem_append] at hm ⊢
    tauto
  simp only [Body.goTo, hs, Bool.not_true, Bool.false_eq_true, if_false] at hgo
  cases hr : t.env.reach with
  | ended => simp [Env.live, hr] at hlive
  | unreached => exact absurd hr ht
  | once =>
    simp only [hr] at hgo
    cases hgo
    simp only [Target.meetings, hr, reduceCtorEq, if_false, nil_append] at hc
    have htarget : ∀ m ∈ t.front ++ t.env.refs, m ∈ source.refs ++ (t.refs ++ ts.flatMap Target.refs ++ roots) := by
      intro m hm
      simp only [Target.refs, hr, if_true, mem_append] at hm ⊢
      tauto
    have hc := joinReached_coherent hc hsource htarget hsl htl t.hidden
    exact ⟨_, rfl, by unfold joinReached; exact length_joinLocals htl hsl, hc.mono hkept⟩
  | joined =>
    simp only [hr] at hgo
    cases hgo
    simp only [Target.meetings, hr, if_true] at hc
    have hc := joinMore_coherent hc hsource hsl htl
    exact ⟨_, rfl, by unfold joinMore; exact length_joinLocals htl hsl, hc.mono hkept⟩

theorem arrive {t' : Target} (h : Meets g n source (t :: ts) roots) (hs : source.live = true)
    (ht : t.env.reach = .unreached) (he : t'.env = { source with reach := .once })
    (hr : ∀ m ∈ t'.front ++ t'.kept, m ∈ roots) (hd : e.live = false) : Meets g n e (t' :: ts) roots := by
  obtain ⟨-, hts⟩ := forall_mem_cons.mp h.targets
  have hc := h.coherent
  rw [Env.given_of_live hs, flatMap_cons, flatMap_cons] at hc
  simp only [Target.meetings, ht, reduceCtorEq, if_false, nil_append] at hc
  refine ⟨?_, fun hl => ?_, forall_mem_cons.mpr ⟨fun _ => ?_, hts⟩⟩
  · rw [flatMap_cons, flatMap_cons]
    simp only [Target.meetings, he, reduceCtorEq, if_false, nil_append]
    refine hc.mono fun m hm => ?_
    rw [Env.given_of_dead hd, Target.refs, he, if_pos rfl] at hm
    simp only [mem_append, nil_append] at hm hr ⊢
    rcases hm with (((hm | hm) | hm) | hm) | hm
    · exact .inr (.inr (hr m (.inl hm)))
    · exact .inl hm
    · exact .inr (.inr (hr m (.inr hm)))
    · exact .inr (.inl (.inr hm))
    · exact .inr (.inr hm)
  · rw [hd] at hl
    cases hl
  · rw [he]
    exact h.here hs

/-- The target at which the ways that control goes on to it meet. -/
theorem of_joined (hc : g.Coherent (t.kept ++ (ts.flatMap Target.refs ++ roots))
      (t.env.meeting t.hidden [] t.front :: ts.flatMap Target.meetings)) (hr : t.env.reach = .joined)
    (hl : t.env.locals.length = n) (hts : ∀ t ∈ ts, t.env.live = true → t.env.locals.length = n)
    (hd : e.live = false) : Meets g n e (t :: ts) roots := by
  refine ⟨?_, fun hl => ?_, forall_mem_cons.mpr ⟨fun _ => hl, hts⟩⟩
  · rw [Env.given_of_dead hd, flatMap_cons, flatMap_cons]
    simpa [Target.meetings, Target.refs, hr] using hc
  · rw [hd] at hl
    cases hl

theorem header {target : Env} (h : Meets g ctx.types.length s.env (.header target :: ts) roots)
    (hg : s.graph = some g) (hl : leave ctx p s target = .ok (env, s')) :
    ∃ g', s'.graph = some g' ∧ Meets g' ctx.types.length s'.env (.header env :: ts) roots := by
  have hd := leave_live hl
  cases hs : s.env.live with
  | false =>
    rw [leave_of_dead target hs] at hl
    cases hl
    exact ⟨g, hg, h⟩
  | true =>
    obtain ⟨og, hgo, rfl⟩ := leave_eq_ok.mp hl
    rw [hg] at hgo
    by_cases hr : target.reach = .unreached
    · simp only [Body.goTo, hs, hr, Bool.not_true, Bool.false_eq_true, if_false] at hgo
      cases hgo
      exact ⟨g, rfl, h.arrive hs hr rfl (fun m hm => absurd hm not_mem_nil) hd⟩
    · obtain ⟨g', rfl, hlen, hc⟩ := h.goTo hs hr hgo
      refine ⟨g', rfl, of_joined hc (goTo_joined hgo hs hr) hlen ?_ hd⟩
      exact (forall_mem_cons.mp h.targets).2

theorem bring {j j' : Join} {v : Tree} (h : Meets g ctx.types.length s.env (.exit j :: ts) roots)
    (hg : s.graph = some g) (hb : Brings ctx p s j v j' s')
    (hv : s.env.live = true → v.type ≠ .unreachable ∧ v.node ∈ roots) :
    ∃ g', s'.graph = some g' ∧ Meets g' ctx.types.length s'.env (.exit j' :: ts) roots := by
  have hd := hb.live
  have hts := (forall_mem_cons.mp h.targets).2
  -- what has met before the value does
  have meet {env : Env} {s₁ : State} (hs : s.env.live = true) (hr : j.env.reach ≠ .unreached)
      (hl : leave ctx p s j.env = .ok (env, s₁)) : ∃ g', s₁.graph = some g' ∧ env.reach = .joined ∧
        env.locals.length = ctx.types.length ∧
        g'.Coherent ((Target.exit j).kept ++ (ts.flatMap Target.refs ++ roots))
          (env.meeting true [j.node] [] :: ts.flatMap Target.meetings) := by
    obtain ⟨og, hgo, rfl⟩ := leave_eq_ok.mp hl
    rw [hg] at hgo
    obtain ⟨g', rfl, hlen, hc⟩ := h.goTo hs hr hgo
    exact ⟨g', rfl, goTo_joined hgo hs hr, hlen, hc⟩
  cases hb with
  | dead => exact ⟨g, hg, h⟩
  | silent hs _ ht => exact absurd ht (hv hs).1
  | @first env s₁ hs hl ht hr =>
    obtain ⟨og, hgo, rfl⟩ := leave_eq_ok.mp hl
    simp only [Body.goTo, hs, hr, Bool.not_true, Bool.false_eq_true, if_false] at hgo
    cases hgo
    refine ⟨g, hg, h.arrive hs hr rfl (fun m hm => ?_) hd⟩
    simp only [Target.front, Target.kept, mem_append, mem_singleton] at hm
    rcases hm with rfl | hm
    · exact (hv hs).2
    · split at hm
      · rw [mem_singleton.mp hm]
        exact (hv hs).2
      · cases hm
  | @clash env s₁ hs hl ht hr =>
    obtain ⟨g', hg', hj, hlen, hc⟩ := meet hs hr hl
    refine ⟨g', hg', of_joined (t := .exit ⟨env, .void, noNode⟩) ?_ hj hlen hts hd⟩
    refine (hc.replace rfl shows_noNode).mono fun m hm => ?_
    rcases mem_cons.mp hm with rfl | hm
    · exact mem_cons_self
    · exact mem_cons_of_mem _ (mem_append_right _ hm)
  | @same env s₁ hs hl ht hr _ hvoid =>
    obtain ⟨g', hg', hj, hlen, hc⟩ := meet hs hr hl
    have hvoid : j.type = .void := hvoid.resolve_right fun hnone => by
      rw [hg'] at hnone
      cases hnone
    have hkept : (Target.exit j).kept = [j.node] := if_pos hvoid
    rw [hkept] at hc
    refine ⟨g', hg', of_joined (t := .exit { j with env }) ?_ hj hlen hts hd⟩
    rw [show (Target.exit { j with env }).kept = [j.node] from hkept]
    refine (hc.replace rfl (hc.roots j.node mem_cons_self)).mono fun m hm => ?_
    exact mem_cons_of_mem _ hm
  | @merge env s₁ g₁ hs hl ht hr _ hvoid hg₁ =>
    obtain ⟨g', hg', hj, hlen, hc⟩ := meet hs hr hl
    cases hg₁.symm.trans hg'
    rw [show (Target.exit j).kept = [] from if_neg hvoid] at hc
    have hmem : v.node ∈ [] ++ (ts.flatMap Target.refs ++ roots) := by
      simp [(hv hs).2]
    have hext := hc.extend (show _ = [] ++ [j.node] from rfl) hmem
      (extendValue_extended hc.inputCount_pos j.type j.node v.node)
    refine ⟨_, rfl, of_joined (t := .exit ⟨env, j.type, _⟩) ?_ hj hlen hts hd⟩
    rw [show (Target.exit ⟨env, j.type, _⟩).kept = [] from if_neg hvoid]
    exact hext

end Meets

end Targets

end ProtoWasm.Body
