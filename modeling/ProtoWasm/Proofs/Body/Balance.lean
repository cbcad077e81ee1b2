import Mathlib.Algebra.BigOperators.Group.Multiset.Basic
import ProtoWasm.Proofs.Binary.Reading
import ProtoWasm.Proofs.Body.Tracking
import ProtoWasm.Proofs.Graph.Control

/-! # Control is handed over

Control is held by the environment at hand, by the ends of blocks that it got to and by the directions that
are still to be decoded. Joining environments hands it over to the join, and at the end of a body nobody
holds it any more.
-/
namespace ProtoWasm.Body

open Body.Expr ProtoWasm.Graph List

variable {ctx : Context} {p p' : Pending} {s s' s₀ s₁ : State} {g : Graph}
  {table : Option (NodeId × List (Op × Nat))} {rest outer : Multiset NodeId} {es : List Env} {e : Env}
  {t : Tree} {depth : Nat} {f : Graph.Emitter} {depths : List Nat} {x : Instruction}
  {cs : List Expr} {og : Option Graph} {ts : List Target}

def Env.held (e : Env) : Multiset NodeId := if e.live then {e.chain.control} else 0

theorem Env.held_of_live (h : e.live = true) : e.held = {e.chain.control} := if_pos h

theorem Env.held_of_dead (h : e.live = false) : e.held = 0 := by simp [Env.held, h]

/-- An environment that is reached by a join has a control that further ways can be added to. -/
def Env.Collects (g : Graph) (e : Env) : Prop :=
  e.reach = .joined → ∃ x, g.node? e.chain.control = some x ∧ x.op.collects = true

theorem Env.collects_of_dead (h : e.live = false) : e.Collects g := by
  intro hr
  simp [Env.live, hr] at h

theorem Env.Collects.of_extends {g' : Graph} (hg : g.Extends g') (h : e.Collects g) :
    e.Collects g' := by
  intro hr
  obtain ⟨x, hx, hc⟩ := h hr
  obtain ⟨y, hy, hxy⟩ := hg _ x hx
  exact ⟨y, hy, by rw [hxy.op, hc]⟩

section Joins

variable {source target env : Env} (types : List ValType)

theorem Merges.balanced {g' : Graph} {join : NodeId} (h : Merges join g g') (hb : g.Balanced table rest) :
    g'.Balanced table rest := by
  induction h with
  | refl => exact hb
  | phi _ hn _ hx _ ih =>
    rcases hx with hx | hx <;>
      exact ih.pushIdle hn (by rw [hx]; rfl) (by rw [hx]; rfl) (by rw [Node.controls, hx]; rfl) (by rw [hx]; rfl)
  | append _ hp value ih => exact ih.appendToPhi hp value

/-- A join stays one. -/
theorem Merges.collects {g' : Graph} {join : NodeId} {x : Node} (h : Merges join g g') (hx : g.node? join = some x)
    (hc : x.op.collects = true) (hj : env.chain.control = join) : env.Collects g' := by
  intro _
  obtain ⟨y, hy, hxy⟩ := h.builds.extends join x hx
  exact ⟨y, hj ▸ hy, by rw [hxy.op, hc]⟩

theorem joinReached_balanced (h : g.Balanced table (source.chain.control ::ₘ target.chain.control ::ₘ rest)) :
    (joinReached types source target g).2.Balanced table
        ((joinReached types source target g).1.chain.control ::ₘ rest) ∧
      (joinReached types source target g).1.Collects (joinReached types source target g).2 := by
  let node : Node := { op := .merge, inputs := [target.chain.control, source.chain.control] }
  let merge := g.add node
  have hc : (↑node.controls : Multiset NodeId) = target.chain.control ::ₘ {source.chain.control} := rfl
  have hp : g.Balanced table (↑node.controls + rest) := by
    rwa [hc, Multiset.cons_add, Multiset.singleton_add, Multiset.cons_swap]
  have hm : merge.2.Balanced table (merge.1 ::ₘ rest) := hp.push rfl rfl rfl
  have hmerges : Merges merge.1 merge.2 _ := joinReached_merges types source target
  exact ⟨hmerges.balanced hm, hmerges.collects (node?_new rfl) rfl rfl⟩

theorem joinMore_balanced (h : g.Balanced table (source.chain.control ::ₘ rest)) (ht : target.Collects g)
    (hr : target.reach = .joined) : (joinMore types source target g).2.Balanced table rest := by
  obtain ⟨x, hx, hc⟩ := ht hr
  exact (joinMore_merges types source target).balanced (h.appendToMerge hx hc)

theorem joinMore_collects (ht : target.Collects g) (hr : target.reach = .joined) (source : Env) :
    (joinMore types source target g).1.Collects (joinMore types source target g).2 := by
  intro _
  exact (ht.of_extends (joinMore_builds types source target).extends) hr

/-- Going on to a join hands control over to it. -/
theorem goTo_balanced (h : g.Balanced table (source.held + target.held + rest))
    (ht : target.Collects g) (hgo : goTo types source target (some g) = some (env, og)) :
    ∃ g', og = some g' ∧ g'.Balanced table (env.held + rest) ∧ env.Collects g' := by
  cases hs : source.live with
  | false =>
    simp only [goTo, hs, Bool.not_false, if_true] at hgo
    cases hgo
    rw [Env.held_of_dead hs, zero_add] at h
    exact ⟨g, rfl, h, ht⟩
  | true =>
    rw [Env.held_of_live hs] at h
    simp only [goTo, hs, Bool.not_true, Bool.false_eq_true, if_false] at hgo
    cases hr : target.reach with
    | ended => simp [hr] at hgo
    | unreached =>
      simp only [hr] at hgo
      cases hgo
      have hd : target.held = 0 := Env.held_of_dead (by simp [Env.live, hr])
      rw [hd, add_zero] at h
      exact ⟨g, rfl, h, Reach.noConfusion⟩
    | once =>
      simp only [hr] at hgo
      cases hgo
      rw [Env.held_of_live (e := target) (by simp [Env.live, hr]), add_assoc, Multiset.singleton_add,
        Multiset.singleton_add] at h
      obtain ⟨hb, hc⟩ := joinReached_balanced types h
      rw [Env.held_of_live rfl, Multiset.singleton_add]
      exact ⟨_, rfl, hb, hc⟩
    | joined =>
      simp only [hr] at hgo
      cases hgo
      rw [Env.held_of_live (e := target) (by simp [Env.live, hr]), add_assoc, Multiset.singleton_add] at h
      rw [Env.held_of_live rfl]
      exact ⟨_, rfl, joinMore_balanced types h ht hr, joinMore_collects types ht hr source⟩

/-- The beginning of a loop takes control over, and it goes on from there already. -/
theorem goTo_header (h : g.Balanced table (source.held + rest)) (ht : target.Collects g)
    (hr : target.reach = .joined) (hgo : goTo types source target (some g) = some (env, og)) :
    ∃ g', og = some g' ∧ g'.Balanced table rest ∧ env.Collects g' ∧ env.reach = .joined := by
  cases hs : source.live with
  | false =>
    simp only [goTo, hs, Bool.not_false, if_true] at hgo
    cases hgo
    rw [Env.held_of_dead hs, zero_add] at h
    exact ⟨g, rfl, h, ht, hr⟩
  | true =>
    rw [Env.held_of_live hs, Multiset.singleton_add] at h
    simp only [goTo, hs, hr, Bool.not_true, Bool.false_eq_true, if_false] at hgo
    cases hgo
    exact ⟨_, rfl, joinMore_balanced types h ht hr, joinMore_collects types ht hr source, rfl⟩

theorem openLoop_balanced (h : g.Balanced table (env.chain.control ::ₘ rest)) (assigned : Option (List Bool)) :
    (openLoop types assigned env g).2.Balanced table ((openLoop types assigned env g).1.chain.control ::ₘ rest) ∧
      (openLoop types assigned env g).1.Collects (openLoop types assigned env g).2 := by
  let node : Node := { op := .loop, inputs := [env.chain.control] }
  let loop := g.add node
  let effect := loop.2.emitEffectPhi loop.1 [env.chain.effect]
  have hl : loop.2.Balanced table (loop.1 ::ₘ rest) := h.pushOn rfl rfl rfl rfl rfl
  have he : effect.2.Balanced table (loop.1 ::ₘ rest) := hl.pushIdle rfl rfl rfl rfl rfl
  have ht : (loopTop g env.chain).Balanced table (loop.1 ::ₘ rest) := he.pushIdle rfl rfl rfl rfl rfl
  have hnode : (loopTop g env.chain).node? loop.1 = some node :=
    node?_of_push_old rfl (node?_of_push_old rfl (node?_new rfl))
  have hmerges : Merges loop.1 (loopTop g env.chain) _ := openLoop_merges types assigned env
  exact ⟨hmerges.balanced ht, hmerges.collects hnode rfl rfl⟩

end Joins

section States

def State.Balanced (s : State) (table : Option (NodeId × List (Op × Nat))) (held : Multiset NodeId)
    (es : List Env) : Prop :=
  ∃ g, s.graph = some g ∧ g.Balanced table held ∧ ∀ e ∈ es, e.Collects g

namespace State.Balanced

variable {target env : Env} {es' : List Env}

theorem mono (h : s.Balanced table rest es) (he : ∀ e ∈ es', e ∈ es ∨ e.reach ≠ .joined) :
    s.Balanced table rest es' := by
  obtain ⟨g, hg, hb, hc⟩ := h
  refine ⟨g, hg, hb, fun e hm => ?_⟩
  rcases he e hm with hm | hr
  · exact hc e hm
  · exact fun h => absurd h hr

theorem leave (h : s.Balanced table (s.env.held + target.held + rest) (target :: es))
    (hl : Body.leave ctx p s target = .ok (env, s')) : s'.Balanced table (env.held + rest) (env :: es) := by
  obtain ⟨g, hg, hb, hc⟩ := h
  obtain ⟨ht, hes⟩ := forall_mem_cons.mp hc
  obtain ⟨g₁, hg₁, hext⟩ := (leave_builds hl).extends g hg
  obtain ⟨og, hgo, rfl⟩ := leave_eq_ok.mp hl
  rw [hg] at hgo
  obtain ⟨g', rfl, hb', he⟩ := goTo_balanced _ hb ht hgo
  cases hg₁
  exact ⟨_, rfl, hb', forall_mem_cons.mpr ⟨he, fun e hm => (hes e hm).of_extends hext⟩⟩

theorem leaveHeader (h : s.Balanced table (s.env.held + rest) (target :: es)) (hr : target.reach = .joined)
    (hl : Body.leave ctx p s target = .ok (env, s')) :
    s'.Balanced table rest (env :: es) ∧ env.reach = .joined := by
  obtain ⟨g, hg, hb, hc⟩ := h
  obtain ⟨ht, hes⟩ := forall_mem_cons.mp hc
  obtain ⟨g₁, hg₁, hext⟩ := (leave_builds hl).extends g hg
  obtain ⟨og, hgo, rfl⟩ := leave_eq_ok.mp hl
  rw [hg] at hgo
  obtain ⟨g', rfl, hb', he, hr'⟩ := goTo_header _ hb ht hr hgo
  cases hg₁
  exact ⟨⟨_, rfl, hb', forall_mem_cons.mpr ⟨he, fun e hm => (hes e hm).of_extends hext⟩⟩, hr'⟩

theorem bring {j j' : Join} (h : s.Balanced table (s.env.held + j.env.held + rest) (j.env :: es))
    (hb : Brings ctx p s j t j' s') : s'.Balanced table (j'.env.held + rest) (j'.env :: es) := by
  cases hb with
  | dead hs =>
    rw [Env.held_of_dead hs, zero_add] at h
    exact h
  | silent _ hl | first _ hl | clash _ hl | same _ hl => exact h.leave hl
  | @merge env s₁ g _ hl _ _ _ _ hg =>
    obtain ⟨g', hg', hb, hc⟩ := h.leave hl
    cases hg.symm.trans hg'
    have hmerges := extendValue_merges g j.type env.chain.control j.node t.node
    exact ⟨_, rfl, hmerges.balanced hb, fun e hm => (hc e hm).of_extends hmerges.builds.extends⟩

end State.Balanced

/-- What a target holds. A loop has gone on with the control that comes to its beginning. -/
def Target.held : Target → Multiset NodeId
  | .exit j => j.env.held
  | .header _ => 0

def Target.isHeader : Target → Bool
  | .exit _ => false
  | .header _ => true

/-- All control is held by the environment at hand, by the targets and by others. -/
structure State.Conserves (s : State) (table : Option (NodeId × List (Op × Nat))) (kinds : List Bool)
    (outer : Multiset NodeId) (es : List Env) : Prop where
  balanced : s.Balanced table (s.env.held + ((s.blocks.map Target.held).sum + outer))
    (s.blocks.map Target.env ++ es)
  headers : ∀ e, .header e ∈ s.blocks → e.reach = .joined
  kinds : s.blocks.map Target.isHeader = kinds

theorem held_set {t : Target} (h : ts[depth]? = some t) :
    ∃ others, (ts.map Target.held).sum = t.held + others ∧
      ∀ t', ((ts.set depth t').map Target.held).sum = t'.held + others := by
  induction ts generalizing depth with
  | nil => simp at h
  | cons u ts ih =>
    cases depth with
    | zero =>
      obtain rfl : u = t := by simpa using h
      exact ⟨(ts.map Target.held).sum, by simp, fun t' => by simp⟩
    | succ depth =>
      obtain ⟨others, ho, hs⟩ := ih (getElem?_cons_succ ▸ h)
      refine ⟨u.held + others, ?_, fun t' => ?_⟩
      · rw [map_cons, sum_cons, ho, add_left_comm]
      · rw [set_cons_succ, map_cons, sum_cons, hs, add_left_comm]

theorem Env.split_held (e : Env) : e.split.held = e.held := by
  unfold Env.split
  split
  · rename_i h
    rw [Env.held_of_live h]
    rfl
  · rename_i h
    exact (Env.held_of_dead (by simpa using h)).symm

theorem kinds_set {t : Target} (t' : Target) (h : ts[depth]? = some t)
    (ht : t'.isHeader = t.isHeader) : (ts.set depth t').map Target.isHeader = ts.map Target.isHeader := by
  apply ext_getElem?
  intro i
  rw [map_set, getElem?_set]
  split
  · rename_i hi
    subst hi
    rw [getElem?_map, h, ht]
    simp [(List.getElem?_eq_some_iff.mp h).1]
  · rfl

namespace State.Conserves

variable {env : Env} {kinds : List Bool}

theorem resume (h : s.Conserves table kinds (env.held + outer) es) (hs : s.env.live = false)
    (choices : List Choice) : State.Conserves { s with env, choices } table kinds outer es := by
  obtain ⟨g, hg, hb, hc⟩ := h.balanced
  rw [Env.held_of_dead hs, zero_add, add_left_comm] at hb
  exact ⟨⟨g, hg, hb, hc⟩, h.headers, h.kinds⟩

section

variable (h : s.Conserves table kinds outer es)
include h

theorem aside (hs : s'.env.live = false) (hg : s'.graph = s.graph)
    (hb : s'.blocks = s.blocks) : s'.Conserves table kinds (s.env.held + outer) es := by
  obtain ⟨g, hg', hbal, hc⟩ := h.balanced
  refine ⟨⟨g, hg.trans hg', ?_, by rw [hb]; exact hc⟩, by rw [hb]; exact h.headers, by rw [hb]; exact h.kinds⟩
  rw [Env.held_of_dead hs, zero_add, hb, add_left_comm]
  exact hbal

theorem quiet (hs : s.env.live = false) (hq : Quiet s s') : s'.Conserves table kinds outer es := by
  have ha := h.aside hq.live hq.graph hq.blocks
  rwa [Env.held_of_dead hs, zero_add] at ha

theorem change {table' : Option (NodeId × List (Op × Nat))}
    (hext : s.Under Extends s') (hb : s'.blocks = s.blocks)
    (hbal : ∀ g g' rest, s.graph = some g → s'.graph = some g' → g.Balanced table (s.env.held + rest) →
      g'.Balanced table' (s'.env.held + rest)) : s'.Conserves table' kinds outer es := by
  obtain ⟨g, hg, hbg, hc⟩ := h.balanced
  obtain ⟨g', hg', hext⟩ := hext g hg
  refine ⟨⟨g', hg', ?_, ?_⟩, by rw [hb]; exact h.headers, by rw [hb]; exact h.kinds⟩
  · rw [hb]
    exact hbal g g' _ hg hg' hbg
  · rw [hb]
    exact fun e hm => (hc e hm).of_extends hext

theorem breaks (hb : Breaks ctx p s depth t s') : s'.Conserves table kinds outer es := by
  have hdead := hb.live
  have mem {target : Target} (ht : s.blocks[depth]? = some target) :
      ∀ e ∈ target.env :: (s.blocks.map Target.env ++ es), e ∈ s.blocks.map Target.env ++ es ∨ e.reach ≠ .joined := by
    intro e he
    rcases mem_cons.mp he with rfl | he
    · exact .inl (mem_append_left _ (mem_map_of_mem (mem_of_getElem? ht)))
    · exact .inl he
  have set (new : Target) : ∀ e ∈ (s.blocks.set depth new).map Target.env ++ es,
      e ∈ new.env :: (s.blocks.map Target.env ++ es) ∨ e.reach ≠ .joined := by
    intro e he
    rcases mem_append.mp he with he | he
    · obtain ⟨t, ht, rfl⟩ := mem_map.mp he
      rcases mem_or_eq_of_mem_set ht with ht | rfl
      · exact .inl (mem_cons_of_mem _ (mem_append_left _ (mem_map_of_mem ht)))
      · exact .inl mem_cons_self
    · exact .inl (mem_cons_of_mem _ (mem_append_right _ he))
  cases hb with
  | @header target env s₁ ht hl =>
    have hr := h.headers target (mem_of_getElem? ht)
    obtain ⟨others, ho, hs⟩ := held_set ht
    obtain ⟨hbal, hr'⟩ := (h.balanced.mono (mem ht)).leaveHeader hr hl
    refine ⟨?_, fun e he => ?_, (kinds_set (.header env) ht rfl).trans h.kinds⟩
    · rw [Env.held_of_dead hdead, zero_add, hs, show (Target.header env).held = (Target.header target).held from rfl,
        ← ho]
      exact hbal.mono (set (.header env))
    · rcases mem_or_eq_of_mem_set he with he | he
      · exact h.headers e he
      · cases he
        exact hr'
  | @exit j j' s₁ ht hj =>
    obtain ⟨others, ho, hs⟩ := held_set ht
    have hbal := h.balanced.mono (mem ht)
    rw [ho, add_assoc, ← add_assoc] at hbal
    refine ⟨?_, fun e he => ?_, (kinds_set (.exit j') ht rfl).trans h.kinds⟩
    · rw [Env.held_of_dead hdead, zero_add, hs, add_assoc]
      exact (hbal.bring hj).mono (set (.exit j'))
    · rcases mem_or_eq_of_mem_set he with he | he
      · exact h.headers e he
      · cases he

end

theorem openBlock (h : s.Conserves none kinds outer es) (hs : s.env.live = true) (offset : Int) (isLoop : Bool) :
    (openBlock ctx s offset isLoop).Conserves none ((if isLoop then [true] else []) ++ false :: kinds) outer es := by
  obtain ⟨g, hg, hb, hc⟩ := h.balanced
  cases isLoop with
  | false =>
    have hv : s.env.vacate.held = 0 := Env.held_of_dead (Env.vacate_live _)
    refine ⟨⟨g, hg, ?_, ?_⟩, fun e he => ?_, congrArg (false :: ·) h.kinds⟩
    · simpa [Body.openBlock, Target.held, hv, Env.split_held] using hb
    · exact forall_mem_cons.mpr ⟨Env.collects_of_dead (Env.vacate_live _), hc⟩
    · rcases mem_cons.mp he with he | he
      · cases he
      · exact h.headers e he
  | true =>
    obtain ⟨assigned, -, ho⟩ : ∃ assigned, _ ∧ Body.openBlock ctx s offset true = _ := openBlock_of_live offset hs hg
    rw [← Env.split_held, Env.held_of_live ((Env.split_live _).trans hs), Multiset.singleton_add] at hb
    obtain ⟨hbal, hroot⟩ := openLoop_balanced ctx.types hb assigned
    have hext := (openLoop_builds (g := g) ctx.types assigned s.env.split).extends
    rw [ho]
    refine ⟨⟨_, rfl, ?_, ?_⟩, fun e he => ?_, congrArg (true :: false :: ·) h.kinds⟩
    · rw [Env.split_held, Env.held_of_live rfl, Multiset.singleton_add]
      simpa [Target.held, Env.held_of_dead (e := .unreached) rfl] using hbal
    · refine forall_mem_cons.mpr ⟨hroot, forall_mem_cons.mpr ⟨Reach.noConfusion, fun e he => ?_⟩⟩
      exact (hc e he).of_extends hext
    · rcases mem_cons.mp he with he | he
      · cases he
        rfl
      · rcases mem_cons.mp he with he | he
        · cases he
        · exact h.headers e he

theorem leaveBlock {j j' : Join} {heads blocks : List Target} {isLoop : Bool}
    (h : s.Conserves table ((if isLoop then [true] else []) ++ false :: kinds) outer es)
    (hh : heads.length = if isLoop then 1 else 0) (hb : s.blocks = heads ++ .exit j :: blocks)
    (hj : Brings ctx p { s with blocks := .exit j :: blocks } j t j' s₁) :
    State.Conserves { s₁ with env := j'.env, blocks } table kinds outer es := by
  have hk := h.kinds
  rw [hb, map_append, map_cons] at hk
  obtain ⟨hheads, hrest⟩ := append_inj hk (by rw [length_map, hh]; cases isLoop <;> rfl)
  have hzero : (heads.map Target.held).sum = 0 := by
    refine sum_eq_zero fun m hm => ?_
    obtain ⟨t, ht, rfl⟩ := mem_map.mp hm
    have hmem := mem_map_of_mem (f := Target.isHeader) ht
    rw [hheads] at hmem
    cases t with
    | exit => cases isLoop <;> simp [Target.isHeader] at hmem
    | header => rfl
  obtain ⟨g, hg, hbal, hc⟩ := h.balanced
  have h₀ : State.Balanced { s with blocks := .exit j :: blocks } table
      (s.env.held + j.env.held + ((blocks.map Target.held).sum + outer))
      (j.env :: (blocks.map Target.env ++ es)) := by
    refine ⟨g, hg, ?_, fun e hm => hc e ?_⟩
    · rw [hb, map_append, sum_append, hzero, zero_add, map_cons, sum_cons, add_assoc,
        ← add_assoc] at hbal
      exact hbal
    · rw [hb, map_append, append_assoc]
      exact mem_append_right _ hm
  exact ⟨(h₀.bring hj).mono fun e hm => .inl (mem_cons_of_mem _ hm),
    fun e hm => h.headers e (by simp [hb, hm]), (List.cons.inj hrest).2⟩

theorem choose (h : s.Conserves none kinds outer es) (c : Tree) :
    (s.choose c).Conserves none kinds ((branchOn s c).2.1.held + outer) ((branchOn s c).2.1 :: es) := by
  obtain ⟨g, hg, hb, hc⟩ := h.balanced
  obtain ⟨hblocks, hes⟩ := forall_mem_append.mp hc
  cases hs : s.env.live with
  | false =>
    rw [State.choose_of_dead c hs, branchOn_of_dead c hs]
    refine ⟨⟨g, hg, ?_, forall_mem_append.mpr ⟨hblocks, forall_mem_cons.mpr ⟨?_, hes⟩⟩⟩, h.headers, h.kinds⟩
    · rw [Env.held_of_dead (e := .unreached) rfl, zero_add, add_left_comm]
      exact hb
    · exact Env.collects_of_dead hs
  | true =>
    rw [Env.held_of_live hs, Multiset.singleton_add] at hb
    have hbal := hb.emitBranch c.node
    have hext := (emitBranch_builds g c.node s.env.chain.control).extends
    have ht : (s.env.split.setControl (g.emitBranch c.node s.env.chain.control).1.1).live = true := by simp [hs]
    have hf : (s.env.setControl (g.emitBranch c.node s.env.chain.control).1.2).live = true := by simp [hs]
    rw [State.choose, branchOn_of_live c hs hg]
    refine ⟨⟨_, rfl, ?_, forall_mem_append.mpr ⟨fun e he => (hblocks e he).of_extends hext,
      forall_mem_cons.mpr ⟨?_, fun e he => (hes e he).of_extends hext⟩⟩⟩, h.headers, h.kinds⟩
    · rw [Env.held_of_live ht, Env.held_of_live hf, add_left_comm _ {_}, Multiset.singleton_add,
        Multiset.singleton_add]
      exact hbal
    · exact fun _ => ⟨_, node?_new rfl, rfl⟩

theorem mono {es' : List Env} (h : s.Conserves table kinds outer es)
    (he : ∀ e ∈ es', e ∈ es ∨ e.reach ≠ .joined) : s.Conserves table kinds outer es' := by
  refine ⟨h.balanced.mono (forall_mem_append.mpr ⟨fun e hm => ?_, fun e hm => ?_⟩), h.headers, h.kinds⟩
  · exact .inl (mem_append_left _ hm)
  · exact (he e hm).imp_left (mem_append_right _)

theorem forget (h : s.Conserves table kinds outer (env :: es)) : s.Conserves table kinds outer es :=
  h.mono fun _ he => .inl (mem_cons_of_mem _ he)

theorem unreached (h : s.Conserves table kinds outer es) :
    s.Conserves table kinds (Env.unreached.held + outer) (.unreached :: es) := by
  rw [Env.held_of_dead Env.unreached_live, zero_add]
  refine h.mono fun e he => ?_
  rcases mem_cons.mp he with rfl | he
  · exact .inr Reach.noConfusion
  · exact .inl he

theorem leave {target : Env} (h : s.Conserves table kinds (target.held + outer) (target :: es))
    (hl : Body.leave ctx p s target = .ok (env, s')) : s'.Conserves table kinds (env.held + outer) (env :: es) := by
  have hb := (leave_frame hl).1
  have h₀ : s.Balanced table (s.env.held + target.held + ((s.blocks.map Target.held).sum + outer))
      (target :: (s.blocks.map Target.env ++ es)) := by
    rw [add_assoc, add_left_comm target.held]
    exact h.balanced.mono fun e he => .inl (by simpa [or_left_comm] using he)
  refine ⟨?_, by rw [hb]; exact h.headers, by rw [hb]; exact h.kinds⟩
  rw [Env.held_of_dead (leave_live hl), zero_add, hb, add_left_comm]
  exact (h₀.leave hl).mono fun e he => .inl (by simpa [or_left_comm] using he)

theorem bring {j j' : Join} (h : s.Conserves table kinds (j.env.held + outer) (j.env :: es))
    (hj : Brings ctx p s j t j' s') : s'.Conserves table kinds (j'.env.held + outer) (j'.env :: es) := by
  have hb := hj.frame.1
  have h₀ : s.Balanced table (s.env.held + j.env.held + ((s.blocks.map Target.held).sum + outer))
      (j.env :: (s.blocks.map Target.env ++ es)) := by
    rw [add_assoc, add_left_comm j.env.held]
    exact h.balanced.mono fun e he => .inl (by simpa [or_left_comm] using he)
  refine ⟨?_, by rw [hb]; exact h.headers, by rw [hb]; exact h.kinds⟩
  rw [Env.held_of_dead hj.live, zero_add, hb, add_left_comm]
  exact (h₀.bring hj).mono fun e he => .inl (by simpa [or_left_comm] using he)

theorem close {n : NodeId} (h : s.Conserves (some (n, [])) kinds outer es) : s.Conserves none kinds outer es := by
  obtain ⟨g, hg, hb, hc⟩ := h.balanced
  exact ⟨⟨g, hg, hb.close, hc⟩, h.headers, h.kinds⟩

theorem finishPath (h : s.Conserves table kinds outer es) (hs : s.env.live = false) :
    s.finishPath.Conserves table kinds outer es :=
  h.quiet hs ⟨rfl, rfl, rfl⟩

theorem emitOn (h : s.Conserves none kinds outer es) (hext : s.Under Extends (s.emitOn f).2)
    (hf : ∀ g c rest, g.Balanced none (c.control ::ₘ rest) →
      (f g c).2.2.Balanced none ((f g c).2.1.control ::ₘ rest)) :
    (s.emitOn f).2.Conserves none kinds outer es := by
  refine h.change hext (State.emitOn_blocks f) fun g g' rest hg hg' hb => ?_
  cases hs : s.env.live with
  | false =>
    rw [State.emitOn_of_dead f hs] at hg' ⊢
    cases hg.symm.trans hg'
    exact hb
  | true =>
    rw [Env.held_of_live hs, Multiset.singleton_add] at hb
    rw [Env.held_of_live ((State.emitOn_live f).trans hs), Multiset.singleton_add]
    rw [State.emitOn_of_live f hs hg] at hg' ⊢
    cases hg'
    exact hf g s.env.chain rest hb

theorem exit (h : s.Conserves none kinds outer es) (hext : s.Under Extends (s.emitOn f).2)
    (hf : ∀ g c rest, g.Balanced none (c.control ::ₘ rest) → (f g c).2.2.Balanced none rest) :
    (s.emitOn f).2.finishPath.Conserves none kinds outer es := by
  refine h.change hext (State.emitOn_blocks f) fun g g' rest hg hg' hb => ?_
  rw [Env.held_of_dead (e := (s.emitOn f).2.finishPath.env) rfl, zero_add]
  cases hs : s.env.live with
  | false =>
    rw [State.emitOn_of_dead f hs] at hg'
    cases hg.symm.trans hg'
    rw [Env.held_of_dead hs, zero_add] at hb
    exact hb
  | true =>
    rw [Env.held_of_live hs, Multiset.singleton_add] at hb
    rw [State.emitOn_of_live f hs hg] at hg'
    cases hg'
    exact hf g s.env.chain rest hb

end State.Conserves

end States

section Tables

variable {kinds : List Bool} {switch : NodeId} {entry : Env} {last i : Nat}

def tableDirection (last i : Nat) : Op × Nat := if i = last then (.ifDefault, 0) else (.ifValue, i)

theorem tableCase_conserves {todo : List (Op × Nat)} (he : entry.live = true) (hl : last ≠ 0)
    (hsw : s.HasSwitch switch) (hn : switch ≠ noNode)
    (h : s.finishPath.Conserves (some (switch, tableDirection last i :: todo)) kinds outer es) :
    (tableCase entry switch last i s).Conserves (some (switch, todo)) kinds outer es := by
  obtain ⟨g, hg, ho⟩ := hsw.resolve_left hn
  obtain ⟨x, hx, ho⟩ := Option.map_eq_some_iff.mp ho
  refine h.change ?_ tableCase_blocks fun g₀ g' rest hg₀ hg' hb => ?_
  · exact (builds_trans (builds_of_eq rfl) (tableCase_builds entry switch last i)).extends
  · cases hg.symm.trans hg₀
    rw [Env.held_of_dead (e := s.finishPath.env) rfl, zero_add] at hb
    have hlive : (tableCase entry switch last i s).env.live = true := tableCase_live.trans he
    rw [Env.held_of_live hlive, Multiset.singleton_add]
    unfold tableCase at hg' ⊢
    simp only [if_neg hl, hg, if_neg hn] at hg' ⊢
    cases hg'
    unfold tableDirection at hb
    split at hb
    · rename_i hi
      simp only [if_pos hi]
      exact hb.pushCase hx (by rw [ho]; rfl)
    · rename_i hi
      simp only [if_neg hi]
      exact hb.pushCase hx (by rw [ho]; rfl)

theorem branchAll_conserves {cases : List (Nat × Nat)} (he : entry.live = true) (hl : last ≠ 0)
    (hsw : s.HasSwitch switch) (hn : switch ≠ noNode)
    (h : s.finishPath.Conserves (some (switch, cases.map fun c => tableDirection last c.2)) kinds outer es)
    (hb : branchAll ctx p t entry switch last cases s = .ok s') :
    s'.finishPath.Conserves (some (switch, [])) kinds outer es := by
  induction cases generalizing s with
  | nil =>
    cases hb
    exact h
  | cons c rest ih =>
    obtain ⟨s₁, hb₁, hb⟩ := bind_eq_ok.mp hb
    have hb₁ := breaks_of_breakTo hb₁
    have h₁ := (tableCase_conserves he hl hsw hn h).breaks hb₁
    have hext := (builds_trans (tableCase_builds entry switch last c.2) hb₁.builds).extends
    exact ih (hsw.of_extends hext) (h₁.finishPath hb₁.live) hb

theorem tableDirections {n : Nat} (h : depths.length = n + 1) :
    depths.zipIdx.map (fun c => tableDirection n c.2) =
      (List.range n).map (fun i => (.ifValue, i)) ++ [(.ifDefault, 0)] := by
  have hsnd : depths.zipIdx.map Prod.snd = List.range (n + 1) := by
    rw [zipIdx_map_snd, h, range_eq_range']
  have hmap : depths.zipIdx.map (fun c => tableDirection n c.2) = (List.range (n + 1)).map (tableDirection n) := by
    rw [← hsnd, map_map]
    rfl
  rw [hmap, range_succ, map_append]
  congr 1
  · refine map_congr_left fun i hi => ?_
    rw [tableDirection, if_neg (Nat.ne_of_lt (mem_range.mp hi))]
  · simp [tableDirection]

theorem brTable_conserves {k : Tree} (hd : depths ≠ [])
    (hs : s.env.live = true) (h : s.Conserves none kinds outer es)
    (h₀ : (switch, s₀) = if depths.length ≤ 1 then (noNode, s)
      else s.emit fun g => g.emitSwitch depths.length k.node s.env.split.chain.control)
    (hb : branchAll ctx p t s.env.split switch (depths.length - 1) depths.zipIdx s₀ = .ok s') :
    s'.finishPath.Conserves none kinds outer es := by
  split at h₀
  · -- the only case goes on from where the table is
    rename_i hlen
    cases h₀
    match depths, hd, hlen with
    | [d], _, _ =>
      obtain ⟨s₁, hb₁, hb⟩ := bind_eq_ok.mp hb
      cases hb
      have hb₁ := breaks_of_breakTo hb₁
      refine State.Conserves.finishPath (State.Conserves.breaks ?_ hb₁) hb₁.live
      refine h.change (builds_of_eq rfl).extends rfl fun g g' rest hg hg' hbal => ?_
      cases hg.symm.trans hg'
      rw [show (tableCase s.env.split noNode ([d].length - 1) 0 s).env = s.env.split from rfl, Env.split_held]
      exact hbal
  · rename_i hlen
    obtain ⟨g, hg, -⟩ := h.balanced
    let node : Node := { op := .switch, inputs := [k.node, s.env.split.chain.control], aux := depths.length }
    obtain ⟨rfl, rfl⟩ : switch = g.nodes.size + 1 ∧ s₀ = { s with graph := some (g.add node).2 } := by
      rw [State.emit_of_live _ hs hg] at h₀
      exact Prod.mk.inj h₀
    have hcases : depths.zipIdx.map (fun c => tableDirection (depths.length - 1) c.2) = node.cases :=
      tableDirections (by omega)
    have hsw : State.HasSwitch { s with graph := some (g.add node).2 } (g.nodes.size + 1) :=
      .inr ⟨_, rfl, op?_add g node⟩
    refine (branchAll_conserves ((Env.split_live _).trans hs) (by omega) hsw (Nat.succ_ne_zero _) ?_ hb).close
    rw [hcases]
    refine h.change (fun g₁ hg₁ => ?_) rfl fun g₁ g' rest hg₁ hg' hbal => ?_
    · cases hg.symm.trans hg₁
      exact ⟨_, rfl, .push rfl⟩
    · cases hg.symm.trans hg₁
      cases hg'
      have hc : s.env.split.chain.control = s.env.chain.control := by rw [Env.split, if_pos hs]
      rw [Env.held_of_live hs, Multiset.singleton_add] at hbal
      have hadd : (g.add node).2.nodes = g.nodes.push node := rfl
      have hsplit := hbal.pushSplit hadd rfl (by simp [node, hc, Node.controls, Op.collects, Op.directs])
      rw [show ({ s with graph := some (g.add node).2 } : State).finishPath.env.held = 0 from rfl, zero_add]
      exact hsplit

end Tables

section Emitters

/-- An emitter hands control on along the chain. -/
def Passes (f : Graph.Emitter) : Prop :=
  ∀ g c rest, g.Balanced none (c.control ::ₘ rest) → (f g c).2.2.Balanced none ((f g c).2.1.control ::ₘ rest)

theorem State.Conserves.emitAt {kinds : List Bool} {offset : Int} (h : s.Conserves none kinds outer es)
    (hext : s.Under Extends (s.emitAt offset f).2) (hf : Passes f) :
    (s.emitAt offset f).2.Conserves none kinds outer es :=
  h.emitOn hext fun g c rest h => (hf g c rest h).setOffset _ _

theorem emitMemoryRef_balanced (h : g.Balanced table rest) (kind : MemoryRefKind) :
    (g.emitMemoryRef kind).2.Balanced table rest := by
  cases kind <;> exact h.pushIdle rfl rfl rfl rfl rfl

theorem Constant.balanced {t : ValType} {f : Graph → NodeId × Graph} (h : Constant t f)
    (hb : g.Balanced table rest) : (f g).2.Balanced table rest := by
  cases h with
  | memSize => exact (emitMemoryRef_balanced hb .size).pushIdle rfl rfl rfl rfl rfl
  | _ => exact hb.pushIdle rfl rfl rfl rfl rfl

theorem memoryRefs_balanced (h : g.Balanced table rest) :
    ((g.emitMemoryRef .base).2.emitMemoryRef .size).2.Balanced table rest :=
  emitMemoryRef_balanced (emitMemoryRef_balanced h .base) .size

theorem passes_callIndirect (signature : Nat) (sig : FuncType) (key : NodeId) (args : List NodeId) :
    Passes fun g c => g.emitCallIndirect c signature sig key args := by
  intro g c rest h
  have hlast : (key :: args ++ [c.effect, c.control]).getLast? = some c.control := by
    rw [getLast?_append]
    rfl
  exact h.pushOn rfl rfl rfl (congrArg Option.toList hlast) rfl

theorem passes_select (t : ValType) (cond a b : NodeId) : Passes fun g c => emitSelect g c t cond a b := by
  intro g c rest h
  have h₁ := h.emitBranch cond
  let holds := (g.emitBranch cond c.control).1.1
  let fails := (g.emitBranch cond c.control).1.2
  let node : Node := { op := .merge, inputs := [holds, fails] }
  have h₂ : ((g.emitBranch cond c.control).2.emitMerge [holds, fails]).2.Balanced none
      (((g.emitBranch cond c.control).2.nodes.size + 1) ::ₘ rest) := by
    have hc : (↑node.controls : Multiset NodeId) = holds ::ₘ {fails} := rfl
    have hp : (g.emitBranch cond c.control).2.Balanced none (↑node.controls + rest) := by
      rwa [hc, Multiset.cons_add, Multiset.singleton_add]
    exact hp.push rfl rfl rfl
  exact h₂.pushIdle rfl rfl rfl rfl rfl

theorem exits_return (values : List NodeId) (g : Graph) (c : Chain) (rest : Multiset NodeId)
    (h : g.Balanced none (c.control ::ₘ rest)) : (g.emitReturn c values).2.2.Balanced none rest :=
  h.pushExit rfl rfl rfl (by simp [Node.controls, Op.collects, Op.directs]) rfl

end Emitters

section Expressions

variable {kinds : List Bool}

theorem Begins.conserves (h : s.Conserves none kinds outer es)
    (hb : Begins ctx s x (.leaf t s')) : s'.Conserves none kinds outer es := by
  have hext : s.Under Extends s' := hb.plain.grows
  cases hb with
  | nothing | getLocal => exact h
  | retNothing => exact h.exit hext (exits_return [])
  | unreachable =>
    refine h.exit hext fun g c rest hg => ?_
    have hexit : (g.emitUnreachable c).2.2.Balanced none rest := hg.pushExit rfl rfl rfl rfl rfl
    exact hexit.setOffset (g.emitUnreachable c).1 x.offset
  | constant hf =>
    refine h.change hext (State.emit_blocks _) fun g g' rest hg hg' hbal => ?_
    rw [State.emit_env]
    cases hs : s.env.live with
    | false =>
      rw [State.emit_of_dead _ hs] at hg'
      cases hg.symm.trans hg'
      exact hbal
    | true =>
      rw [State.emit_of_live _ hs hg] at hg'
      cases hg'
      exact hf.balanced hbal
  | getGlobal => exact h.emitOn hext fun _ _ _ h => h.pushIdle rfl rfl rfl rfl rfl

theorem Reduces.conserves (h : Reduces ctx p s p' s') (hc : p.complete = true) (hr : p.rule.ordinary = true)
    (htable : p.rule ≠ .brTable []) (hs : s.Conserves none kinds outer es) : s'.Conserves none kinds outer es := by
  cases hlive : s.env.live with
  | false => exact hs.quiet hlive (h.quiet hr hlive)
  | true =>
    have hext := h.builds.extends
    cases h with
    | wait _ h =>
      rw [hc] at h
      cases h
    | idle => exact hs
    | br _ _ hb => exact hs.breaks (breaks_of_breakTo hb)
    | @brIf _ c _ _ _ _ _ _ _ hb =>
      have hb := breaks_of_breakTo hb
      have hch := hs.choose c
      have h₁ : State.Conserves { (branchOn s c).2.2 with env := (branchOn s c).1 } none kinds _ _ :=
        ⟨hch.balanced, hch.headers, hch.kinds⟩
      exact ((h₁.breaks hb).resume hb.live _).forget
    | brTable hr _ _ _ _ h₀ hb =>
      refine brTable_conserves (fun hd => ?_) hlive hs h₀ hb
      exact htable (by rw [hr, hd])
    | ret => exact hs.exit (hext.trans .trans (builds_of_eq rfl).extends) (exits_return _)
    | setLocal =>
      refine hs.change hext rfl fun g g' rest hg hg' hbal => ?_
      cases hg.symm.trans hg'
      dsimp only
      split <;> exact hbal
    | setGlobal => exact hs.emitOn hext fun _ _ _ h => h.pushIdle rfl rfl rfl rfl rfl
    | growMemory => exact hs.emitOn hext fun _ _ _ h => h.pushOn rfl rfl rfl rfl rfl
    | call =>
      refine hs.emitAt hext fun _ _ _ h => ?_
      exact h.pushOn rfl rfl rfl (by simp [Node.controls, Op.collects, Op.directs]) rfl
    | callIndirect => exact hs.emitAt hext (passes_callIndirect _ _ _ _)
    | unop | binop => exact hs.emitAt hext fun _ _ _ h => h.pushIdle rfl rfl rfl rfl rfl
    | load | store => exact hs.emitAt hext fun _ _ _ h => (memoryRefs_balanced h).pushIdle rfl rfl rfl rfl rfl
    | openChoice h => rcases h with h | h <;> rw [h] at hr <;> cases hr
    | closeBlock h | closeLoop h | closeIf h | otherwise h | closeElse h | selectType h | selectSame h
    | select h =>
      rw [h] at hr
      cases hr

theorem targets_of_conduct (h : x.conduct = .brTable depths) : x.operands = .targets depths := by
  unfold Instruction.conduct at h
  split at h
  · split at h <;> cases h
  · split at h <;> cases h
  · cases h
  · cases h
  · cases h
  · cases h
  · cases h
    assumption
  all_goals cases h

/-- Decoding conserves control, if every table has at least a default. -/
theorem Decodes.conserves {ts : List Tree} (h : Decodes ctx cs s ts s')
    (hd : ∀ x ∈ codeAll cs, x.operands ≠ .targets []) (hs : s.Conserves none kinds outer es) :
    s'.Conserves none kinds outer es := by
  induction h generalizing kinds outer es with
  | nil => exact hs
  | cons _ _ ih₁ ih₂ =>
    exact ih₂ (fun x hx => hd x (by simp_all [codeAll])) (ih₁ (fun x hx => hd x (by simp_all [codeAll])) hs)
  | leaf hb => exact hb.conserves hs
  | @block x _ _ isLoop _ _ _ _ _ _ s _ _ hx hcs ht hh hb hj ih =>
    cases hl : s.env.live with
    | false => exact hs.quiet hl ((Decodes.block hx hcs ht hh hb hj).quiet hl)
    | true =>
      have h₁ := ih (fun y hy => hd y (by simp_all [codeAll, code])) (hs.openBlock hl x.offset isLoop)
      exact h₁.leaveBlock hh hb hj
  | @operation x _ p _ _ _ _ _ hb hr _ _ _ hc hred ih =>
    have h₁ := ih (fun y hy => hd y (by simp_all [codeAll, code])) hs
    refine hred.conserves hc hr (fun (ht : p.rule = .brTable []) => hd x (by simp [codeAll, code]) ?_) h₁
    exact targets_of_conduct (hb.conduct.trans (by rw [ht]; rfl))
  | ifThen _ _ _ _ hl ih₁ ih₂ =>
    have h₁ := ih₁ (fun y hy => hd y (by simp_all [codeAll, code])) hs
    have h₂ := ih₂ (fun y hy => hd y (by simp_all [codeAll, code])) (h₁.choose _)
    exact ((h₂.leave hl).resume (leave_live hl) _).forget
  | @ifElse _ _ _ _ _ tc _ _ _ s₁ _ _ _ _ j _ _ _ _ _ hj _ hj' ih₁ ih₂ ih₃ =>
    have h₁ := ih₁ (fun y hy => hd y (by simp_all [codeAll, code])) hs
    have h₂ := ih₂ (fun y hy => hd y (by simp_all [codeAll, code])) (h₁.choose _)
    have h₃ := h₂.unreached.bring hj
    rw [add_left_comm] at h₃
    have h₃ := (h₃.resume hj.live (⟨(branchOn s₁ tc).2.1, j⟩ :: s₁.choices)).mono
      fun e (he : e ∈ j.env :: es) =>
        .inl (mem_cons.mpr ((mem_cons.mp he).imp_right (mem_cons_of_mem _)))
    have h₄ := ih₃ (fun y hy => hd y (by simp_all [codeAll, code])) h₃
    exact ((h₄.bring hj').resume hj'.live _).forget
  | select _ _ _ _ ih =>
    have h₁ := ih (fun y hy => hd y (by simp_all [codeAll, code])) hs
    exact h₁.emitOn (.emitOn .refl fun g c => (emitSelect_builds _ _ _ _ _ _).extends) (passes_select _ _ _ _)

end Expressions

section Bodies

variable {b : FunctionBody} {o : Options} {i : Input}

theorem readBranchTable_ne {j : Input} (h : readBranchTable i = .ok (depths, j)) : depths ≠ [] := by
  unfold readBranchTable at h
  obtain ⟨_, _, -, h⟩ := Reader.bind_eq_ok.mp h
  obtain ⟨n, _, -, h⟩ := Reader.bind_eq_ok.mp h
  obtain ⟨_, _, -, h⟩ := Reader.bind_eq_ok.mp h
  obtain ⟨_, _, -, h⟩ := Reader.bind_eq_ok.mp h
  have hl := Reader.length_of_times h
  rintro rfl
  cases hl

theorem readOperands_targets {form : Form} {j : Input} {ops : Operands}
    (h : readOperands form i = .ok (ops, j)) : ops ≠ .targets [] := by
  rintro rfl
  cases form with
  | brTable =>
    obtain ⟨depths, k, hd, h⟩ := Reader.bind_eq_ok.mp h
    cases (Reader.pure_eq_ok.mp h).1
    exact readBranchTable_ne hd rfl
  | access =>
    obtain ⟨_, _, -, h⟩ := Reader.bind_eq_ok.mp h
    obtain ⟨_, _, -, h⟩ := Reader.bind_eq_ok.mp h
    cases h
  | nop | ifThen | ifElse | select | ret | unreachable | growMemory | memorySize | numeric | undefined => cases h
  | _ =>
    obtain ⟨_, _, -, h⟩ := Reader.bind_eq_ok.mp h
    cases h

theorem instructions_targets {xs : List Instruction} (h : instructions i = some xs) :
    ∀ x ∈ xs, x.operands ≠ .targets [] := by
  induction xs generalizing i with
  | nil => exact forall_mem_nil _
  | cons x xs ih =>
    obtain ⟨c, rest, ops, j, -, ho, rfl, hj⟩ := instructions_eq_cons h
    exact forall_mem_cons.mpr ⟨readOperands_targets ho, ih hj⟩

theorem zeroOf_balanced (h : g.Balanced table rest) (zeros : List (ValType × NodeId)) (t : ValType) :
    (zeroOf zeros t g).2.2.Balanced table rest := by
  unfold zeroOf
  split
  · exact h
  · cases t <;> first | exact h.pushIdle rfl rfl rfl rfl rfl | exact h

theorem entryEnv_balanced (b : FunctionBody) :
    (entryEnv b { signature := b.signature }).2.Balanced none {1} := by
  let start : Node := { op := .start, aux := b.signature.params.length }
  have h₀ : ({ signature := b.signature } : Graph).Balanced none (↑start.controls + 0) :=
    ⟨fun n x hx => by simp [node?] at hx, fun n _ => rfl, fun n hn => absurd hn (Multiset.notMem_zero n),
      fun n x hx => by simp [node?] at hx⟩
  unfold entryEnv
  dsimp only
  refine List.foldlRecOn (motive := fun r : List NodeId × _ × Graph => r.2.2.Balanced none {1}) _ _ ?_
    fun r hr t _ => zeroOf_balanced hr _ _
  exact List.foldlRecOn (motive := fun r : List NodeId × Graph => r.2.Balanced none {1}) _ _
    (h₀.push rfl rfl rfl) fun r hr t _ => hr.pushIdle rfl rfl rfl rfl rfl

theorem entry_conserves (b : FunctionBody) : (State.entry b).Conserves none [] 0 [] := by
  refine ⟨⟨_, rfl, ?_, forall_mem_nil _⟩, fun e he => absurd he not_mem_nil, rfl⟩
  rw [Env.held_of_live rfl, show ((State.entry b).blocks.map Target.held).sum = 0 from rfl, add_zero, add_zero]
  exact entryEnv_balanced b

/-- Where control got to the end and no target is left, it goes on from everywhere. -/
theorem State.Conserves.controlled (h : s.Conserves none [] 0 []) (hs : s.env.live = false) :
    ∃ g, s.graph = some g ∧ g.Controlled := by
  obtain ⟨g, hg, hb, -⟩ := h.balanced
  rw [Env.held_of_dead hs, map_eq_nil_iff.mp h.kinds] at hb
  exact ⟨g, hg, Balanced.controlled hb⟩

/-- Control goes on from every node of the graph of a body exactly once. -/
theorem build_controlled {r : Result} (h : build b o = .ok r) : ∃ g, r.graph = some g ∧ g.Controlled := by
  obtain ⟨xs, es, ts, s, d, hi, hf, -, hts, hd, hr⟩ := build_ok h
  obtain ⟨hcode, hall⟩ := codeAll_of_forest hf
  have hs := (decodes_of_evalAll hall hts).conserves (hcode ▸ instructions_targets hi) (entry_conserves b)
  have hext := hd.plain.grows
  rw [hr]
  cases hd with
  | ended hdead => exact hs.controlled hdead
  | nothing => exact (hs.exit hext (exits_return _)).controlled rfl
  | value => exact (hs.exit hext (exits_return _)).controlled rfl

/-- A loop in a block, with a table that goes around, out of the loop or out of the block. -/
def dispatching : FunctionBody where
  code := [0x01, 0x01, 0x02, 0x01, 0x08, 0x02, 0, 0, 0, 0, 1, 0, 0, 0, 2, 0, 0, 0, 0x00, 0x09, 0x01]

theorem build_controlled_dispatching :
    ∃ r g, build dispatching {} = .ok r ∧ r.graph = some g ∧ g.Controlled := by
  have hok : (build dispatching {}).toOption.isSome = true := by decide +kernel
  obtain ⟨r, hr⟩ := Option.isSome_iff_exists.mp hok
  have hr := toOption_eq_some.mp hr
  obtain ⟨g, hg, hc⟩ := build_controlled hr
  exact ⟨r, g, hr, hg, hc⟩

end Bodies

end ProtoWasm.Body
