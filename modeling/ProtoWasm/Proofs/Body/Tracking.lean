import ProtoWasm.Proofs.Body.Flow
import ProtoWasm.Proofs.Body.Structure

/-! # Ways and joins

The ways that are counted by recursion over a body are the ways that the decoder finds. The graph of a body
has its structure exactly if no alternative without an `else` arm goes on at a join that is none.
-/
namespace ProtoWasm

open List

namespace Graph

variable {g g' : Graph}

/-- A way was added to a direction of a branch, as if it were a join. -/
def Crossed (g : Graph) : Prop := ∃ n x, g.node? n = some x ∧ x.op = .ifFalse ∧ 2 ≤ x.inputs.length

theorem Crossed.of_extends (h : g.Crossed) (hg : g.Extends g') : g'.Crossed := by
  obtain ⟨n, x, hx, ho, hl⟩ := h
  obtain ⟨y, hy, hxy⟩ := hg n x hx
  exact ⟨n, y, hy, hxy.op.trans ho, Nat.le_trans hl hxy.inputs⟩

theorem Crossed.not_structured (h : g.Crossed) : ¬g.Structured := by
  intro hs
  obtain ⟨n, x, hx, ho, hl⟩ := h
  obtain ⟨m, hm, -⟩ := (hs n x hx).branch (.inr ho)
  simp [hm] at hl

end Graph

namespace Body

open Body.Expr ProtoWasm.Graph

def Target.env : Target → Env
  | .exit j => j.env
  | .header e => e

variable {ctx : Context} {p p' : Pending} {s s' s₀ s₁ s₂ : State} {e target env : Env} {t : Tree}
  {ts : List Target} {depth : Nat} {switch : NodeId} {g : Graph} {x : Instruction} {cs : List Expr} {j j' : Join}

section Counting

@[simp] theorem Ways.add_none (w : Ways) : w.add .none = w := by cases w <;> rfl

@[simp] theorem Ways.add_split (w v : Ways) : w.add v.split = w.add v := by cases w <;> cases v <;> rfl

@[simp] theorem Ways.split_split (w : Ways) : w.split.split = w.split := by cases w <;> rfl

theorem Ways.none_add_ne (w : Ways) : Ways.none.add w ≠ .many := by cases w <;> exact Ways.noConfusion

def Env.ways (e : Env) : Ways :=
  match e.reach with
  | .ended | .unreached => .none
  | .once => .one
  | .joined => .many

theorem Env.ways_eq_none : e.ways = .none ↔ e.live = false := by
  unfold Env.ways Env.live
  cases e.reach <;> simp

theorem Env.ways_eq_many : e.ways = .many ↔ e.reach = .joined := by
  unfold Env.ways
  cases e.reach <;> simp

@[simp] theorem Env.unreached_ways : Env.unreached.ways = .none := rfl

@[simp] theorem Env.split_ways (e : Env) : e.split.ways = e.ways.split := by
  unfold Env.split Env.live Env.ways
  cases h : e.reach <;> simp [Env.unreached, Ways.split]

@[simp] theorem Env.setControl_ways (e : Env) (n : NodeId) : (e.setControl n).ways = e.ways := rfl

theorem Env.vacate_ways (e : Env) : e.vacate.ways = .none := Env.ways_eq_none.mpr e.vacate_live

theorem goTo_ways {types : List ValType} {source : Env} {og og' : Option Graph}
    (h : goTo types source target og = some (env, og')) : env.ways = target.ways.add source.ways := by
  cases hl : source.live with
  | false =>
    simp only [goTo, hl, Bool.not_false, if_true] at h
    cases h
    rw [Env.ways_eq_none.mpr hl, Ways.add_none]
  | true =>
    have hs : source.ways ≠ .none := fun h => by simp [Env.ways_eq_none.mp h] at hl
    have hone : Ways.none.add source.ways = .one := by
      cases hw : source.ways <;> first | rfl | exact absurd hw hs
    have hmany {w : Ways} (hw : w ≠ .none) : w.add source.ways = .many := by
      cases w <;> cases hv : source.ways <;> first | rfl | exact absurd hv hs | exact absurd rfl hw
    by_cases hr : target.reach = .unreached
    · simp only [goTo, hl, hr, Bool.not_true, Bool.false_eq_true, if_false] at h
      cases h
      have ht : target.ways = .none := by simp [Env.ways, hr]
      rw [ht, hone]
      rfl
    · have ht : target.ways ≠ .none := by
        intro hn
        have hr' : target.reach = .ended := by
          unfold Env.ways at hn
          cases h : target.reach <;> simp_all
        simp [goTo, hl, hr'] at h
      rw [hmany ht, Env.ways_eq_many]
      exact goTo_joined h hl hr

theorem leave_ways (h : leave ctx p s target = .ok (env, s')) :
    env.ways = target.ways.add s.env.ways := by
  obtain ⟨og, hgo, -⟩ := leave_eq_ok.mp h
  exact goTo_ways hgo

theorem Brings.ways (h : Brings ctx p s j t j' s') : j'.env.ways = j.env.ways.add s.env.ways := by
  cases h with
  | dead hs => rw [Env.ways_eq_none.mpr hs, Ways.add_none]
  | silent _ hl | first _ hl | clash _ hl | same _ hl | merge _ hl => exact leave_ways hl

@[simp] theorem branchOn_ways (c : Tree) : (branchOn s c).1.ways = s.env.ways.split := by
  unfold branchOn
  split <;> simp

@[simp] theorem branchOn_fails_ways (c : Tree) : (branchOn s c).2.1.ways = s.env.ways := by
  unfold branchOn
  split <;> simp

theorem tableCase_ways (entry : Env) (switch : NodeId) (last i : Nat) (h : entry.ways.split = entry.ways) :
    (tableCase entry switch last i s).env.ways = entry.ways := by
  unfold tableCase
  repeat' split
  all_goals simp [h]

@[simp] theorem State.emitOn_ways (f : Graph.Emitter) : (s.emitOn f).2.env.ways = s.env.ways := by
  unfold State.emitOn
  split <;> rfl

end Counting

section Following

variable {f f' : Flow} {c : Tree}

/-- The ways to the targets are as counted. The graph has its structure, unless a way was added to a join that
is none. -/
structure Follows (f : Flow) (s : State) : Prop where
  targets : f.targets = s.blocks.map (·.env.ways)
  sane : f.stale = false → s.Sane (s.blocks.map Target.env)
  crossed : f.stale = true → ∃ g, s.graph = some g ∧ g.Crossed

structure Tracks (f : Flow) (s : State) : Prop extends Follows f s where
  here : f.here = s.env.ways

theorem Follows.change (h : Follows f s) (hstale : f'.stale = f.stale)
    (ht : f'.targets = s'.blocks.map (·.env.ways)) (hext : s.Under Extends s')
    (hsane : s.Sane (s.blocks.map Target.env) → s'.Sane (s'.blocks.map Target.env)) : Follows f' s' := by
  refine ⟨ht, fun hf => hsane (h.sane (hstale ▸ hf)), fun hf => ?_⟩
  obtain ⟨g, hg, hc⟩ := h.crossed (hstale ▸ hf)
  obtain ⟨g', hg', hext⟩ := hext g hg
  exact ⟨g', hg', hc.of_extends hext⟩

theorem Follows.keeps (h : Follows f s) (hk : s.Under Keeps s') (hb : s'.blocks = s.blocks) :
    Follows f s' := by
  refine h.change rfl (by rw [h.targets, hb]) (hk.mono fun _ _ h => h.grows) fun hs => ?_
  rw [hb]
  exact hs.keeps hk

theorem Follows.plain (h : Follows f s) (hp : s.Under Plain s') (hb : s'.blocks = s.blocks) : Follows f s' :=
  h.keeps (hp.mono fun _ _ => keeps_of_plain) hb

theorem Follows.graph (h : Follows f s) : ∃ g, s.graph = some g := by
  cases hs : f.stale with
  | false =>
    obtain ⟨g, hg, -⟩ := h.sane hs
    exact ⟨g, hg⟩
  | true =>
    obtain ⟨g, hg, -⟩ := h.crossed hs
    exact ⟨g, hg⟩

theorem Follows.at (h : Follows f s) (env : Env) (choices : List Choice) :
    Tracks { f with here := env.ways } { s with env, choices } :=
  ⟨⟨h.targets, h.sane, h.crossed⟩, rfl⟩

theorem map_ways_set {old new : Target} {w : Ways}
    (h : ts[depth]? = some old) (hw : new.env.ways = old.env.ways.add w) :
    (ts.map (·.env.ways)).modify depth (·.add w) = (ts.set depth new).map (·.env.ways) := by
  obtain ⟨hi, rfl⟩ := List.getElem?_eq_some_iff.mp h
  rw [map_set, hw]
  apply ext_getElem?
  intro i
  by_cases hd : depth = i
  · subst hd
    simp [hi]
  · simp [hd]

theorem State.Sane.cons {es : List Env} (h : s.Sane es) (he : env.ways = .none) :
    s.Sane (env :: es) := by
  refine h.mono fun e hm => ?_
  rcases mem_cons.mp hm with rfl | hm
  · exact .inr fun hr => by simp [Env.ways_eq_many.mpr hr] at he
  · exact .inl hm

theorem State.Sane.set (new : Target)
    (h : s.Sane (new.env :: ts.map Target.env)) : s.Sane ((ts.set depth new).map Target.env) := by
  refine h.mono fun e he => .inl ?_
  obtain ⟨t, ht, rfl⟩ := mem_map.mp he
  rcases mem_or_eq_of_mem_set ht with ht | rfl
  · exact mem_cons_of_mem _ (mem_map_of_mem ht)
  · exact mem_cons_self

theorem Tracks.breaks (h : Tracks f s) (hb : Breaks ctx p s depth t s') :
    Follows (f.go depth) s' := by
  have mem {target : Target} (ht : s.blocks[depth]? = some target) (hs : s.Sane (s.blocks.map Target.env)) :
      s.Sane (target.env :: s.blocks.map Target.env) :=
    hs.mono fun e he => .inl <| by
      rcases mem_cons.mp he with rfl | he
      · exact mem_map_of_mem (mem_of_getElem? ht)
      · exact he
  have hext := hb.builds.extends
  cases hb with
  | @header target env s₁ ht hl =>
    refine h.toFollows.change rfl ?_ hext fun hs => ?_
    · rw [Flow.go, h.targets, h.here]
      exact map_ways_set ht (leave_ways hl)
    · have hs := (mem ht hs).leave hl
      exact State.Sane.set (.header env) hs
  | @exit j j' s₁ ht hj =>
    refine h.toFollows.change rfl ?_ hext fun hs => ?_
    · rw [Flow.go, h.targets, h.here]
      exact map_ways_set ht hj.ways
    · have hs := (mem ht hs).bring hj
      exact State.Sane.set (.exit j') hs

theorem Follows.congr (h : Follows f s) (ht : f'.targets = f.targets) (hs : f'.stale = f.stale) :
    Follows f' s :=
  ⟨ht.trans h.targets, fun h' => h.sane (hs ▸ h'), fun h' => h.crossed (hs ▸ h')⟩

theorem Follows.breaks_of_split (h : Follows f s) (hs : s.env.ways = f.here.split)
    (hb : Breaks ctx p s depth t s') : Follows (f.go depth) s' := by
  have ht : Tracks { f with here := f.here.split } s := ⟨h.congr rfl rfl, hs.symm⟩
  refine (ht.breaks hb).congr ?_ rfl
  simp only [Flow.go, Ways.add_split]

theorem branchAll_follows {entry : Env} {last : Nat} {cases : List (Nat × Nat)}
    (hf : Follows f s) (hsw : s.HasSwitch switch) (he : entry.ways = f.here.split)
    (h : branchAll ctx p t entry switch last cases s = .ok s') :
    Follows ((cases.map Prod.fst).foldl Flow.go f) s' := by
  induction cases generalizing f s with
  | nil =>
    cases h
    exact hf
  | cons c rest ih =>
    obtain ⟨s₁, hb, h⟩ := bind_eq_ok.mp h
    have hb := breaks_of_breakTo hb
    have hf₁ := hf.keeps (tableCase_keeps entry last c.2 hsw) tableCase_blocks
    have hw := tableCase_ways (s := s) entry switch last c.2 (by rw [he, Ways.split_split])
    have hext := (builds_trans (tableCase_builds entry switch last c.2) hb.builds).extends
    exact ih (hf₁.breaks_of_split (hw.trans he) hb) (hsw.of_extends hext) he h

theorem Tracks.openBlock (h : Tracks f s) (offset : Int) (isLoop : Bool) :
    Tracks (f.enterBlock isLoop) (openBlock ctx s offset isLoop) := by
  have hext : s.Under Extends (Body.openBlock ctx s offset isLoop) := (openBlock_builds offset isLoop).extends
  by_cases hs : s.env.live = true
  · cases isLoop with
    | false =>
      refine ⟨h.toFollows.change rfl ?_ hext fun hs => ?_, ?_⟩
      · simp [Flow.enterBlock, Body.openBlock, h.targets, Target.env, Env.vacate_ways]
      · exact hs.cons (Env.vacate_ways s.env)
      · simp [Flow.enterBlock, Body.openBlock, h.here]
    | true =>
      obtain ⟨g, hg⟩ := h.graph
      obtain ⟨assigned, -, ho⟩ : ∃ assigned, _ ∧ Body.openBlock ctx s offset true = _ :=
        openBlock_of_live offset hs hg
      have hw : f.here ≠ .none := by
        rw [h.here]
        exact fun hn => by simp [Env.ways_eq_none.mp hn] at hs
      rw [ho] at hext ⊢
      refine ⟨h.toFollows.change rfl ?_ hext ?_, ?_⟩
      · simp only [Flow.enterBlock, if_true, if_neg hw, h.targets]
        rfl
      · rintro ⟨g₁, hg₁, hstr, ha⟩
        cases hg.symm.trans hg₁
        obtain ⟨hstr', hroot⟩ := openLoop_structured ctx.types hstr assigned s.env.split
        refine ⟨_, rfl, hstr', ?_⟩
        refine forall_mem_cons.mpr ⟨hroot, forall_mem_cons.mpr ⟨Reach.noConfusion, fun e he => ?_⟩⟩
        exact (ha e he).of_extends (openLoop_builds _ _ _).extends
      · cases hf : f.here with
        | none => exact absurd hf hw
        | one | many => simp [Flow.enterBlock, hf]; rfl
  · have hs : s.env.live = false := by simpa using hs
    have hw : f.here = .none := h.here.trans (Env.ways_eq_none.mpr hs)
    rw [openBlock_of_dead offset isLoop hs] at hext ⊢
    refine ⟨h.toFollows.change rfl ?_ hext fun hsane => ?_, ?_⟩
    · cases isLoop with
      | false => simp [Flow.enterBlock, h.targets, Target.env, Env.ways_eq_none.mpr hs]
      | true => simp [Flow.enterBlock, h.targets, Target.env, Env.ways_eq_none.mpr hs, hw]
    · have hsane := hsane.cons (Env.ways_eq_none.mpr hs)
      cases isLoop with
      | false => exact hsane
      | true => exact hsane.cons rfl
    · rw [Flow.enterBlock, hw]
      rfl

theorem Tracks.leaveBlock {isLoop : Bool} {heads rest : List Target} (h : Tracks f s)
    (hh : heads.length = if isLoop then 1 else 0) (hb : s.blocks = heads ++ .exit j :: rest)
    (hj : Brings ctx p { s with blocks := .exit j :: rest } j t j' s₁) :
    Tracks (f.leaveBlock isLoop) { s₁ with env := j'.env, blocks := rest } := by
  have ht : (if isLoop then f.targets.drop 1 else f.targets) = j.env.ways :: rest.map (·.env.ways) := by
    have hd : (if isLoop then f.targets.drop 1 else f.targets) = f.targets.drop heads.length := by
      rw [hh]
      cases isLoop <;> rfl
    rw [hd, h.targets, ← map_drop, hb, drop_left]
    rfl
  have hext : s.Under Extends { s₁ with env := j'.env, blocks := rest } := hj.builds.extends
  refine ⟨h.toFollows.change ?_ ?_ hext fun hs => ?_, ?_⟩
  · simp only [Flow.leaveBlock, ht]
  · simp only [Flow.leaveBlock, ht]
  · have hs₀ : State.Sane { s with blocks := .exit j :: rest } (j.env :: rest.map Target.env) := by
      refine (hs.of_eq rfl).mono fun e he => .inl ?_
      have he : e ∈ (Target.exit j :: rest).map Target.env := he
      rw [hb, map_append]
      exact mem_append_right _ he
    exact (hs₀.bring hj).mono fun e he => .inl (mem_cons_of_mem _ he)
  · simp only [Flow.leaveBlock, ht, h.here]
    exact hj.ways.symm

theorem Tracks.choose (h : Tracks f s) (c : Tree) : Tracks { f with here := f.here.split } (s.choose c) := by
  have hf := (h.toFollows.keeps (branchOn_keeps c) (branchOn_blocks c)).at (branchOn s c).1
    (⟨(branchOn s c).2.1, { env := .unreached }⟩ :: s.choices)
  rw [branchOn_ways, ← h.here] at hf
  exact hf

theorem branchOn_fails_control (c : Tree) (hs : s.env.live = true) (hg : s.graph = some g) :
    ∃ g' x, (branchOn s c).2.2.graph = some g' ∧ g'.node? (branchOn s c).2.1.chain.control = some x ∧
      x.op = .ifFalse ∧ 1 ≤ x.inputs.length := by
  have hb : s.building = some g := by rw [State.building, if_pos hs, hg]
  unfold branchOn
  rw [hb]
  exact ⟨_, _, rfl, node?_new rfl, rfl, Nat.le_refl 1⟩

theorem leave_crossed {x : Node} (hs : s.env.live = true)
    (ht : target.reach = .joined) (hg : s.graph = some g) (hx : g.node? target.chain.control = some x)
    (ho : x.op = .ifFalse) (hi : 1 ≤ x.inputs.length) (h : leave ctx p s target = .ok (env, s')) :
    ∃ g', s'.graph = some g' ∧ g'.Crossed := by
  obtain ⟨og, hgo, rfl⟩ := leave_eq_ok.mp h
  simp only [goTo, hs, ht, hg, Bool.not_true, Bool.false_eq_true, if_false] at hgo
  cases hgo
  refine ⟨_, rfl, Crossed.of_extends ?_ (joinMore_merges _ _ _).builds.extends⟩
  have hy : (g.appendToMerge target.chain.control s.env.chain.control).node? target.chain.control =
      some { x with inputs := x.inputs ++ [s.env.chain.control] } := by
    rw [appendToMerge, node?_modifyNode, if_pos rfl, hx]
    rfl
  exact ⟨_, _, hy, ho, by simpa using hi⟩

/-- The end of an alternative without an `else` arm. -/
theorem Tracks.rejoin {cond arm : Flow} {s₃ : State} (hc : Tracks cond s₁)
    (ha : Tracks arm s₂) (hext : (s₁.choose c).Under Extends s₂)
    (hl : leave ctx p s₂ (branchOn s₁ c).2.1 = .ok (env, s₃)) (choices : List Choice) :
    Tracks (cond.rejoin arm) { s₃ with env, choices } := by
  have hfails : (branchOn s₁ c).2.1.ways = cond.here := (branchOn_fails_ways c).trans hc.here.symm
  have hblocks : s₃.blocks = s₂.blocks := (leave_frame hl).1
  refine ⟨⟨?_, fun hstale => ?_, fun hstale => ?_⟩, ?_⟩
  · rw [hblocks]
    exact ha.targets
  · simp only [Flow.rejoin, Bool.or_eq_false_iff, Bool.and_eq_false_iff, decide_eq_false_iff_not,
      Decidable.not_not] at hstale
    have hs := ha.sane hstale.1
    rw [hblocks]
    by_cases hlive : s₂.env.live = true
    · have hone : cond.here ≠ .many := hstale.2.resolve_right fun hn => by
        rw [ha.here, Env.ways_eq_none, hlive] at hn
        cases hn
      have hroots : s₂.Sane ((branchOn s₁ c).2.1 :: s₂.blocks.map Target.env) := hs.mono fun e he => by
        rcases mem_cons.mp he with rfl | he
        · exact .inr fun hr => hone (hfails.symm.trans (Env.ways_eq_many.mpr hr))
        · exact .inl he
      exact (hroots.leave hl).mono fun e he => .inl (mem_cons_of_mem _ he)
    · rw [leave_of_dead _ (by simpa using hlive)] at hl
      cases hl
      exact hs
  · simp only [Flow.rejoin, Bool.or_eq_true, Bool.and_eq_true, decide_eq_true_eq] at hstale
    rcases hstale with hstale | ⟨hmany, hlive⟩
    · obtain ⟨g, hg, hcross⟩ := ha.crossed hstale
      obtain ⟨g', hg', hext'⟩ := (leave_builds hl).extends g hg
      exact ⟨g', hg', hcross.of_extends hext'⟩
    · -- control is still the direction of the branch when the arm has been decoded
      have hl₂ : s₂.env.live = true := by
        by_contra hd
        exact hlive (ha.here.trans (Env.ways_eq_none.mpr (by simpa using hd)))
      have hl₁ : s₁.env.live = true := by
        by_contra hd
        rw [hc.here, Env.ways_eq_none.mpr (by simpa using hd)] at hmany
        cases hmany
      obtain ⟨g₁, hg₁⟩ := hc.graph
      obtain ⟨g, x, hg, hx, ho, hi⟩ := branchOn_fails_control c hl₁ hg₁
      obtain ⟨g₂, hg₂, hgrow⟩ := hext g hg
      obtain ⟨y, hy, hxy⟩ := hgrow _ x hx
      have hr : (branchOn s₁ c).2.1.reach = .joined := Env.ways_eq_many.mp (hfails.trans hmany)
      have hcross := leave_crossed hl₂ hr hg₂ hy (hxy.op.trans ho) (Nat.le_trans hi hxy.inputs) hl
      exact hcross
  · rw [Flow.rejoin, ← hfails, ha.here]
    exact (leave_ways hl).symm

theorem Follows.bring (h : Follows f s) (hj : j.env.ways ≠ .many)
    (hb : Brings ctx p s j t j' s') : Follows f s' := by
  refine h.change rfl (by rw [hb.frame.1, h.targets]) hb.builds.extends fun hs => ?_
  have hroots : s.Sane (j.env :: s.blocks.map Target.env) := hs.mono fun e he => by
    rcases mem_cons.mp he with rfl | he
    · exact .inr fun hr => hj (Env.ways_eq_many.mpr hr)
    · exact .inl he
  rw [hb.frame.1]
  exact (hroots.bring hb).mono fun e he => .inl (mem_cons_of_mem _ he)

theorem Reduces.plain_frame (h : Reduces ctx p s p' s') (hr : p.rule.plain = true) :
    s'.env.ways = s.env.ways ∧ s'.blocks = s.blocks := by
  cases h with
  | wait | idle => exact ⟨rfl, rfl⟩
  | setLocal =>
    refine ⟨?_, rfl⟩
    dsimp only
    split <;> rfl
  | setGlobal | growMemory | call | callIndirect | unop | binop | load | store =>
    exact ⟨State.emitOn_ways _, State.emitOn_blocks _⟩
  | openChoice h => rcases h with h | h <;> rw [h] at hr <;> cases hr
  | closeBlock h | closeLoop h | closeIf h | otherwise h | closeElse h | selectType h | selectSame h
  | select h | br h | brIf h | brTable h | ret h =>
    rw [h] at hr
    cases hr

theorem Begins.tracks (h : Tracks f s) (hb : Begins ctx s x (.leaf t s')) :
    Tracks (flow (.node x []) f) s' := by
  have hp := hb.plain
  cases hb with
  | nothing hx | getLocal _ hx =>
    simp only [flow, hx, flowAll]
    exact h
  | retNothing _ hx | unreachable hx =>
    simp only [flow, hx, flowAll]
    exact ⟨(h.toFollows.plain hp (State.emitOn_blocks _)).congr rfl rfl, rfl⟩
  | constant _ hx =>
    simp only [flow, hx, flowAll]
    exact ⟨h.toFollows.plain hp (State.emit_blocks _), by rw [State.emit_env, h.here]⟩
  | getGlobal _ hx =>
    simp only [flow, hx, flowAll]
    exact ⟨h.toFollows.plain hp (State.emitOn_blocks _), by rw [State.emitOn_ways, h.here]⟩

theorem Tracks.br (h : Tracks f s) (hb : Breaks ctx p s depth t s') : Tracks (f.go depth).stop s' :=
  ⟨(h.breaks hb).congr rfl rfl, (Env.ways_eq_none.mpr hb.live).symm⟩

theorem Tracks.brIf (h : Tracks f s)
    (hb : Breaks ctx p { (branchOn s c).2.2 with env := (branchOn s c).1 } depth t s') :
    Tracks (f.go depth) { s' with env := (branchOn s c).2.1 } := by
  have hf : Follows f { (branchOn s c).2.2 with env := (branchOn s c).1 } :=
    h.toFollows.keeps (branchOn_keeps c) (branchOn_blocks c)
  have hw : (branchOn s c).1.ways = f.here.split := by rw [branchOn_ways, h.here]
  have hg := (hf.breaks_of_split hw hb).at (branchOn s c).2.1 s'.choices
  rw [branchOn_fails_ways, ← h.here] at hg
  exact hg

theorem Tracks.brTable {depths : List Nat} {k : Tree} (h : Tracks f s)
    (hs : (switch, s₀) = if depths.length ≤ 1 then (noNode, s)
      else s.emit fun g => g.emitSwitch depths.length k.node s.env.split.chain.control)
    (hb : branchAll ctx p t s.env.split switch (depths.length - 1) depths.zipIdx s₀ = .ok s') :
    Tracks (depths.foldl Flow.go f).stop s'.finishPath := by
  have hf : Follows f s₀ := h.toFollows.plain (switch_plain hs) (switch_frame hs).2.1
  have hw : s.env.split.ways = f.here.split := by rw [Env.split_ways, h.here]
  have ht := branchAll_follows hf (hasSwitch_of_table hs) hw hb
  rw [zipIdx_map_fst] at ht
  exact ht.at .ended s'.choices

theorem Tracks.ret (h : Tracks f s) (hp : s.Under Plain s') (hb : s'.blocks = s.blocks)
    (he : s'.env.live = false) : Tracks f.stop s' :=
  ⟨(h.toFollows.plain hp hb).congr rfl rfl, (Env.ways_eq_none.mpr he).symm⟩

theorem Reduces.tracks (h : Reduces ctx p s p' s')
    (hx : x.conduct = p.rule.conduct) (hc : p.complete = true) (hr : p.rule.ordinary = true)
    (ht : Tracks (flowAll cs f) s) : Tracks (flow (.node x cs) f) s' := by
  have hplain (hr : p.rule.plain = true) : Tracks (flow (.node x cs) f) s' := by
    obtain ⟨hw, hb⟩ := h.plain_frame hr
    have hpass : p.rule.conduct = .pass := by
      cases hp : p.rule <;> rw [hp] at hr <;> first | rfl | cases hr
    simp only [flow, hx, hpass]
    exact ⟨ht.toFollows.plain (h.plain (.inl hr)) hb, ht.here.trans hw.symm⟩
  have hp := h.plain
  cases h with
  | wait _ h =>
    rw [hc] at h
    cases h
  | br hr _ hb =>
    simp only [flow, hx, hr, Rule.conduct]
    exact ht.br (breaks_of_breakTo hb)
  | brIf hr _ _ _ _ hb =>
    simp only [flow, hx, hr, Rule.conduct]
    exact ht.brIf (breaks_of_breakTo hb)
  | brTable hr _ _ _ _ hs hb =>
    simp only [flow, hx, hr, Rule.conduct]
    exact ht.brTable hs hb
  | ret hr =>
    simp only [flow, hx, hr, Rule.conduct]
    exact ht.ret (hp (.inr hr)) (State.emitOn_blocks _) rfl
  | setLocal hr | setGlobal hr | call hr | callIndirect hr | growMemory hr | unop hr | binop hr | idle hr
  | load hr | store hr => exact hplain (by rw [hr]; rfl)
  | openChoice h => rcases h with h | h <;> rw [h] at hr <;> cases hr
  | closeBlock h | closeLoop h | closeIf h | otherwise h | closeElse h | selectType h | selectSame h
  | select h =>
    rw [h] at hr
    cases hr

theorem Decodes.tracks {ts : List Tree} (hd : Decodes ctx cs s ts s') (h : Tracks f s) :
    Tracks (flowAll cs f) s' := by
  induction hd generalizing f with
  | nil => exact h
  | cons _ _ ih₁ ih₂ => exact ih₂ (ih₁ h)
  | leaf hb => exact hb.tracks h
  | block hx _ _ hh hb hj ih =>
    simp only [flowAll, flow, hx]
    exact (ih (h.openBlock _ _)).leaveBlock hh hb hj
  | operation hb hr _ _ _ hc hred ih => exact hred.tracks hb.conduct hc hr (ih h)
  | ifThen hx _ _ ha hl ih₁ ih₂ =>
    have h₁ := ih₁ h
    have h₂ := ih₂ (h₁.choose _)
    simp only [flowAll, flow, hx, flowIf]
    exact h₁.rejoin h₂ ha.builds.extends hl _
  | @ifElse _ _ _ _ _ tc _ _ _ s₁ _ _ _ _ j j' hx _ _ _ hj _ hj' ih₁ ih₂ ih₃ =>
    have h₁ := ih₁ h
    have h₂ := ih₂ (h₁.choose _)
    have hw := hj.ways
    have h₃ := (h₂.toFollows.bring Ways.noConfusion hj).at (branchOn s₁ tc).2.1
      (⟨(branchOn s₁ tc).2.1, j⟩ :: s₁.choices)
    rw [branchOn_fails_ways, ← h₁.here] at h₃
    have h₄ := ih₃ h₃
    have hne : j.env.ways ≠ .many := by rw [hw]; exact Ways.none_add_ne _
    have h₅ := (h₄.toFollows.bring hne hj').at j'.env s₁.choices
    rw [hj'.ways, hw, ← h₂.here, ← h₄.here] at h₅
    simp only [flowAll, flow, hx, flowIfElse]
    exact h₅
  | select hx _ _ _ ih =>
    have h₁ := ih h
    simp only [flowAll, flow, hx]
    refine ⟨h₁.toFollows.keeps (.emitOn Keeps.refl fun g c => ?_) (State.emitOn_blocks _), ?_⟩
    · exact ⟨(emitSelect_builds _ _ _ _ _ _).extends, fun hg => hg.emitSelect _ _ _ _ _⟩
    · exact h₁.here.trans (State.emitOn_ways _).symm

end Following

section Bodies

variable {b : FunctionBody} {o : Options} {d d' : Decoder}

theorem entry_tracks (b : FunctionBody) : Tracks {} (.entry b) := by
  have hs : ({ signature := b.signature } : Graph).Structured := by
    intro n x hx
    simp [node?] at hx
  refine ⟨⟨rfl, fun _ => ⟨_, rfl, hs.plain (entryEnv_plain b _), forall_mem_nil _⟩, fun h => ?_⟩, rfl⟩
  cases h

theorem Finishes.plain (h : Finishes ctx d d') : d.state.Under Plain d'.state := by
  cases h with
  | ended => exact .of_eq .refl rfl
  | nothing | value => exact plain_emitOn fun g c => .push rfl rfl rfl rfl

theorem Finishes.blocks (h : Finishes ctx d d') : d'.state.blocks = d.state.blocks := by
  cases h with
  | ended => rfl
  | nothing | value => exact State.emitOn_blocks _

/-- The graph of a body has its structure exactly if no alternative goes on at a join that is none. -/
theorem build_structured_iff {r : Result} (h : build b o = .ok r) :
    ∃ g, r.graph = some g ∧ (g.Structured ↔ staleBody b = false) := by
  obtain ⟨xs, es, ts, s, d, hi, hf, -, hts, hd, hr⟩ := build_ok h
  have ht := (decodes_of_evalAll (codeAll_of_forest hf).2 hts).tracks (entry_tracks b)
  have hend : Follows (flowAll es {}) d.state := ht.toFollows.plain hd.plain hd.blocks
  have hstale : staleBody b = (flowAll es {}).stale := by simp [staleBody, hi, hf]
  rw [hr, hstale]
  cases hfl : (flowAll es {}).stale with
  | false =>
    obtain ⟨g, hg, hs, -⟩ := hend.sane hfl
    exact ⟨g, hg, by simp [hs]⟩
  | true =>
    obtain ⟨g, hg, hc⟩ := hend.crossed hfl
    exact ⟨g, hg, by simp [hc.not_structured]⟩

def guarded : FunctionBody where
  code := [0x03, 0x09, 0x00, 0x01, 0x01, 0x07, 0x00, 0x00, 0x09, 0x01]

theorem build_structured_iff_guarded :
    ∃ r g, build guarded {} = .ok r ∧ r.graph = some g ∧ g.Structured := by
  have hok : (build guarded {}).toOption.isSome = true := by decide +kernel
  obtain ⟨r, hr⟩ := Option.isSome_iff_exists.mp hok
  have hr := toOption_eq_some.mp hr
  obtain ⟨g, hg, hs⟩ := build_structured_iff hr
  exact ⟨r, g, hr, hg, hs.mpr (by decide +kernel)⟩

/-- An alternative after a block with a branch out of it: the decoder adds a way to the direction in which its
condition fails. -/
def crossing : FunctionBody where
  code := [0x01, 0x01, 0x07, 0x00, 0x00, 0x09, 0x00, 0x03, 0x09, 0x01, 0x00]

theorem build_crossing_not_structured : ∃ r g, build crossing {} = .ok r ∧ r.graph = some g ∧
      (g.node? 10).map (fun x => (x.op, x.inputs)) = some (.ifFalse, [8, 9]) ∧ ¬g.Structured := by
  have hok : ((build crossing {}).toOption.bind Result.graph).bind (fun g =>
      (g.node? 10).map fun x => (x.op, x.inputs)) = some (.ifFalse, [8, 9]) := by
    decide +kernel
  obtain ⟨g, hg, hx⟩ := Option.bind_eq_some_iff.mp hok
  obtain ⟨r, hr, hg⟩ := Option.bind_eq_some_iff.mp hg
  refine ⟨r, g, toOption_eq_some.mp hr, hg, hx, Crossed.not_structured ?_⟩
  obtain ⟨x, hn, hx⟩ := Option.map_eq_some_iff.mp hx
  obtain ⟨ho, hi⟩ := Prod.mk.inj hx
  exact ⟨10, x, hn, ho, by simp [hi]⟩

end Bodies

end Body

end ProtoWasm
