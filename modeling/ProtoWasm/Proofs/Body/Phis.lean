import ProtoWasm.Proofs.Body.Meetings
import ProtoWasm.Proofs.Body.WellTyped

/-! # Phis that are referred to are complete -/
namespace ProtoWasm.Body

open Body.Expr ProtoWasm.Graph List

variable {ctx : Context} {p p' : Pending} {s s' s₁ : State} {g g' : Graph} {roots : List NodeId}
  {ms : List Meeting} {v : Tree} {c : Chain} {x : Instruction} {ts : List Tree} {depth : Nat} {t : Target}
  {env : Env} {rest : List Target} {cs : List Expr}

section States

variable {frames : List Target} {ns roots' : List NodeId}

/-- The graph is coherent with the point at hand, with the targets and with others that were put aside. -/
def State.Meets (ctx : Context) (s : State) (frames : List Target) (roots : List NodeId) : Prop :=
  ∃ g, s.graph = some g ∧ Body.Meets g ctx.types.length s.env (s.blocks ++ frames) roots

theorem perm_set {ts : List Target} (h : ts[depth]? = some t) :
    ∃ others, ts.Perm (t :: others) ∧ ∀ t', (ts.set depth t').Perm (t' :: others) := by
  induction ts generalizing depth with
  | nil => simp at h
  | cons u ts ih =>
    cases depth with
    | zero =>
      obtain rfl : u = t := by simpa using h
      exact ⟨ts, .refl _, fun t' => .refl _⟩
    | succ depth =>
      obtain ⟨others, ho, hs⟩ := ih (getElem?_cons_succ ▸ h)
      refine ⟨u :: others, (ho.cons u).trans (.swap t u others), fun t' => ?_⟩
      rw [set_cons_succ]
      exact ((hs t').cons u).trans (.swap t' u others)

namespace State.Meets

section

variable (h : s.Meets ctx frames roots)
include h

theorem mono (hr : ∀ m ∈ roots', m ∈ roots) : s.Meets ctx frames roots' := by
  obtain ⟨g, hg, hm⟩ := h
  exact ⟨g, hg, hm.mono hr⟩

theorem quiet (hq : Quiet s s') : s'.Meets ctx frames roots := by
  obtain ⟨g, hg, hm⟩ := h
  refine ⟨g, hq.graph.trans hg, ?_⟩
  rw [hq.blocks]
  exact hm.finish hq.live

theorem quiet_given (hq : Quiet s s') : s'.Meets ctx frames (s'.env.given ns ++ roots) := by
  rw [Env.given_of_dead hq.live]
  exact h.quiet hq

theorem finishPath : s.finishPath.Meets ctx frames roots := h.quiet ⟨rfl, rfl, rfl⟩

theorem perm {frames' : List Target} (hp : frames.Perm frames') : s.Meets ctx frames' roots := by
  obtain ⟨g, hg, hm⟩ := h
  exact ⟨g, hg, hm.perm (hp.append_left s.blocks)⟩

theorem unreached : s.Meets ctx (.exit { env := .unreached } :: frames) roots := by
  obtain ⟨g, hg, hm⟩ := h
  refine ⟨g, hg, Body.Meets.perm ?_ perm_middle.symm⟩
  exact ⟨hm.coherent, hm.here, forall_mem_cons.mpr ⟨fun hl => absurd hl Bool.false_ne_true, hm.targets⟩⟩

end

theorem drop (h : s.Meets ctx frames (ns ++ (roots' ++ roots))) : s.Meets ctx frames (ns ++ roots) := by
  refine h.mono fun n hn => ?_
  simp only [mem_append] at hn ⊢
  tauto

theorem resume (h : s.Meets ctx (t :: frames) roots) (choices : List Choice) :
    State.Meets ctx { s with env := t.env, choices } frames (t.env.given t.front ++ roots) := by
  obtain ⟨g, hg, hm⟩ := h
  exact ⟨g, hg, (hm.perm perm_middle).resume⟩

theorem leave {target : Env} (h : s.Meets ctx (.header target :: frames) roots)
    (hl : Body.leave ctx p s target = .ok (env, s')) : s'.Meets ctx (.header env :: frames) roots := by
  obtain ⟨g, hg, hm⟩ := h
  obtain ⟨g', hg', hm'⟩ := (hm.perm perm_middle).header hg hl
  refine ⟨g', hg', ?_⟩
  rw [(leave_frame hl).1]
  exact hm'.perm perm_middle.symm

theorem bring {j j' : Join} (h : s.Meets ctx (.exit j :: frames) roots)
    (hb : Brings ctx p s j v j' s') (hv : s.env.live = true → v.type ≠ .unreachable ∧ v.node ∈ roots) :
    s'.Meets ctx (.exit j' :: frames) roots := by
  obtain ⟨g, hg, hm⟩ := h
  obtain ⟨g', hg', hm'⟩ := (hm.perm perm_middle).bring hg hb hv
  refine ⟨g', hg', ?_⟩
  rw [hb.frame.1]
  exact hm'.perm perm_middle.symm

section

variable (h : s.Meets ctx frames roots)
include h

theorem breaks (hb : Breaks ctx p s depth v s')
    (hv : s.env.live = true → v.type ≠ .unreachable ∧ v.node ∈ roots) : s'.Meets ctx frames roots := by
  obtain ⟨g, hg, hm⟩ := h
  cases hb with
  | @header target env s₁ ht hl =>
    obtain ⟨others, ho, hs⟩ := perm_set ht
    obtain ⟨g', hg', hm'⟩ := (hm.perm (ho.append_right frames)).header hg hl
    exact ⟨g', hg', hm'.perm ((hs _).append_right frames).symm⟩
  | @exit j j' s₁ ht hj =>
    obtain ⟨others, ho, hs⟩ := perm_set ht
    obtain ⟨g', hg', hm'⟩ := (hm.perm (ho.append_right frames)).bring hg hj hv
    exact ⟨g', hg', hm'.perm ((hs _).append_right frames).symm⟩

/-- The beginning of a loop gets no further ways once its children are decoded. -/
theorem closeBlock {j j' : Join} {heads : List Target} (hb : s.blocks = heads ++ .exit j :: rest)
    (hj : Brings ctx p { s with blocks := .exit j :: rest } j v j' s₁)
    (hv : s.env.live = true → v.type ≠ .unreachable ∧ v.node ∈ roots) :
    State.Meets ctx { s₁ with env := j'.env, blocks := rest } frames (j'.env.given [j'.node] ++ roots) := by
  obtain ⟨g, hg, hm⟩ := h
  rw [hb, append_assoc] at hm
  obtain ⟨g', hg', hm'⟩ := Body.Meets.bring (s := { s with blocks := .exit j :: rest }) hm.forget hg hj hv
  exact ⟨g', hg', hm'.resume⟩

theorem openBlock (ht : ctx.types = ctx.body.localTypes) (hs : s.env.live = true) (offset : Int) (isLoop : Bool) :
    (openBlock ctx s offset isLoop).Meets ctx frames roots := by
  obtain ⟨g, hg, hm⟩ := h
  have hc := hm.coherent
  rw [Env.given_of_live hs] at hc
  have hsplit : s.env.split = { s.env with reach := .once } := if_pos hs
  cases isLoop with
  | false =>
    have hvacate : s.env.vacate = .unreached := if_pos hs
    refine ⟨g, hg, ?_, fun _ => ?_, forall_mem_cons.mpr ⟨fun hl => ?_, hm.targets⟩⟩
    · dsimp only [Body.openBlock, Bool.not_false, if_true]
      rw [hsplit, hvacate, Env.given_of_live rfl]
      exact hc
    · dsimp only [Body.openBlock, Bool.not_false, if_true]
      rw [hsplit]
      exact hm.here hs
    · rw [Target.env, Env.vacate_live] at hl
      cases hl
  | true =>
    obtain ⟨assigned, ha, ho⟩ : ∃ assigned, _ ∧ Body.openBlock ctx s offset true = _ :=
      openBlock_of_live offset hs hg
    have hlen : ∀ l ∈ assigned, l.length = ctx.types.length := by
      intro l hl
      rcases ha with rfl | rfl
      · cases hl
      · rw [ht]
        exact length_assignedInLoop hl
    rw [hsplit] at ho
    have hrefs : ∀ m ∈ s.env.refs, m ∈ s.env.refs ++ ((s.blocks ++ frames).flatMap Target.refs ++ roots) :=
      fun m hm => mem_append_left _ hm
    have hl : (openLoop ctx.types assigned { s.env with reach := .once } g).1.locals.length = ctx.types.length :=
      length_openLoop (hm.here hs) hlen
    have hc' := openLoop_coherent ctx.types assigned { s.env with reach := .once } hc hrefs
    rw [ho]
    refine ⟨_, rfl, ?_, fun _ => hl, forall_mem_cons.mpr ⟨fun _ => hl,
      forall_mem_cons.mpr ⟨fun hd => absurd hd Bool.false_ne_true, hm.targets⟩⟩⟩
    refine hc'.mono fun m hm => ?_
    simp only [mem_append] at hm ⊢
    rcases hm with hm | hm
    · exact .inl hm
    · exact .inr (.inr hm)

theorem choose {c : Tree} (hc : s.env.live = true → c.node ∈ roots) :
    (s.choose c).Meets ctx (.header (branchOn s c).2.1 :: frames) roots := by
  obtain ⟨g, hg, hm⟩ := h
  cases hs : s.env.live with
  | false =>
    rw [State.choose_of_dead c hs, branchOn_of_dead c hs]
    refine ⟨g, hg, Body.Meets.perm ?_ perm_middle.symm⟩
    have hd := hm.finish Env.unreached_live
    have hr : s.env.reach ≠ .once ∧ s.env.reach ≠ .joined := by simpa [Env.live] using hs
    refine ⟨?_, hd.here, forall_mem_cons.mpr ⟨fun hl => ?_, hd.targets⟩⟩
    · simpa [Target.refs, Target.meetings, Target.kept, Target.env, hr.1, hr.2] using hd.coherent
    · rw [Target.env, hs] at hl
      cases hl
  | true =>
    have hcoh := hm.coherent
    rw [Env.given_of_live hs] at hcoh
    have hcond : c.node ∈ s.env.refs ++ ((s.blocks ++ frames).flatMap Target.refs ++ roots) := by simp [hc hs]
    have hcontrol : s.env.chain.control ∈ s.env.refs ++ ((s.blocks ++ frames).flatMap Target.refs ++ roots) := by
      simp [Env.refs]
    rw [State.choose, branchOn_of_live c hs hg]
    refine ⟨_, rfl, Body.Meets.perm ?_ perm_middle.symm⟩
    have hsplit : s.env.split = { s.env with reach := .once } := if_pos hs
    rw [hsplit]
    refine ⟨?_, fun _ => hm.here hs, forall_mem_cons.mpr ⟨fun _ => hm.here hs, hm.targets⟩⟩
    rw [Env.given_of_live rfl, flatMap_cons, flatMap_cons]
    cases hr : s.env.reach with
    | ended | unreached => simp [Env.live, hr] at hs
    | once =>
      simp only [Target.meetings, Target.env, Env.setControl, hr, reduceCtorEq, if_false, nil_append]
      refine (emitBranch_coherent hcond hcontrol hcoh).mono fun m hm => ?_
      simp only [Env.refs, Target.refs, Target.env, Target.front, Target.kept, if_true, mem_append,
        mem_cons, not_mem_nil, or_false, false_or] at hm ⊢
      tauto
    | joined =>
      simp only [Target.meetings, Target.env, Env.setControl, hr, if_true]
      have hvalues : ∀ m ∈ s.env.locals ++ [s.env.chain.effect],
          m ∈ s.env.refs ++ ((s.blocks ++ frames).flatMap Target.refs ++ roots) := by
        intro m hm
        simp only [Env.refs, mem_append, mem_cons, not_mem_nil, or_false] at hm ⊢
        tauto
      refine (emitBranch_met hcond hcontrol hcoh false hvalues).mono fun m hm => ?_
      simp only [Env.refs, Target.refs, Target.env, Target.kept, reduceCtorEq, if_false, mem_append,
        mem_cons, not_mem_nil, or_false, false_or] at hm ⊢
      tauto

theorem branch {c : Tree} (hs : s.env.live = true) (hc : c.node ∈ roots) :
    State.Meets ctx { (branchOn s c).2.2 with env := (branchOn s c).1 } frames
      ((branchOn s c).2.1.refs ++ roots) := by
  obtain ⟨g, hg, hm⟩ := h
  have hcoh := hm.coherent
  rw [Env.given_of_live hs] at hcoh
  have hcond : c.node ∈ s.env.refs ++ ((s.blocks ++ frames).flatMap Target.refs ++ roots) := by simp [hc]
  have hcontrol : s.env.chain.control ∈ s.env.refs ++ ((s.blocks ++ frames).flatMap Target.refs ++ roots) := by
    simp [Env.refs]
  rw [branchOn_of_live c hs hg]
  have hsplit : s.env.split = { s.env with reach := .once } := if_pos hs
  rw [hsplit]
  refine ⟨_, rfl, ?_, fun _ => hm.here hs, hm.targets⟩
  refine (emitBranch_coherent hcond hcontrol hcoh).mono fun m hm => ?_
  rw [Env.given_of_live rfl] at hm
  simp only [Env.refs, Env.setControl, mem_append, mem_cons] at hm ⊢
  tauto

end

end State.Meets

end States

section Emitters

variable {ns : List NodeId} {f : Graph.Emitter} {frames : List Target}

/-- An emitter refers to nothing but the given nodes and its chain. -/
def Refers (ns : List NodeId) (f : Graph.Emitter) : Prop :=
  ∀ g c roots ms, Coherent g roots ms → (∀ n ∈ c.control :: c.effect :: ns, n ∈ roots) →
    (f g c).2.2.Coherent ((f g c).1 :: (f g c).2.1.control :: (f g c).2.1.effect :: roots) ms

theorem Refers.setOffset (hf : Refers ns f) (offset : Int) :
    Refers ns fun g c => ((f g c).1, (f g c).2.1, (f g c).2.2.setOffset (f g c).1 offset) := by
  intro g c roots ms h hr
  exact (hf g c roots ms h hr).setOffset _ _

theorem emit_coherent {x : Node} (c' : Chain) (h : g.Coherent roots ms)
    (hr : ∀ n ∈ c.control :: c.effect :: ns, n ∈ roots) (hn : g'.nodes = g.nodes.push x)
    (hp : x.op.isPhi = false) (hx : ∀ m ∈ x.inputs, m ∈ c.control :: c.effect :: ns)
    (hc : c'.control = g.nodes.size + 1 ∨ c'.control = c.control)
    (he : c'.effect = g.nodes.size + 1 ∨ c'.effect = c.effect) :
    g'.Coherent ((g.nodes.size + 1) :: c'.control :: c'.effect :: roots) ms := by
  have h' := h.push hn hp fun m hm => h.roots m (hr m (hx m hm))
  refine h'.mono fun m hm => ?_
  simp only [mem_cons] at hm hr ⊢
  rcases hm with rfl | rfl | rfl | hm
  · exact .inl rfl
  · exact hc.imp_right fun hc => hr _ (.inl hc)
  · exact he.imp_right fun he => hr _ (.inr (.inl he))
  · exact .inr hm

theorem mem_chain {m : NodeId} (h : m ∈ ns ++ [c.effect, c.control]) :
    m ∈ c.control :: c.effect :: ns := by
  simp only [mem_append, mem_cons, not_mem_nil, or_false] at h ⊢
  tauto

theorem refers_return (values : List NodeId) : Refers values fun g c => g.emitReturn c values := by
  intro g c roots ms h hr
  exact emit_coherent _ h hr rfl rfl (fun m => mem_chain) (.inl rfl) (.inl rfl)

theorem refers_unreachable : Refers [] fun g c => g.emitUnreachable c := by
  intro g c roots ms h hr
  exact emit_coherent _ h hr rfl rfl (by simp [or_comm]) (.inl rfl) (.inl rfl)

theorem emitMemoryRef_coherent (h : g.Coherent roots ms) (kind : MemoryRefKind) :
    (g.emitMemoryRef kind).2.Coherent ((g.emitMemoryRef kind).1 :: roots) ms := by
  cases kind
  · exact h.push rfl rfl (forall_mem_nil _)
  · exact h.push rfl rfl (forall_mem_nil _)

/-- An access refers to the base and the size of the memory, too. -/
theorem access_coherent {x : Node} (h : g.Coherent roots ms) (hr : ∀ n ∈ c.control :: c.effect :: ns, n ∈ roots)
    (hn : g'.nodes = ((g.emitMemoryRef .base).2.emitMemoryRef .size).2.nodes.push x) (hp : x.op.isPhi = false)
    (hx : x.inputs = (g.emitMemoryRef .base).1 :: ((g.emitMemoryRef .base).2.emitMemoryRef .size).1 ::
      (ns ++ [c.effect, c.control])) :
    let n := ((g.emitMemoryRef .base).2.emitMemoryRef .size).2.nodes.size + 1
    g'.Coherent (n :: c.control :: n :: roots) ms := by
  intro n
  let base := g.emitMemoryRef .base
  let size := base.2.emitMemoryRef .size
  have h₂ : size.2.Coherent (size.1 :: base.1 :: roots) ms :=
    emitMemoryRef_coherent (emitMemoryRef_coherent h .base) .size
  have hr' : ∀ m ∈ c.control :: c.effect :: (base.1 :: size.1 :: ns), m ∈ size.1 :: base.1 :: roots := by
    intro m hm
    simp only [mem_cons] at hm hr ⊢
    rcases hm with hm | hm | hm | hm | hm
    · exact .inr (.inr (hr m (.inl hm)))
    · exact .inr (.inr (hr m (.inr (.inl hm))))
    · exact .inr (.inl hm)
    · exact .inl hm
    · exact .inr (.inr (hr m (.inr (.inr hm))))
  have hin : ∀ m ∈ x.inputs, m ∈ c.control :: c.effect :: (base.1 :: size.1 :: ns) := by
    intro m hm
    rw [hx, ← cons_append, ← cons_append] at hm
    exact mem_chain hm
  have h₃ := emit_coherent ⟨c.control, n⟩ h₂ hr' hn hp hin (.inr rfl) (.inl rfl)
  refine h₃.mono fun m hm => ?_
  simp only [mem_cons] at hm ⊢
  tauto

theorem refers_select (t : ValType) (cond a b : NodeId) :
    Refers [cond, a, b] fun g c => emitSelect g c t cond a b := by
  intro g c roots ms h hr
  have hcond : cond ∈ roots := hr cond (by simp)
  have hcontrol : c.control ∈ roots := hr c.control (by simp)
  let branch := g.emitBranch cond c.control
  have h₁ : branch.2.Coherent (branch.1.2 :: branch.1.1 :: roots) ms := emitBranch_coherent hcond hcontrol h
  let node : Node := { op := .merge, inputs := [branch.1.1, branch.1.2] }
  let merge := branch.2.add node
  have hpush : merge.2.nodes = branch.2.nodes.push node := rfl
  have hin : ∀ m ∈ node.inputs, branch.2.Shows ms m := fun m hm => h₁.roots m (by
    simp only [node, mem_cons, not_mem_nil, or_false] at hm ⊢
    tauto)
  have h₂ : merge.2.Coherent (branch.1.2 :: branch.1.1 :: roots)
      ({ join := merge.1, hidden := false, values := [] } :: ms) :=
    h₁.pushJoin hpush rfl (cons_ne_nil _ _) hin false fun n hn => absurd hn not_mem_nil
  have hcount : merge.2.inputCount merge.1 = 2 := inputCount_of_node (node?_new hpush)
  have h₃ : (merge.2.emitPhi t merge.1 [a, b]).2.Coherent (branch.1.2 :: branch.1.1 :: roots)
      ({ join := merge.1, hidden := false, values := [(merge.2.emitPhi t merge.1 [a, b]).1] } :: ms) := by
    refine h₂.pushPhi rfl rfl rfl (fun m hm => h₂.roots m ?_) hcount.symm
    refine mem_cons_of_mem _ (mem_cons_of_mem _ (hr m ?_))
    simp only [mem_cons, not_mem_nil, or_false] at hm ⊢
    tauto
  refine Coherent.mono (h₃.close rfl) fun m hm => ?_
  have heffect := hr c.effect (by simp)
  simp only [emitSelect, mem_cons, cons_append, nil_append] at hm ⊢
  rcases hm with rfl | rfl | rfl | hm
  · exact .inr (.inl rfl)
  · exact .inl rfl
  · exact .inr (.inr (.inr (.inr heffect)))
  · exact .inr (.inr (.inr (.inr hm)))

theorem Constant.coherent {t : ValType} {f : Graph → NodeId × Graph} (hf : Constant t f)
    (h : g.Coherent roots ms) : (f g).2.Coherent ((f g).1 :: roots) ms := by
  cases hf with
  | memSize =>
    have h₁ := emitMemoryRef_coherent h .size
    have h₂ : g.emitMemSize.2.Coherent _ _ :=
      h₁.push rfl rfl (forall_mem_singleton.mpr (h₁.roots _ mem_cons_self))
    refine Coherent.mono h₂ fun m hm => ?_
    rcases mem_cons.mp hm with rfl | hm
    · exact mem_cons_self
    · exact mem_cons_of_mem _ (mem_cons_of_mem _ hm)
  | _ => exact h.push rfl rfl (forall_mem_nil _)

namespace State.Meets

section

variable (h : s.Meets ctx frames roots)
include h

theorem emitOn (hs : s.env.live = true) (hf : Refers ns f)
    (hr : ∀ n ∈ ns, n ∈ roots) : (s.emitOn f).2.Meets ctx frames ((s.emitOn f).1 :: roots) := by
  obtain ⟨g, hg, hm⟩ := h
  have hc := hm.coherent
  rw [Env.given_of_live hs] at hc
  have hrefs : ∀ n ∈ s.env.chain.control :: s.env.chain.effect :: ns,
      n ∈ s.env.refs ++ ((s.blocks ++ frames).flatMap Target.refs ++ roots) := by
    intro n hn
    simp only [Env.refs, mem_append, mem_cons] at hn ⊢
    rcases hn with hn | hn | hn
    · exact .inl (.inl hn)
    · exact .inl (.inr (.inl hn))
    · exact .inr (.inr (hr n hn))
  have hc' := hf g s.env.chain _ _ hc hrefs
  rw [State.emitOn_of_live f hs hg]
  refine ⟨_, rfl, ?_, fun _ => hm.here hs, hm.targets⟩
  refine hc'.mono fun n hn => ?_
  rw [Env.given_of_live (by exact hs)] at hn
  simp only [Env.refs, mem_append, mem_cons] at hn ⊢
  tauto

theorem emit {f : Graph → NodeId × Graph} (hs : s.env.live = true)
    (hf : ∀ g roots ms, Coherent g roots ms → (∀ n ∈ ns, n ∈ roots) → (f g).2.Coherent ((f g).1 :: roots) ms)
    (hr : ∀ n ∈ ns, n ∈ s.env.refs ++ roots) : (s.emit f).2.Meets ctx frames ((s.emit f).1 :: roots) := by
  obtain ⟨g, hg, hm⟩ := h
  have hc := hm.coherent
  rw [Env.given_of_live hs] at hc
  have hc' := hf g _ _ hc fun n hn => by
    rcases mem_append.mp (hr n hn) with hn | hn
    · exact mem_append_left _ hn
    · exact mem_append_right _ (mem_append_right _ hn)
  rw [State.emit_of_live f hs hg]
  refine ⟨_, rfl, ?_, hm.here, hm.targets⟩
  refine hc'.mono fun n hn => ?_
  rw [Env.given_of_live (by exact hs)] at hn
  simp only [mem_append, mem_cons] at hn ⊢
  tauto

theorem keep (hs : s.env.live = true) : s.finishPath.Meets ctx frames (s.env.refs ++ roots) := by
  obtain ⟨g, hg, hm⟩ := h
  refine ⟨g, hg, ?_, fun hl => absurd hl Bool.false_ne_true, hm.targets⟩
  refine hm.coherent.mono fun n hn => ?_
  rw [Env.given_of_dead (e := s.finishPath.env) rfl] at hn
  rw [Env.given_of_live hs]
  simp only [nil_append, mem_append] at hn ⊢
  tauto

theorem enter (hl : env.locals.length = ctx.types.length)
    (hr : ∀ n ∈ env.refs, n ∈ roots) : State.Meets ctx { s with env } frames roots := by
  obtain ⟨g, hg, hm⟩ := h
  refine ⟨g, hg, ?_, fun _ => hl, hm.targets⟩
  refine hm.coherent.mono fun n hn => ?_
  simp only [mem_append] at hn ⊢
  exact .inr (hn.elim (fun hn => .inr (hr n (mem_of_given hn))) id)

theorem noNode : s.Meets ctx frames (noNode :: roots) := by
  obtain ⟨g, hg, hm⟩ := h
  exact ⟨g, hg, hm.add (forall_mem_singleton.mpr shows_noNode)⟩

end

end State.Meets

end Emitters

section Tables

variable {frames : List Target} {entry : Env} {switch : NodeId} {last i : Nat}

theorem tableCase_meets (he : entry.live = true) (hl : entry.locals.length = ctx.types.length)
    (hr : ∀ n ∈ switch :: entry.refs, n ∈ roots) (h : s.finishPath.Meets ctx frames roots) :
    (tableCase entry switch last i s).Meets ctx frames roots := by
  obtain ⟨hsw, hrefs⟩ := forall_mem_cons.mp hr
  have hsplit : entry.split = { entry with reach := .once } := if_pos he
  unfold tableCase
  split
  · exact h.enter hl hrefs
  · obtain ⟨g, hg, hm⟩ := h
    have hg : s.graph = some g := hg
    rw [hg, hsplit]
    dsimp only
    have hc := hm.coherent
    have hin : g.Shows ((s.blocks ++ frames).flatMap Target.meetings) switch :=
      hc.roots switch (mem_append_right _ (mem_append_right _ hsw))
    have direction {x : Node} (hp : x.op.isPhi = false) (hx : x.inputs = [switch]) :
        State.Meets ctx { s with
          env := { entry with reach := .once }.setControl (g.add x).1
          graph := some (g.add x).2 } frames roots := by
      have hc' : (g.add x).2.Coherent _ _ := hc.push rfl hp (hx ▸ forall_mem_singleton.mpr hin)
      refine ⟨_, rfl, ?_, fun _ => hl, hm.targets⟩
      refine hc'.mono fun n hn => ?_
      rw [Env.given_of_live rfl] at hn
      simp only [Env.refs, Env.setControl, mem_append, mem_cons] at hn hrefs ⊢
      rcases hn with (rfl | hn | hn) | hn | hn
      · exact .inl rfl
      · exact .inr (.inr (.inr (hrefs n (.inr (.inl hn)))))
      · exact .inr (.inr (.inr (hrefs n (.inr (.inr hn)))))
      · exact .inr (.inr (.inl hn))
      · exact .inr (.inr (.inr hn))
    split
    · have h : s.finishPath.Meets ctx frames roots := ⟨g, hg, hm⟩
      rw [← hg]
      exact h.enter hl hrefs
    · split
      · exact direction rfl rfl
      · exact direction rfl rfl

theorem branchAll_meets {cases : List (Nat × Nat)} (he : entry.live = true)
    (hl : entry.locals.length = ctx.types.length) (hr : ∀ n ∈ switch :: entry.refs, n ∈ roots)
    (hv : v.type ≠ .unreachable ∧ v.node ∈ roots) (h : s.finishPath.Meets ctx frames roots)
    (hb : branchAll ctx p v entry switch last cases s = .ok s') : s'.finishPath.Meets ctx frames roots := by
  refine branchAll_induction (P := fun s => s.finishPath.Meets ctx frames roots) (fun s₁ s₂ depth i h hb => ?_) h hb
  exact ((tableCase_meets he hl hr h).breaks hb fun _ => hv).finishPath

theorem brTable_meets {depths : List Nat} {k : Tree} {s₀ : State} (hs : s.env.live = true)
    (h : s.Meets ctx frames roots) (hv : v.type ≠ .unreachable ∧ v.node ∈ roots) (hk : k.node ∈ roots)
    (h₀ : (switch, s₀) = if depths.length ≤ 1 then (noNode, s)
      else s.emit fun g => g.emitSwitch depths.length k.node s.env.split.chain.control)
    (hb : branchAll ctx p v s.env.split switch (depths.length - 1) depths.zipIdx s₀ = .ok s') :
    s'.finishPath.Meets ctx frames roots := by
  have hsplit : s.env.split = { s.env with reach := .once } := if_pos hs
  have hlen : s.env.split.locals.length = ctx.types.length := by
    obtain ⟨g, hg, hm⟩ := h
    rw [hsplit]
    exact hm.here hs
  have hlive : s.env.split.live = true := (Env.split_live _).trans hs
  have hkeep : s₀.finishPath.Meets ctx frames (switch :: (s.env.refs ++ roots)) := by
    split at h₀
    · cases h₀
      exact (h.keep hs).noNode
    · have hemit := h.emit (f := fun g => g.emitSwitch depths.length k.node s.env.split.chain.control) hs
        (fun g roots ms hc (hr : ∀ n ∈ [k.node, s.env.split.chain.control], n ∈ roots) =>
          hc.push rfl rfl fun m hm => hc.roots m (hr m hm)) (fun n hn => ?_)
      · rw [← h₀] at hemit
        have henv : s₀.env = s.env := by
          have h₁ := congrArg (fun r => r.2.env) h₀
          exact h₁.trans (State.emit_env _)
        refine (hemit.keep (henv ▸ hs)).mono fun n hn => ?_
        rw [henv]
        simp only [mem_cons, mem_append] at hn ⊢
        tauto
      · simp only [hsplit, Env.refs, mem_cons, mem_append, not_mem_nil, or_false] at hn ⊢
        rcases hn with rfl | hn
        · exact .inr hk
        · exact .inl (.inl hn)
  have hrefs : ∀ n ∈ switch :: s.env.split.refs, n ∈ switch :: (s.env.refs ++ roots) := by
    intro n hn
    rw [hsplit] at hn
    rcases mem_cons.mp hn with rfl | hn
    · exact mem_cons_self
    · exact mem_cons_of_mem _ (mem_append_left _ hn)
  have hv' : v.type ≠ .unreachable ∧ v.node ∈ switch :: (s.env.refs ++ roots) :=
    ⟨hv.1, mem_cons_of_mem _ (mem_append_right _ hv.2)⟩
  exact (branchAll_meets hlive hlen hrefs hv' hkeep hb).mono fun n hn =>
    mem_cons_of_mem _ (mem_append_right _ hn)

end Tables

section Expressions

variable {frames : List Target}

theorem Begins.meets {t : Tree} (h : s.Meets ctx frames roots) (hs : s.env.live = true)
    (hb : Begins ctx s x (.leaf t s')) : s'.Meets ctx frames (s'.env.given [t.node] ++ roots) := by
  cases hb with
  | nothing =>
    rw [Env.given_of_live hs]
    exact h.noNode
  | retNothing =>
    have h' := h.emitOn hs (refers_return []) (forall_mem_nil _)
    exact h'.finishPath.mono fun n hn => mem_cons_of_mem _ hn
  | unreachable =>
    have h' := h.emitOn hs (refers_unreachable.setOffset x.offset) (forall_mem_nil _)
    exact h'.finishPath.mono fun n hn => mem_cons_of_mem _ hn
  | constant hf =>
    rw [Env.given_of_live (by rw [State.emit_env, hs])]
    exact h.emit hs (fun g roots ms hc _ => hf.coherent hc) (forall_mem_nil _)
  | @getLocal i τ =>
    rw [Env.given_of_live hs]
    obtain ⟨g, hg, hm⟩ := h
    have hb : s.building.isSome = true := by rw [State.building_of_live hs hg]; rfl
    refine ⟨g, hg, hm.add (forall_mem_singleton.mpr ?_)⟩
    dsimp only [Instruction.leaf, Tree.node]
    rw [if_pos hb]
    cases hl : s.env.locals[i]? with
    | none => exact shows_noNode
    | some v =>
      refine hm.coherent.roots v (mem_append_left _ ?_)
      rw [Env.given_of_live hs]
      exact mem_cons_of_mem _ (mem_cons_of_mem _ (mem_of_getElem? hl))
  | getGlobal =>
    rw [Env.given_of_live ((State.emitOn_live _).trans hs)]
    refine h.emitOn hs (fun g c roots ms h hr => ?_) (forall_mem_nil _)
    exact emit_coherent _ h hr rfl rfl (by simp [or_comm]) (.inr rfl) (.inl rfl)

theorem Begins.node (h : Begins ctx s x (.wait p s')) : p.node = noNode := by
  cases h <;> rfl

theorem Reduces.meets (h : Reduces ctx p s p' s') (hc : p.complete = true) (hr : p.rule.ordinary = true)
    (hs : s.env.live = true) (hn : p.node = noNode)
    (ht : ∀ t ∈ p.done, t.type ≠ .unreachable ∧ t.node ∈ roots) (hm : s.Meets ctx frames roots) :
    s'.Meets ctx frames (s'.env.given [p'.node] ++ roots) := by
  have last {t : Tree} (hl : p.done.getLast? = some t) := ht t (mem_of_getLast? hl)
  have get {i : Nat} {t : Tree} (hi : p.done[i]? = some t) := ht t (mem_of_getElem? hi)
  have nodes : ∀ n ∈ childNodes p, n ∈ roots := by
    intro n hn
    obtain ⟨t, hm, rfl⟩ := mem_map.mp hn
    exact (ht t hm).2
  -- an operation on the chain goes on, and has its own node or that of its operand
  have emitted {f : Graph.Emitter} {ns : List NodeId} (hf : Refers ns f)
      (hns : ∀ n ∈ ns, n ∈ roots) {n : NodeId} (hn : n = (s.emitOn f).1 ∨ n ∈ roots) :
      (s.emitOn f).2.Meets ctx frames ((s.emitOn f).2.env.given [n] ++ roots) := by
    rw [Env.given_of_live ((State.emitOn_live f).trans hs)]
    refine (hm.emitOn hs hf hns).mono fun m hm => ?_
    rcases mem_cons.mp hm with rfl | hm
    · exact mem_cons.mpr hn
    · exact mem_cons_of_mem _ hm
  have emittedAt {f : Graph.Emitter} {ns : List NodeId} (hf : Refers ns f)
      (hns : ∀ n ∈ ns, n ∈ roots) {n : NodeId} (hn : n = (s.emitAt p.offset f).1 ∨ n ∈ roots) :
      (s.emitAt p.offset f).2.Meets ctx frames ((s.emitAt p.offset f).2.env.given [n] ++ roots) :=
    emitted (hf.setOffset _) hns hn
  cases h with
  | wait _ h =>
    rw [hc] at h
    cases h
  | idle _ _ _ hg =>
    obtain ⟨g, hg', -⟩ := hm
    rw [State.building_of_live hs hg'] at hg
    cases hg
  | br _ hl hb =>
    have hb := breaks_of_breakTo hb
    rw [Env.given_of_dead hb.live]
    exact hm.breaks hb fun _ => last hl
  | @brIf _ c _ _ _ _ h0 hd _ hb =>
    have hb := breaks_of_breakTo hb
    have hbranch := hm.branch hs (last hd).2
    have hlen : (branchOn s c).2.1.locals.length = ctx.types.length := by
      obtain ⟨g, hg, hm⟩ := hm
      rw [branchOn_of_live c hs hg]
      exact hm.here hs
    have h₁ := hbranch.breaks hb fun _ => ⟨(get h0).1, mem_append_right _ (get h0).2⟩
    have h₂ := h₁.enter hlen fun n hn => mem_append_left _ hn
    rw [hn, Env.given_of_live ((branchOn_fails_live c).trans hs)]
    refine (h₂.mono fun n hn => ?_).noNode
    exact mem_append_right _ hn
  | brTable _ _ h0 hd _ h₀ hb => exact brTable_meets hs hm (get h0) (last hd).2 h₀ hb
  | ret =>
    have h' := hm.emitOn hs (refers_return (childNodes p)) nodes
    exact h'.finishPath.mono fun n hn => mem_cons_of_mem _ hn
  | @setLocal i τ t _ hl =>
    obtain ⟨g, hg, hm⟩ := hm
    rw [State.building_of_live hs hg]
    dsimp only
    rw [Env.given_of_live (by exact hs)]
    refine ⟨g, hg, ?_, fun _ => ?_, hm.targets⟩
    · refine hm.coherent.mono fun n hn => ?_
      rw [Env.given_of_live (by exact hs)] at hn
      rw [Env.given_of_live hs]
      simp only [Env.refs, mem_append, mem_cons, not_mem_nil, or_false] at hn ⊢
      rcases hn with (hn | hn | hn) | hn | rfl | hn
      · exact .inl (.inl hn)
      · exact .inl (.inr (.inl hn))
      · rcases mem_or_eq_of_mem_set hn with hn | rfl
        · exact .inl (.inr (.inr hn))
        · exact .inr (.inr (last hl).2)
      · exact .inr (.inl hn)
      · exact .inr (.inr (last hl).2)
      · exact .inr (.inr hn)
    · dsimp only
      rw [length_set]
      exact hm.here hs
  | setGlobal _ hl =>
    refine emitted (fun g c roots ms h hr => ?_) (forall_mem_singleton.mpr (last hl).2) (.inr (last hl).2)
    exact emit_coherent _ h hr rfl rfl (by simp) (.inr rfl) (.inl rfl)
  | growMemory _ hl =>
    refine emitted (fun g c roots ms h hr => ?_) (forall_mem_singleton.mpr (last hl).2) (.inl rfl)
    exact emit_coherent _ h hr rfl rfl (by simp) (.inl rfl) (.inl rfl)
  | call =>
    refine emittedAt (fun g c roots ms h hr => ?_) nodes (.inl rfl)
    exact emit_coherent _ h hr rfl rfl (fun m => mem_chain) (.inl rfl) (.inl rfl)
  | callIndirect _ _ _ hk =>
    refine emittedAt (fun g c roots ms h hr => ?_) (hk ▸ nodes) (.inl rfl)
    exact emit_coherent _ h hr rfl rfl (fun m => mem_chain) (.inl rfl) (.inl rfl)
  | unop _ _ _ hk | binop _ _ _ hk =>
    refine emittedAt (fun g c roots ms h hr => ?_) (hk ▸ nodes) (.inl rfl)
    exact emit_coherent _ h hr rfl rfl (by simp) (.inr rfl) (.inr rfl)
  | load _ _ _ _ hi =>
    refine emittedAt (fun g c roots ms h hr => ?_) (forall_mem_singleton.mpr (get hi).2) (.inl rfl)
    exact access_coherent (c := c) h hr rfl rfl rfl
  | store _ _ _ _ hi hv =>
    refine emittedAt (fun g c roots ms h hr => ?_)
      (forall_mem_cons.mpr ⟨(get hi).2, forall_mem_singleton.mpr (get hv).2⟩) (.inr (get hv).2)
    exact access_coherent (c := c) h hr rfl rfl rfl
  | openChoice h => rcases h with h | h <;> rw [h] at hr <;> cases hr
  | closeBlock h | closeLoop h | closeIf h | otherwise h | closeElse h | selectType h | selectSame h
  | select h =>
    rw [h] at hr
    cases hr

theorem mem_given_node {t : Tree} (hl : env.live = true) (ht : t ∈ ts) :
    t.node ∈ env.given (ts.map Tree.node) ++ roots := by
  rw [Env.given_of_live hl]
  exact mem_append_left _ (mem_map_of_mem ht)

/-- The nodes of expressions are in sight where control gets to their end. -/
theorem Decodes.meets (hv : ctx.OnlyValues) (htypes : ctx.types = ctx.body.localTypes)
    (hd : Decodes ctx cs s ts s') (hset : s.Settled) (h : s.Meets ctx frames roots) :
    s'.Meets ctx frames (s'.env.given (ts.map Tree.node) ++ roots) := by
  induction hd generalizing frames roots with
  | nil => exact h.mono fun n hn => by simpa [Env.given] using hn
  | @cons _ _ _ _ _ _ s' he hes ih₁ ih₂ =>
    refine (ih₂ (he.settled hv hset).1 (ih₁ hset h)).mono fun n hn => ?_
    -- where control gets to the end of the last child, it got to the end of each
    cases hl : s'.env.live with
    | false =>
      rw [Env.given_of_dead hl, nil_append] at hn
      exact mem_append_right _ (mem_append_right _ hn)
    | true =>
      rw [Env.given_of_live hl] at hn ⊢
      rw [Env.given_of_live (hes.live hl)]
      simp only [map_cons, map_nil, mem_append, mem_cons, not_mem_nil, or_false] at hn ⊢
      tauto
  | @leaf _ _ s _ hb =>
    cases hs : s.env.live with
    | false => exact h.quiet_given (hb.quiet_of_leaf hs)
    | true => exact hb.meets h hs
  | @block x _ _ isLoop _ _ _ _ _ _ s _ _ hx hcs ht hh hb hj ih =>
    cases hs : s.env.live with
    | false => exact h.quiet_given ((Decodes.block hx hcs ht hh hb hj).quiet hs)
    | true =>
      have hset₁ := openBlock_settled ctx x.offset isLoop hset
      have h₁ := ih hset₁ (h.openBlock htypes hs x.offset isLoop)
      have hlast := mem_of_getLast? ht
      exact (h₁.closeBlock hb hj fun hl => ⟨(hcs.settled hv hset₁).2 hl _ hlast, mem_given_node hl hlast⟩).drop
  | @operation _ _ _ _ ts _ s₁ _ hb hr hcs _ _ hc hred ih =>
    have h₁ := ih hset h
    cases hl : s₁.env.live with
    | false => exact (h₁.quiet_given (hred.quiet hr hl)).drop
    | true =>
      refine (hred.meets hc hr hl hb.node ?_ h₁).drop
      rw [hb.add_done ts]
      exact fun t ht => ⟨(hcs.settled hv hset).2 hl t ht, mem_given_node hl ht⟩
  | ifThen _ hc _ _ hl ih₁ ih₂ =>
    have h₂ := (ih₁ hset h).choose fun hl => mem_given hl
    have h₃ := ih₂ ((hc.settled hv hset).1.choose _) h₂
    refine ((h₃.leave hl).resume _).noNode.mono fun n hn => ?_
    simp only [mem_append, mem_cons] at hn ⊢
    rcases hn with hn | hn
    · exact .inl (mem_singleton.mp (mem_of_given hn))
    · exact .inr (.inr (.inr (.inr hn)))
  | @ifElse _ _ _ _ _ tc _ _ _ s₁ _ _ _ _ j _ _ hc _ ha hj he hj' ih₁ ih₂ ih₃ =>
    have hset₁ := (hc.settled hv hset).1.choose tc
    have h₂ := (ih₁ hset h).choose fun hl => mem_given hl
    obtain ⟨hset₂, ht₂⟩ := ha.settled hv hset₁
    have h₄ := (ih₂ hset₁ h₂).unreached.bring hj fun hl => ⟨ht₂ hl _ (by simp), mem_given hl⟩
    have hset₄ := hset₂.of_blocks hj.frame.1
    have h₅ := (h₄.perm (.swap _ _ _)).resume (⟨(branchOn s₁ tc).2.1, j⟩ :: s₁.choices)
    have h₇ := (ih₃ hset₄ h₅).bring hj' fun hl => ⟨(he.settled hv hset₄).2 hl _ (by simp), mem_given hl⟩
    exact (h₇.resume s₁.choices).drop.drop.drop.drop
  | @select _ _ _ ta tb tc _ s₁ τ _ _ _ _ ih =>
    have h₁ := ih hset h
    dsimp only [selected]
    cases hl : s₁.env.live with
    | false =>
      rw [State.emitOn_of_dead _ hl]
      exact (h₁.quiet_given (.refl hl)).drop
    | true =>
      have h₂ := h₁.emitOn hl (refers_select τ tc.node ta.node tb.node) fun n hn => ?_
      · rw [Env.given_of_live ((State.emitOn_live _).trans hl)]
        exact State.Meets.drop h₂
      · rw [Env.given_of_live hl]
        simp only [map_cons, map_nil, mem_append, mem_cons, not_mem_nil, or_false] at hn ⊢
        tauto

end Expressions

section Bodies

variable {b : FunctionBody} {o : Options}

theorem coherent_of_no_phis (hp : g.Holds fun _ x => x.op.isPhi = false) (hc : g.Closed)
    (hr : ∀ n ∈ roots, ∃ x, g.node? n = some x) : g.Coherent roots [] := by
  have shows {n : NodeId} (hn : ∃ x, g.node? n = some x) : g.Shows [] n := by
    obtain ⟨x, hx⟩ := hn
    exact shows_of_not_phi hx (hp n x hx)
  refine ⟨fun n x hx m hm => shows (hc n x hx m hm), fun n hn => shows (hr n hn), fun n x hx h => ?_,
    forall_mem_nil _, nodup_nil⟩
  rw [hp n x hx] at h
  cases h

/-- There are no phis in the graph on entry. -/
theorem entry_meets (hl : ∀ τ ∈ b.localTypes, τ.isValue = true) (analysis : Bool) :
    (State.entry b).Meets ⟨b, analysis, b.localTypes⟩ [] [] := by
  have hs := entry_sound hl analysis
  have he := hs.env rfl
  refine ⟨_, rfl, coherent_of_no_phis (fun n x hx => ?_) hs.typed.closed fun n hn => ?_,
    fun _ => length_entryEnv b _, forall_mem_nil _⟩
  · rcases (entryEnv_plain b _).nodes n x hx with hp | ⟨y, hy, -⟩
    · cases ho : x.op <;> rw [ho] at hp <;> first | rfl | cases hp
    · simp [node?] at hy
  · rw [Env.given_of_live rfl] at hn
    have hn : n ∈ (State.entry b).env.refs := (mem_append.mp hn).resolve_right not_mem_nil
    simp only [Env.refs, mem_cons] at hn
    rcases hn with rfl | rfl | hn
    · exact he.chain.control.imp fun _ h => h.1
    · exact he.chain.effect.imp fun _ h => h.1
    · obtain ⟨i, hi⟩ := mem_iff_getElem?.mp hn
      obtain ⟨τ, -, x, hx, -⟩ := forall₂_get? he.locals.flip hi
      exact ⟨x, hx⟩

theorem State.Meets.phisComplete {frames : List Target} (h : s.Meets ctx frames roots) :
    ∃ g, s.graph = some g ∧ g.PhisComplete := by
  obtain ⟨g, hg, hm⟩ := h
  refine ⟨g, hg, hm.coherent.phisComplete fun q hq => ?_⟩
  obtain ⟨t, -, hq⟩ := mem_flatMap.mp hq
  unfold Target.meetings at hq
  split at hq
  · rw [mem_singleton.mp hq]
    rfl
  · cases hq

/-- Every phi of the graph of a body has a value for each way into its join, unless nothing refers to it. -/
theorem build_phisComplete {r : Result} (hv : b.OnlyValues) (h : build b o = .ok r) :
    ∃ g, r.graph = some g ∧ g.PhisComplete := by
  obtain ⟨xs, es, ts, s, d, -, hf, hbad, hts, hd, hr⟩ := build_ok h
  have hctx : Context.OnlyValues ⟨b, o.loopAnalysis, b.localTypes⟩ := ⟨hv, badLocal?_eq_none.mp hbad⟩
  have hall := (codeAll_of_forest hf).2
  have hs := (decodes_of_evalAll hall hts).meets hctx rfl (fun j hj => absurd hj not_mem_nil)
    (entry_meets hctx.types o.loopAnalysis)
  rw [hr]
  cases hd with
  | ended => exact hs.phisComplete
  | nothing hl => exact (hs.emitOn hl (refers_return []) (forall_mem_nil _)).phisComplete
  | value hl _ ht =>
    refine (hs.emitOn hl (refers_return _) (forall_mem_singleton.mpr ?_)).phisComplete
    exact mem_given_node hl (mem_of_getLast? ht)

def threeWays : FunctionBody where
  signature := ⟨[.i32], [.i32]⟩
  code := [0x01, 0x03, 0x07, 0x00, 0x09, 0x01, 0x0e, 0x00, 0x07, 0x00, 0x09, 0x02, 0x0f, 0x00, 0x09, 0x05, 0x02,
    0x02, 0x07, 0x00, 0x00, 0x0f, 0x00, 0x5a, 0x0e, 0x00, 0x0e, 0x00]

theorem build_phisComplete_threeWays : ∃ r g, build threeWays {} = .ok r ∧ r.graph = some g ∧
      (g.node? 23).map Node.inputs = some [1, 1, 16, 12] ∧ g.PhisComplete := by
  have hv : threeWays.OnlyValues :=
    ⟨rfl, forall_mem_nil _, forall_mem_nil _, forall_mem_nil _⟩
  have hphi : (build threeWays {}).toOption.bind (fun r => r.graph.bind fun g => (g.node? 23).map Node.inputs) =
      some [1, 1, 16, 12] := by
    decide +kernel
  obtain ⟨r, hr, hphi⟩ := Option.bind_eq_some_iff.mp hphi
  have hr := toOption_eq_some.mp hr
  obtain ⟨g, hg, hc⟩ := build_phisComplete hv hr
  rw [hg] at hphi
  exact ⟨r, g, hr, hg, hphi, hc⟩

end Bodies

end ProtoWasm.Body
