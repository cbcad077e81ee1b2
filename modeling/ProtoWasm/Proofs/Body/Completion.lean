import ProtoWasm.Proofs.Body.Safety

/-! # Complete expressions

An expression that is complete was decoded as by recursion over its children, whatever waits on the stack and
whatever code follows. So where control gets to its end, it has a type that it can complete with, also in code that
is refused later on.
-/
namespace ProtoWasm.Body

open Body.Expr List

/-- The expressions on a stack have got their children by recursion, and no join on the way lacks a type. -/
inductive Fed (ctx : Context) : List Pending → State → Prop
  | nil {s} (hs : s.Settled) : Fed ctx [] s
  | cons {stack s s₁ s' x p p' es} (h : Fed ctx stack s) (he : enter ctx s x = .ok (.wait p s₁))
    (hes : ∀ e ∈ es, Shaped ctx.body e) (hf : ∀ fs, feed ctx (es ++ fs) p s₁ = feed ctx fs p' s')
    (ha : p'.arity = p.arity) (hd : p'.done.length = es.length) (hw : p'.Waiting ctx) (hs : s'.Settled) :
    Fed ctx (p' :: stack) s'

def Decoding (ctx : Context) (stack : List Pending) : Option Tree → State → Prop
  | none, s => Fed ctx stack s
  | some t, s => ∃ e s₁, Fed ctx stack s₁ ∧ Shaped ctx.body e ∧ eval ctx e s₁ = .ok (t, s)

variable {ctx : Context} {p p' : Pending} {s s' s₀ s₁ : State} {x : Instruction} {e : Expr} {es : List Expr} {t : Tree}
  {stack : List Pending} {i₀ i : Input} {root : Option Tree}

theorem Fed.settled (h : Fed ctx stack s) : s.Settled := by
  cases h <;> assumption

theorem feed_cons (ht : eval ctx e s = .ok (t, s₁)) (hr : reduce ctx (p.add [t]) s₁ = .ok (p', s')) (fs : List Expr) :
    feed ctx (e :: fs) p s = feed ctx fs p' s' := by
  unfold Pending.add at hr
  rw [feed, ht, ok_bind]
  dsimp only
  rw [hr]
  rfl

theorem Reduces.blocks_of_waiting (h : Reduces ctx p s p' s') (hp : p.Regular ctx) (hc : p.complete = false) :
    s'.blocks = s.blocks := by
  cases h with
  | wait | selectType | selectSame | setLocal => rfl
  | openChoice => exact branchOn_blocks _
  | closeIf _ _ _ hl => exact (leave_frame hl).1
  | otherwise _ _ _ hj | closeElse _ _ _ hj => exact (brings_of_bring hj).frame.1
  | select | setGlobal | growMemory => exact State.emitOn_blocks _
  | br hr ht =>
    have hd : p.done ≠ [] := fun hd => by rw [hd] at ht; cases ht
    rw [complete_of_single hp (by rw [Pending.wants, hr]; rfl) hd] at hc
    cases hc
  -- the others are reduced only when they are complete
  | _ => simp_all

/-- Wherever the decoder comes to, recursion comes to as well. -/
theorem Visits.decoding (hv : ctx.OnlyValues) (h : Visits ctx s₀ i₀ stack root s i) (h₀ : s₀.Settled) :
    Decoding ctx stack root s := by
  induction h with
  | start => exact .nil h₀
  | leaf _ _ _ he ih =>
    refine ⟨.node _ [], _, ih, ⟨arity_of_enter he, trivial⟩, ?_⟩
    rw [eval, he]
    rfl
  | wait _ _ _ he hp ih =>
    have hb := begins_of_enter he
    exact .cons ih he (forall_mem_nil _) (fun _ => rfl) rfl (congrArg length hb.done) (hb.waiting hp)
      (hb.settled ih.settled)
  | childless _ _ _ he hp hr ih =>
    refine ⟨.node _ [], _, ih, ⟨(arity_of_enter he).trans (congrArg some hp), trivial⟩, ?_⟩
    rw [eval, he, ok_bind]
    dsimp only
    rw [if_pos hp, hr]
    rfl
  | child _ hr hp ih =>
    -- what was fed before says nothing of the children to come, so that the new one goes to its end
    obtain ⟨e, s₁, hfed, he, ht⟩ := ih
    cases hfed with
    | cons hfed henter hes hf ha hd hw hs =>
      have hred := reduces_of_reduce (hw.1.add _) hr
      have hs₁ := ((decodes_of_eval he ht).settled hv hs).1
      refine .cons hfed henter (forall_mem_append.mpr ⟨hes, forall_mem_singleton.mpr he⟩) (fun fs => ?_)
        (by rwa [hred.frame]) ?_ (hred.waiting (hw.1.add _) hp) ?_
      · rw [append_assoc, hf, singleton_append, feed_cons ht hr]
      · rw [hred.frame, length_append, ← hd]
        exact length_append
      · exact hs₁.of_blocks (hred.blocks_of_waiting (hw.1.add _) (hred.complete_eq ▸ hp))
  | last _ hr hp ih =>
    obtain ⟨e, s₁, hfed, he, ht⟩ := ih
    cases hfed with
    | @cons _ _ _ _ x p₀ p₁ es hfed henter hes hf ha hd hw hs =>
      have hred := reduces_of_reduce (hw.1.add [_]) hr
      have hmissing : 0 < p₀.arity - es.length := by simpa [Pending.missing, ha, hd] using hw.2
      rw [hred.complete_eq] at hp
      have hle : p₀.arity ≤ es.length + 1 := by simpa [Pending.complete, ha, hd] using hp
      refine ⟨.node x (es ++ [e]), _, hfed, ⟨(arity_of_enter henter).trans (congrArg some ?_), ?_⟩, ?_⟩
      · rw [length_append, length_singleton]
        exact Nat.le_antisymm hle (Nat.lt_of_sub_pos hmissing)
      · exact shapedAll_iff.mpr (forall_mem_append.mpr ⟨hes, forall_mem_singleton.mpr he⟩)
      · rw [eval, henter, ok_bind]
        dsimp only
        rw [if_neg (by omega), hf, feed_cons ht hr]
        rfl
  | root _ ih =>
    obtain ⟨e, s₁, hfed, he, ht⟩ := ih
    exact .nil ((decodes_of_eval he ht).settled hv hfed.settled).1

/-- An expression is complete in a state while a body is decoded: the decoder is about to attach it, as
`attach_safely` and `step_safely` follow it. Nothing is complete if the locals are refused. -/
def Completes (b : FunctionBody) (o : Options) (graph : Option Graph) (t : Tree) (s : State) : Prop :=
  ¬ o.localLimit < b.localTypes.length ∧ badLocal? b.localTypes = none ∧
    ∃ stack i, Visits ⟨b, o.loopAnalysis, b.localTypes⟩ (.start b graph) b.input stack (some t) s i

theorem start_settled (b : FunctionBody) (graph : Option Graph) : (State.start b graph).Settled := by
  cases graph <;> exact fun _ => nofun

/-- Where control gets to the end of an expression, the expression never has the unreachable type. So a body that is
accepted ends with a value of the type that it declares, if it declares one and control gets to its end. -/
theorem completes_type_ne (b : FunctionBody) (o : Options) (graph : Option Graph) (hv : b.OnlyValues) :
    (∀ t s, Completes b o graph t s → s.env.live = true → t.type ≠ .unreachable) ∧
      ∀ r d, decodeWith b o graph = .ok r →
        run ⟨b, o.loopAnalysis, b.localTypes⟩ { state := .start b graph } b.input = .ok d →
        d.state.env.live = true → b.returnType ≠ .void → ∃ t, r.trees.getLast? = some t ∧ t.type = b.returnType := by
  refine ⟨fun t s ⟨_, hbad, stack, i, h⟩ hl => ?_, fun r d hr hrun hl hne => ?_⟩
  · have hctx : Context.OnlyValues ⟨b, o.loopAnalysis, b.localTypes⟩ := ⟨hv, badLocal?_eq_none.mp hbad⟩
    obtain ⟨e, s₁, hfed, he, ht⟩ := h.decoding hctx (start_settled b graph)
    exact ((decodes_of_eval he ht).settled hctx hfed.settled).2 hl t mem_cons_self
  · obtain ⟨xs, es, ts, s, d', hi, hf, hbad, hts, hfin, rfl⟩ := decodeWith_eq_ok hr
    have hctx : Context.OnlyValues ⟨b, o.loopAnalysis, b.localTypes⟩ := ⟨hv, badLocal?_eq_none.mp hbad⟩
    rw [run_of_forest _ hi hf (walk_of_run hrun).1, hts] at hrun
    cases hrun
    have htypes := ((decodes_of_evalAll (codeAll_of_forest hf).2 hts).settled hctx (start_settled b graph)).2 hl
    cases hfin with
    | ended hs => rw [hs] at hl; cases hl
    | nothing _ hvoid => exact absurd hvoid hne
    | @value t _ _ ht hm =>
      refine ⟨t, ht, ?_⟩
      simpa [typeMatches, htypes t (mem_of_getLast? ht), hne] using hm

/-- A block that is left from within, so that its last child is never got to. -/
def leaving : FunctionBody where
  signature := ⟨[], [.i32]⟩
  code := [0x01, 0x02, 0x06, 0x00, 0x09, 0x07, 0x09, 0x01]

theorem completes_type_ne_leaving :
    (∃ t s, Completes leaving {} none t s ∧ s.env.live = true ∧ t.type ≠ .unreachable) ∧
      ∃ r t, decodeWith leaving {} none = .ok r ∧ r.trees.getLast? = some t ∧ t.type = .i32 := by
  have hv : leaving.OnlyValues := ⟨rfl, forall_mem_nil _, forall_mem_nil _, forall_mem_nil _⟩
  obtain ⟨hne, hend⟩ := completes_type_ne leaving {} none hv
  constructor
  · have hbr : Visits ⟨leaving, false, []⟩ (.start leaving none) leaving.input _ (some _) _ _ :=
      .last (.leaf (.wait (.wait .start rfl rfl rfl nofun) rfl rfl rfl nofun) rfl rfl rfl) rfl rfl
    have h : Completes leaving {} none _ _ :=
      ⟨by decide, rfl, _, _, .last (.leaf (.child hbr rfl rfl) rfl rfl rfl) rfl rfl⟩
    exact ⟨_, _, h, rfl, hne _ _ h rfl⟩
  · have hok : (decodeWith leaving {} none).toOption.isSome = true := by decide +kernel
    have hlive : (run ⟨leaving, false, []⟩ { state := .start leaving none } leaving.input).toOption.map
        (·.state.env.live) = some true := by decide +kernel
    obtain ⟨r, hr⟩ := Option.isSome_iff_exists.mp hok
    obtain ⟨d, hd, hlive⟩ := Option.map_eq_some_iff.mp hlive
    have hr := toOption_eq_some.mp hr
    obtain ⟨t, ht, hτ⟩ := hend r d hr (toOption_eq_some.mp hd) hlive ValType.noConfusion
    exact ⟨r, t, hr, ht, hτ⟩

end ProtoWasm.Body
