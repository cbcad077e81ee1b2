import ProtoWasm.Proofs.Body.Reduction
import ProtoWasm.Proofs.Body.Syntax

/-! # Decoding by recursion

An expression can be decoded by recursion over its children, with the same beginnings and reductions
and without a stack. The decoder does the same on the listing of an expression, whatever waits on its
stack and whatever code follows.
-/
namespace ProtoWasm.Body

open Body.Expr List

mutual

def eval (ctx : Context) : Expr → State → Except Failure (Tree × State)
  | .node x cs, s => do
    match ← enter ctx s x with
    | .leaf t s => return (t, s)
    | .wait p s =>
      let (p, s) ← if p.arity = 0 then reduce ctx p s else feed ctx cs p s
      return (p.tree, s)

def feed (ctx : Context) : List Expr → Pending → State → Except Failure (Pending × State)
  | [], p, s => .ok (p, s)
  | e :: es, p, s => do
    let (t, s) ← eval ctx e s
    let (p, s) ← reduce ctx { p with done := p.done ++ [t] } s
    feed ctx es p s

end

def evalAll (ctx : Context) : List Expr → State → Except Failure (List Tree × State)
  | [], s => .ok ([], s)
  | e :: es, s => do
    let (t, s) ← eval ctx e s
    let (ts, s) ← evalAll ctx es s
    return (t :: ts, s)

def walk (ctx : Context) (d : Decoder) : List Instruction → Except Failure Decoder
  | [] => .ok d
  | x :: xs => do
    let d ← advance ctx { d with opcodes := d.opcodes + 1 } x
    walk ctx d xs

def Decoder.pass (d : Decoder) (e : Expr) : Decoder :=
  { d with
    opcodes := d.opcodes + e.code.length
    depth := max d.depth (d.stack.length + e.height) }

def Entry.arity : Entry → Nat
  | .leaf _ _ => 0
  | .wait p _ => p.arity

def Entry.state : Entry → State
  | .leaf _ s => s
  | .wait _ s => s

variable {ctx : Context} {x : Instruction} {es : List Expr} {xs : List Instruction} {b : FunctionBody}
  {i : Input} {s : State} {stack : List Pending} {d : Decoder} {o : Options} {graph : Option Graph}
  {r : Result} {p : Pending} {s' : State} {d' : Decoder}

theorem arity_of_enter {e : Entry} (h : enter ctx s x = .ok e) :
    ctx.body.arity? x = some e.arity := by
  simp only [enter] at h
  unfold FunctionBody.arity?
  split at h <;> (repeat' split at h) <;> cases h <;> simp_all [childCount, Entry.arity]

section Simulation

/-- The decoder does on the listing of an expression what recursion does on the expression. -/
def Simulated (ctx : Context) (e : Expr) : Prop :=
  ∀ (d : Decoder) (xs : List Instruction), Shaped ctx.body e → d.stack.length ≤ d.depth →
    walk ctx d (e.code ++ xs) = do
      let (t, s) ← eval ctx e d.state
      let d ← (d.pass e).push ctx s t
      walk ctx d xs

theorem push_cons (p : Pending) (stack : List Pending) (trees : List Tree) (s₀ s : State) (t : Tree)
    (n k : Nat) : (⟨p :: stack, trees, s₀, n, k⟩ : Decoder).push ctx s t =
      reduce ctx { p with done := p.done ++ [t] } s >>= fun (p, s) =>
        if p.complete then (⟨stack, trees, s, n, k⟩ : Decoder).push ctx s p.tree
        else .ok ⟨p :: stack, trees, s, n, k⟩ := by
  simp only [Decoder.push, attach, bind_assoc]
  congr 1
  apply funext
  rintro ⟨p₁, s₁⟩
  dsimp only
  split
  · rfl
  · simp [pure, Except.pure, bind, Except.bind]

theorem walk_children (he : ∀ e ∈ es, Simulated ctx e) (hs : ShapedAll ctx.body es)
    (hne : es ≠ []) (p : Pending) (hp : p.Regular ctx) (ha : p.done.length + es.length = p.arity)
    (stack : List Pending) (trees : List Tree) (s : State) (n k : Nat) (hk : stack.length < k)
    (xs : List Instruction) : walk ctx ⟨p :: stack, trees, s, n, k⟩ (codeAll es ++ xs) =
      feed ctx es p s >>= fun (p, s) =>
        (⟨stack, trees, s, n + (codeAll es).length,
          max k (stack.length + (heightAll es + 1))⟩ : Decoder).push ctx s p.tree >>= (walk ctx · xs) := by
  induction es generalizing p s n k with
  | nil => exact absurd rfl hne
  | cons e es ih =>
    obtain ⟨hse, hss⟩ := hs
    obtain ⟨hie, his⟩ := forall_mem_cons.mp he
    rw [codeAll, append_assoc, hie ⟨p :: stack, trees, s, n, k⟩ _ hse hk, feed, bind_assoc]
    congr 1
    apply funext
    rintro ⟨t, s₁⟩
    dsimp only [Decoder.pass]
    rw [push_cons, bind_assoc, bind_assoc]
    have hq : { p with done := p.done ++ [t] }.Regular ctx := hp
    cases hr : reduce ctx { p with done := p.done ++ [t] } s₁ with
    | error e => rfl
    | ok r =>
      obtain ⟨p₁, s₂⟩ := r
      have hred := reduces_of_reduce hq hr
      have hf := hred.frame
      have hd : p₁.done.length = p.done.length + 1 := by rw [hf]; simp
      have har : p₁.arity = p.arity := by rw [hf]
      simp only [length_cons] at ha
      rw [ok_bind, ok_bind]
      obtain rfl | hes := eq_or_ne es []
      · have hc : p₁.complete = true := by simp [Pending.complete, hd, har, ← ha]
        simp [hc, feed, ok_bind, codeAll, heightAll, Nat.add_assoc, Nat.add_comm 1]
      · have hl := length_pos_iff.mpr hes
        have hc : p₁.complete = false := by
          simp only [Pending.complete, hd, har, decide_eq_false_iff_not]
          omega
        have hm : max (max k (stack.length + 1 + e.height)) (stack.length + (heightAll es + 1)) =
            max k (stack.length + (heightAll (e :: es) + 1)) := by
          rw [heightAll]
          omega
        simp only [hc, Bool.false_eq_true, if_false, ok_bind]
        rw [ih his hss hes p₁ (hred.regular hq) (by omega) _ _ _ (by omega)]
        simp only [length_cons, length_append, Nat.add_assoc] at hm ⊢
        rw [hm]

theorem simulated (e : Expr) : Simulated ctx e := by
  induction e using Expr.induction with
  | h x cs ih =>
    intro d xs hs hk
    rw [code, cons_append, walk, eval, advance, bind_assoc, bind_assoc]
    cases he : enter ctx d.state x with
    | error e => rfl
    | ok e =>
      have ha := arity_of_enter he
      rw [hs.1, Option.some.injEq] at ha
      rw [ok_bind, ok_bind]
      cases e with
      | leaf t s =>
        obtain rfl : cs = [] := length_eq_zero_iff.mp ha
        simp [Decoder.pass, code, codeAll, height, pure, Except.pure, ok_bind, Nat.max_eq_left hk]
      | wait p s =>
        have hp : p.Regular ctx := (begins_of_enter he).regular
        have hd : p.done = [] := (begins_of_enter he).done
        have ha : cs.length = p.arity := ha
        dsimp only [Decoder.shift]
        split
        · rename_i h0
          obtain rfl : cs = [] := length_eq_zero_iff.mp (ha.trans h0)
          simp [Decoder.pass, code, codeAll, height, pure, Except.pure, ok_bind, Nat.max_eq_left hk]
        · rename_i h0
          have hne : cs ≠ [] := by
            rintro rfl
            exact h0 ha.symm
          have hm : max (max d.depth (d.stack.length + 1)) (d.stack.length + (heightAll cs + 1)) =
              max d.depth (d.stack.length + (node x cs).height) := by
            rw [height, if_neg (by simpa using hne)]
            omega
          rw [ok_bind, walk_children ih hs.2 hne p hp (by rw [hd, ha]; exact Nat.zero_add _) _ _ _ _ _
            (by omega), hm]
          simp only [Decoder.pass, code, length_cons, Nat.add_assoc, Nat.add_comm 1, bind_assoc]
          rfl

theorem walk_codeAll (hs : ShapedAll ctx.body es) (trees : List Tree) (s : State) (n k : Nat) :
    walk ctx ⟨[], trees, s, n, k⟩ (codeAll es) = evalAll ctx es s >>= fun (ts, s) =>
      .ok ⟨[], trees ++ ts, s, n + (codeAll es).length, max k (heightAll es)⟩ := by
  induction es generalizing trees s n k with
  | nil => simp [codeAll, walk, evalAll, ok_bind, heightAll]
  | cons e es ih =>
    rw [codeAll, simulated e _ (codeAll es) hs.1 (Nat.zero_le _), evalAll, bind_assoc]
    congr 1
    apply funext
    rintro ⟨t, s₁⟩
    have hp : (Decoder.pass ⟨[], trees, s, n, k⟩ e).push ctx s₁ t =
        .ok ⟨[], trees ++ [t], s₁, n + e.code.length, max k e.height⟩ := by
      simp [Decoder.push, Decoder.pass, attach, ok_bind, pure, Except.pure]
    dsimp only
    rw [hp, ok_bind, ih hs.2, bind_assoc]
    congr 1
    apply funext
    rintro ⟨ts, s₂⟩
    simp only [heightAll, length_append, Nat.add_assoc, Nat.max_assoc, append_assoc,
      singleton_append]
    rfl

end Simulation

section Demand

def Pending.missing (p : Pending) : Nat := p.arity - p.done.length

/-- The expressions that a stack still asks for: each expression on it becomes a child of the next. -/
def demand : List Pending → Nat
  | [] => 0
  | p :: rest => p.missing + (rest.map fun q => q.missing - 1).sum

def Pending.Waiting (ctx : Context) (p : Pending) : Prop := p.Regular ctx ∧ 0 < p.missing

theorem Begins.waiting (h : Begins ctx s x (.wait p s')) (hp : p.arity ≠ 0) : p.Waiting ctx := by
  refine ⟨h.regular, ?_⟩
  rw [Pending.missing, h.done]
  exact Nat.pos_of_ne_zero hp

theorem Reduces.waiting {p' : Pending} (h : Reduces ctx p s p' s') (hp : p.Regular ctx)
    (hc : p'.complete = false) : p'.Waiting ctx := by
  refine ⟨h.regular hp, Nat.sub_pos_of_lt ?_⟩
  simpa [Pending.complete] using hc

theorem sum_missing (hs : ∀ p ∈ stack, p.Waiting ctx) :
    (stack.map fun q => q.missing - 1).sum = demand stack - 1 := by
  cases stack with
  | nil => rfl
  | cons p rest =>
    have hp := (hs p mem_cons_self).2
    simp only [demand, map_cons, sum_cons]
    omega

theorem attach_demand {stack' : List Pending} {t : Tree} {root : Option Tree}
    (hs : ∀ p ∈ stack, p.Waiting ctx) (h : attach ctx stack s t = .ok (stack', s', root)) :
    (∀ p ∈ stack', p.Waiting ctx) ∧ demand stack ≤ demand stack' + 1 := by
  induction stack generalizing s t with
  | nil =>
    cases h
    exact ⟨hs, Nat.zero_le _⟩
  | cons p rest ih =>
    obtain ⟨hp, hrest⟩ := forall_mem_cons.mp hs
    obtain ⟨⟨p₁, s₁⟩, hr, h⟩ := bind_eq_ok.mp h
    have hq : { p with done := p.done ++ [t] }.Regular ctx := hp.1
    have hred := reduces_of_reduce hq hr
    have hm : p₁.missing = p.missing - 1 := by
      rw [hred.frame]
      simp only [Pending.missing, length_append, length_singleton]
      omega
    dsimp only at h
    split at h
    · rename_i hcomp
      obtain ⟨hs', hd⟩ := ih hrest h
      have hp₀ := hp.2
      have hp₁ : p₁.missing = 0 := Nat.sub_eq_zero_of_le (of_decide_eq_true hcomp)
      refine ⟨hs', ?_⟩
      rw [demand, sum_missing hrest]
      omega
    · rename_i hcomp
      cases h
      refine ⟨forall_mem_cons.mpr ⟨hred.waiting hq (by simpa using hcomp), hrest⟩, ?_⟩
      simp only [demand, hm]
      omega

theorem advance_demand {n : Nat} (hs : ∀ p ∈ d.stack, p.Waiting ctx)
    (hn : ctx.body.arity? x = some n) (h : advance ctx d x = .ok d') :
    (∀ p ∈ d'.stack, p.Waiting ctx) ∧ n ≤ demand d'.stack ∧
      demand d.stack + n ≤ demand d'.stack + 1 := by
  -- an expression without children is attached at once
  have hpush {d' : Decoder} {s : State} {t : Tree} (h : d.push ctx s t = .ok d') :
      (∀ p ∈ d'.stack, p.Waiting ctx) ∧ 0 ≤ demand d'.stack ∧
        demand d.stack + 0 ≤ demand d'.stack + 1 := by
    obtain ⟨⟨stack, s₁, root⟩, ha, h⟩ := bind_eq_ok.mp h
    cases h
    obtain ⟨hw, hd⟩ := attach_demand hs ha
    exact ⟨hw, Nat.zero_le _, hd⟩
  obtain ⟨e, he, h⟩ := bind_eq_ok.mp h
  have ha := arity_of_enter he
  rw [hn, Option.some.injEq] at ha
  subst ha
  cases e with
  | leaf t s => exact hpush h
  | wait p s =>
    have hb := begins_of_enter he
    dsimp only [Decoder.shift, Entry.arity] at h ⊢
    split at h
    · rename_i h0
      obtain ⟨⟨p₁, s₁⟩, _, h⟩ := bind_eq_ok.mp h
      rw [h0]
      exact hpush h
    · rename_i h0
      have hm : p.missing = p.arity := by rw [Pending.missing, hb.done]; rfl
      cases h
      refine ⟨forall_mem_cons.mpr ⟨hb.waiting h0, hs⟩, ?_, ?_⟩
      · rw [demand, hm]
        omega
      · rw [demand, hm, sum_missing hs]
        omega

/-- Code on which the decoder ends with nothing on its stack has a forest, with at least as many
expressions as the stack asked for. -/
theorem forest_of_walk (hs : ∀ p ∈ d.stack, p.Waiting ctx)
    (h : walk ctx d xs = .ok d') (hd : d'.stack = []) :
    ∃ es, forest ctx.body xs = some es ∧ demand d.stack ≤ es.length := by
  induction xs generalizing d with
  | nil =>
    cases h
    exact ⟨[], rfl, by rw [hd]; exact Nat.le_refl _⟩
  | cons x xs ih =>
    obtain ⟨d₁, h₁, h⟩ := bind_eq_ok.mp h
    obtain ⟨e, he, -⟩ := bind_eq_ok.mp h₁
    have hs' : ∀ p ∈ ({ d with opcodes := d.opcodes + 1 } : Decoder).stack, p.Waiting ctx := hs
    obtain ⟨hw, hn, hle⟩ := advance_demand hs' (arity_of_enter he) h₁
    obtain ⟨es, hf, hl⟩ := ih hw h
    refine ⟨_, forest_cons hf (arity_of_enter he) (by omega), ?_⟩
    dsimp only at hle
    rw [length_cons, length_drop]
    omega

end Demand

section Running

/-- No block of the code has more children than there are bytes after it, as they are counted. -/
def childrenFit (i : Input) : Bool :=
  match _hb : i.bytes with
  | [] => true
  | c :: rest =>
    match _ho : readOperands (⟨c⟩ : Opcode).form ⟨rest, i.offset + 1⟩ with
    | .error _ => true
    | .ok (ops, j) => (tooMany? ⟨i.offset, ⟨c⟩, ops⟩ j.remaining).isNone && childrenFit j
termination_by i.remaining
decreasing_by
  have h := shrinks_readOperands _ _ _ _ _ho
  simp only [Input.remaining] at h ⊢
  simp only [_hb, length_cons]
  omega

theorem childrenFit_of_nil (h : i.bytes = []) : childrenFit i = true := by
  unfold childrenFit
  split
  · rfl
  · rename_i h'
    cases h.symm.trans h'

theorem childrenFit_of_cons {c : UInt8} {rest : List UInt8} {ops : Operands} {j : Input} (h : i.bytes = c :: rest)
    (ho : readOperands (⟨c⟩ : Opcode).form ⟨rest, i.offset + 1⟩ = .ok (ops, j)) :
    childrenFit i = ((tooMany? ⟨i.offset, ⟨c⟩, ops⟩ j.remaining).isNone && childrenFit j) := by
  rw [childrenFit]
  split
  · rename_i h'
    cases h.symm.trans h'
  · rename_i h'
    cases h.symm.trans h'
    split <;> rename_i ho' <;> cases ho.symm.trans ho'
    rfl

theorem walk_of_run (h : run ctx d i = .ok d') :
    childrenFit i = true ∧ ∃ xs, instructions i = some xs ∧ walk ctx d xs = .ok d' := by
  fun_induction run ctx d i with
  | case1 d i hi => exact ⟨childrenFit_of_nil hi, [], instructions_of_nil hi, h⟩
  | case2 => cases h
  | case3 => cases h
  | case4 d i c rest hi op ops j ho d₁ hd ih =>
    obtain ⟨hfit, xs, hx, hw⟩ := ih h
    refine ⟨?_, ⟨i.offset, op, ops⟩ :: xs, ?_, ?_⟩
    · rw [childrenFit_of_cons hi ho, tooMany?_of_step hd, hfit]
      rfl
    · rw [instructions_of_cons hi, ho]
      exact congrArg (Option.map _) hx
    · rw [walk, advance_of_step hd]
      exact hw

theorem run_eq_walk (d : Decoder) (hi : instructions i = some xs) (hfit : childrenFit i = true) :
    run ctx d i = walk ctx d xs := by
  induction xs generalizing d i with
  | nil => rw [run_of_nil (bytes_of_instructions_nil hi), walk]
  | cons x xs ih =>
    obtain ⟨c, rest, ops, j, hb, ho, rfl, hj⟩ := instructions_eq_cons hi
    rw [childrenFit_of_cons hb ho, Bool.and_eq_true, Option.isNone_iff_eq_none] at hfit
    rw [run_of_cons hb, ho, walk]
    dsimp only [step]
    rw [hfit.1]
    congr 1
    funext d
    exact ih d hj hfit.2

theorem run_of_forest (s : State) (hi : instructions i = some xs) (hf : forest ctx.body xs = some es)
    (hfit : childrenFit i = true) : run ctx { state := s } i = evalAll ctx es s >>= fun (ts, s) =>
      .ok ⟨[], ts, s, xs.length, heightAll es⟩ := by
  obtain ⟨rfl, hs⟩ := codeAll_of_forest hf
  rw [run_eq_walk _ hi hfit, walk_codeAll hs]
  simp only [nil_append, Nat.zero_add, Nat.zero_max]

theorem forest_of_run (h : run ctx { state := s } i = .ok d) (hd : d.stack = []) :
    childrenFit i = true ∧ ∃ xs es, instructions i = some xs ∧ forest ctx.body xs = some es := by
  obtain ⟨hfit, xs, hx, hw⟩ := walk_of_run h
  obtain ⟨es, hf, -⟩ := forest_of_walk (forall_mem_nil _) hw hd
  exact ⟨hfit, xs, es, hx, hf⟩

def State.start (b : FunctionBody) : Option Graph → State
  | none => { env := { reach := .once } }
  | some g => { env := (entryEnv b g).1, graph := some (entryEnv b g).2 }

def State.entry (b : FunctionBody) : State :=
  { env := (entryEnv b { signature := b.signature }).1
    graph := some (entryEnv b { signature := b.signature }).2 }

theorem decodeWith_eq_ok (h : decodeWith b o graph = .ok r) :
    ∃ xs es ts s d, instructions b.input = some xs ∧ forest b xs = some es ∧ badLocal? b.localTypes = none ∧
      evalAll ⟨b, o.loopAnalysis, b.localTypes⟩ es (.start b graph) = .ok (ts, s) ∧
      Finishes ⟨b, o.loopAnalysis, b.localTypes⟩ ⟨[], ts, s, xs.length, heightAll es⟩ d ∧
      r = ⟨ts, b.returnType, xs.length, heightAll es, d.state.graph⟩ := by
  unfold decodeWith at h
  dsimp only at h
  split at h
  · cases h
  · split at h
    · cases h
    · rename_i hlocal
      obtain ⟨d, hrun, h⟩ := bind_eq_ok.mp h
      obtain ⟨d', hfin, h⟩ := bind_eq_ok.mp h
      cases h
      obtain ⟨hstack, hfin⟩ := finishes_of_finish hfin
      obtain ⟨hfit, xs, es, hi, hf⟩ := forest_of_run hrun hstack
      have hrun : run ⟨b, o.loopAnalysis, b.localTypes⟩ { state := .start b graph } b.input = .ok d := by
        cases graph <;> exact hrun
      rw [run_of_forest _ hi hf hfit] at hrun
      obtain ⟨⟨ts, s⟩, hts, hd⟩ := bind_eq_ok.mp hrun
      cases hd
      refine ⟨xs, es, ts, s, d', hi, hf, hlocal, hts, hfin, ?_⟩
      cases hfin <;> rfl

theorem build_ok (h : build b o = .ok r) :
    ∃ xs es ts s d, instructions b.input = some xs ∧ forest b xs = some es ∧ badLocal? b.localTypes = none ∧
      evalAll ⟨b, o.loopAnalysis, b.localTypes⟩ es (.entry b) = .ok (ts, s) ∧
      Finishes ⟨b, o.loopAnalysis, b.localTypes⟩ ⟨[], ts, s, xs.length, heightAll es⟩ d ∧
      r.graph = d.state.graph := by
  obtain ⟨xs, es, ts, s, d, hi, hf, hlocal, hts, hfin, rfl⟩ := decodeWith_eq_ok h
  exact ⟨xs, es, ts, s, d, hi, hf, hlocal, hts, hfin, rfl⟩

end Running

end ProtoWasm.Body
