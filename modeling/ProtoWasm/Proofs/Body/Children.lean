import ProtoWasm.Proofs.Body.Evaluation
import ProtoWasm.Proofs.Body.Joining

/-! # Children in order

What the decoding of an expression comes to, in terms of the decoding of its children. Most
expressions decode all their children before they do anything; alternatives decide between two of them
after the condition, and a selection settles its type on the way.
-/
namespace ProtoWasm

theorem toOption_eq_some {ε α : Type} {x : Except ε α} {a : α} : x.toOption = some a ↔ x = .ok a := by
  cases x <;> simp [Except.toOption]

namespace Body

open Body.Expr List

variable {ctx : Context} {p p' : Pending} {s s' s₁ : State} {cs es : List Expr} {x : Instruction}
  {ts : List Tree} {w : Option ValType} {ws : List (Option ValType)} {t : Tree} {y c a e : Expr}

theorem toOption_bind {α β : Type} (x : Except Failure α) (f : α → Except Failure β) :
    (x >>= f).toOption = x.toOption.bind fun a => (f a).toOption := by
  cases x <;> rfl

def fits (w : Option ValType) (t : Tree) : Bool := w.all fun τ => typeMatches τ t.type

def fitAll : List (Option ValType) → List Tree → Bool
  | w :: ws, t :: ts => fits w t && fitAll ws ts
  | _, _ => true

@[simp] theorem fitAll_nil (ws : List (Option ValType)) : fitAll ws [] = true := by cases ws <;> rfl

def Pending.add (p : Pending) (ts : List Tree) : Pending := { p with done := p.done ++ ts }

@[simp] theorem Pending.add_done (ts : List Tree) : (p.add ts).done = p.done ++ ts := rfl

@[simp] theorem Pending.add_arity (ts : List Tree) : (p.add ts).arity = p.arity := rfl

@[simp] theorem Pending.add_rule (ts : List Tree) : (p.add ts).rule = p.rule := rfl

@[simp] theorem Pending.add_wants (ts : List Tree) : (p.add ts).wants ctx = p.wants ctx := rfl

theorem Pending.Regular.add (hp : p.Regular ctx) (ts : List Tree) : (p.add ts).Regular ctx := hp

theorem Pending.add_add (ts us : List Tree) : (p.add ts).add us = p.add (ts ++ us) := by
  simp only [Pending.add, append_assoc]

theorem Reduces.lastFits (h : Reduces ctx p s p' s') (hr : p.rule.patient = true) :
    p.LastFits ctx := by
  -- a type is wanted of one child only, and it was checked
  have one {τ : ValType} {t : Tree} (hd : p.done.getLast? = some t) (hm : typeMatches τ t.type = true)
      (hw : ∀ τ', some τ' ∈ p.wants ctx → τ' = τ) : p.LastFits ctx :=
    lastFits_of_last (checkLast_eq_ok.mpr ⟨hd, hm⟩) fun τ' hτ => hw τ' (mem_of_getElem? hτ)
  cases h with
  | wait _ _ hl | ret _ _ hl | call _ _ hl | callIndirect _ _ hl | unop _ _ hl | binop _ _ hl
  | idle _ _ hl | load _ _ hl | store _ _ hl => exact hl
  | closeBlock h | closeLoop h => exact lastFits_of_replicate (by rw [Pending.wants, h])
  | br h => exact lastFits_of_replicate (n := 1) (by rw [Pending.wants, h]; rfl)
  | brIf h _ _ hd hm | brTable h _ _ hd hm =>
    exact one hd hm fun τ' hτ => by simpa [Pending.wants, h] using hτ
  | setLocal h hd hm | setGlobal h hd hm | growMemory h hd hm =>
    exact one hd hm fun τ' hτ => by simpa [Pending.wants, h] using hτ
  | openChoice h => rcases h with h | h <;> rw [h] at hr <;> cases hr
  | closeIf h | otherwise h | closeElse h | selectType h | selectSame h | select h =>
    rw [h] at hr
    cases hr

theorem complete_of_single (hp : p.Regular ctx) (hw : (p.wants ctx).length = 1) (hd : p.done ≠ []) :
    p.complete = true := by
  have ha : p.arity = 1 := hp.symm.trans hw
  have hl := length_pos_iff.mpr hd
  simp only [Pending.complete, ha, decide_eq_true_eq]
  omega

theorem checkLast_of_lastFits {ts : List ValType} (hw : p.wants ctx = ts.map some) (hp : p.Regular ctx)
    (ha : p.done.length ≤ p.arity) (hd : p.done ≠ []) (hl : p.LastFits ctx) :
    ∃ τ t, expectedAt p ts (p.done.length - 1) = .ok τ ∧ checkLast p τ = .ok t := by
  have hlen : ts.length = p.arity := by rw [← hp, hw, length_map]
  have hpos := length_pos_iff.mpr hd
  have hi : p.done.length - 1 < ts.length := by omega
  have hg : ts[p.done.length - 1]? = some ts[p.done.length - 1] := getElem?_eq_getElem hi
  have ht : p.done.getLast? = some (p.done.getLast hd) := getLast?_eq_some_getLast hd
  refine ⟨_, _, expectedAt_eq_ok.mpr hg, checkLast_eq_ok.mpr ⟨ht, hl _ _ ht ?_⟩⟩
  rw [hw, getElem?_map, hg]
  rfl

/-- An expression that does nothing before its last child only checks the ones before. -/
theorem reduce_patient (hr : p.rule.patient = true) (hp : p.Regular ctx) (hc : p.complete = false)
    (hd : p.done ≠ []) (hl : p.LastFits ctx) : reduce ctx p s = .ok (p, s) := by
  have single (hw : (p.wants ctx).length = 1) : reduce ctx p s = .ok (p, s) := by
    rw [complete_of_single hp hw hd] at hc
    cases hc
  have hlt : p.done.length < p.arity := by simpa [Pending.complete] using hc
  unfold reduce
  cases h : p.rule with
  | block | loop => simp [hc]
  | ifThen | ifElse | select => rw [h] at hr; cases hr
  | br | setLocal | setGlobal | growMemory =>
    have hs := single (by rw [Pending.wants, h]; rfl)
    unfold reduce at hs
    rwa [h] at hs
  | brIf => simp [reduceBrIf, hc, pure, Except.pure]
  | brTable => simp [reduceBrTable, hc, pure, Except.pure]
  | ret =>
    obtain ⟨τ, t, he, ht⟩ := checkLast_of_lastFits (by rw [Pending.wants, h]) hp (Nat.le_of_lt hlt) hd hl
    simp [reduceReturn, he, ht, hc, ok_bind, pure, Except.pure]
  | call function sig =>
    obtain ⟨τ, t, he, ht⟩ := checkLast_of_lastFits (by rw [Pending.wants, h]) hp (Nat.le_of_lt hlt) hd hl
    simp [reduceCall, he, ht, hc, hd, ok_bind, pure, Except.pure]
  | callIndirect signature sig =>
    have hw : p.wants ctx = (ValType.i32 :: sig.params).map some := by rw [Pending.wants, h]; rfl
    obtain ⟨τ, t, he, ht⟩ := checkLast_of_lastFits hw hp (Nat.le_of_lt hlt) hd hl
    simp [reduceCallIndirect, he, ht, hc, ok_bind, pure, Except.pure]
  | numeric sig =>
    obtain ⟨τ, t, he, ht⟩ := checkLast_of_lastFits (by rw [Pending.wants, h]) hp (Nat.le_of_lt hlt) hd hl
    simp [reduceNumeric, he, ht, hc, ok_bind, pure, Except.pure]
  | access a offset =>
    have hw : p.wants ctx = some .i32 :: if a.store then [some a.type] else [] := by rw [Pending.wants, h]
    have ht : p.done.getLast? = some (p.done.getLast hd) := getLast?_eq_some_getLast hd
    have hlen : p.done.length = 1 := by
      have hpos := length_pos_iff.mpr hd
      have ha : p.arity ≤ 2 := by
        rw [← hp, hw]
        split <;> simp
      omega
    have hm : typeMatches .i32 (p.done.getLast hd).type = true := hl _ _ ht (by simp [hw, hlen])
    simp [reduceAccess, checkLast_eq_ok.mpr ⟨ht, hm⟩, hlen, hc, ok_bind, pure, Except.pure]

theorem lastFits_add (hw : (p.wants ctx).drop p.done.length = w :: ws) :
    (p.add [t]).LastFits ctx ↔ fits w t = true := by
  have hg : (p.wants ctx)[p.done.length]? = some w := by
    rw [← head?_drop, hw]
    rfl
  simp only [Pending.LastFits, Pending.add_wants, Pending.add_done, getLast?_concat,
    length_append, length_singleton, Nat.add_sub_cancel, hg, fits, Option.some.injEq]
  cases w <;> simp

theorem reduce_add_of_not_fits (hr : p.rule.patient = true) (hp : p.Regular ctx)
    (hw : (p.wants ctx).drop p.done.length = w :: ws) (hf : ¬fits w t = true) :
    (reduce ctx (p.add [t]) s).toOption = none := by
  have hqr : (p.add [t]).rule.patient = true := hr
  have hqp : (p.add [t]).Regular ctx := hp
  refine Option.eq_none_iff_forall_not_mem.mpr fun ⟨p₁, s₁⟩ h => hf ((lastFits_add hw).mp ?_)
  exact (reduces_of_reduce hqp (toOption_eq_some.mp h)).lastFits hqr

/-- An expression that does nothing before its last child decodes its children first. -/
theorem feed_patient (hr : p.rule.patient = true) (hp : p.Regular ctx) (hne : cs ≠ [])
    (ha : p.done.length + cs.length = p.arity) :
    (feed ctx cs p s).toOption = (evalAll ctx cs s).toOption.bind fun (ts, s₁) =>
      if fitAll ((p.wants ctx).drop p.done.length) ts then (reduce ctx (p.add ts) s₁).toOption
      else none := by
  induction cs generalizing p s with
  | nil => exact absurd rfl hne
  | cons c cs ih =>
    have hlt : p.done.length < (p.wants ctx).length := by
      rw [hp, ← ha, length_cons]
      omega
    have hw := drop_eq_getElem_cons hlt
    simp only [feed, evalAll, toOption_bind, Option.bind_assoc]
    congr 1
    apply funext
    rintro ⟨t, s₁⟩
    have hqr : (p.add [t]).rule.patient = true := hr
    have hqp : (p.add [t]).Regular ctx := hp
    have hqa : (p.add [t]).done.length + cs.length = (p.add [t]).arity := by
      simp only [Pending.add_done, Pending.add_arity, length_append, length_cons,
        length_nil] at ha ⊢
      omega
    change ((reduce ctx (p.add [t]) s₁).toOption.bind fun r => (feed ctx cs r.1 r.2).toOption) =
      (evalAll ctx cs s₁).toOption.bind fun r =>
        if fitAll ((p.wants ctx).drop p.done.length) (t :: r.1) then
          (reduce ctx (p.add (t :: r.1)) r.2).toOption
        else none
    simp only [hw, fitAll]
    by_cases hf : fits (p.wants ctx)[p.done.length] t = true
    · simp only [hf, Bool.true_and]
      obtain rfl | hcs := eq_or_ne cs []
      · change ((reduce ctx (p.add [t]) s₁).toOption.bind fun r => some r) =
          if fitAll _ [] then (reduce ctx (p.add [t]) s₁).toOption else none
        rw [fitAll_nil, if_pos rfl, Option.bind_fun_some]
      · have hc : (p.add [t]).complete = false := by
          have := length_pos_iff.mpr hcs
          simp only [Pending.complete, decide_eq_false_iff_not]
          omega
        rw [reduce_patient hqr hqp hc (by simp) ((lastFits_add hw).mpr hf)]
        have h := ih (s := s₁) hqr hqp hcs hqa
        simp only [Pending.add_add, Pending.add_wants, Pending.add_done, length_append,
          length_singleton, singleton_append] at h
        exact h
    · rw [reduce_add_of_not_fits hr hp hw hf]
      simp [hf]

theorem eval_wait (he : enter ctx s x = .ok (.wait p s₁)) (ha : p.arity ≠ 0) :
    (eval ctx (.node x cs) s).toOption = (feed ctx cs p s₁).toOption.map fun r => (r.1.tree, r.2) := by
  simp only [eval, he, ok_bind, if_neg ha, toOption_bind, Option.map_eq_bind]
  rfl

theorem eval_patient
    (he : enter ctx s x = .ok (.wait p s₁)) (hr : p.rule.patient = true) (hl : cs.length = p.arity) :
    (eval ctx (.node x cs) s).toOption = (evalAll ctx cs s₁).toOption.bind fun (ts, s₂) =>
      if fitAll (p.wants ctx) ts then (reduce ctx (p.add ts) s₂).toOption.map fun r => (r.1.tree, r.2)
      else none := by
  have hb := begins_of_enter he
  have hd : p.done = [] := hb.done
  have hw : (p.wants ctx).drop p.done.length = p.wants ctx := by rw [hd]; rfl
  by_cases h0 : p.arity = 0
  · obtain rfl : cs = [] := length_eq_zero_iff.mp (hl.trans h0)
    have hn : p.add [] = p := by simp only [Pending.add, append_nil]
    have hz : (evalAll ctx [] s₁).toOption = some ([], s₁) := rfl
    simp only [eval, he, ok_bind, h0, if_true, toOption_bind, hz, Option.bind_some, fitAll_nil, hn,
      Option.map_eq_bind]
    rfl
  · have hne : cs ≠ [] := by
      rintro rfl
      exact h0 hl.symm
    have ha : p.done.length + cs.length = p.arity := by rw [hd, hl]; exact Nat.zero_add _
    rw [eval_wait he h0, feed_patient hr hb.regular hne ha, hw, Option.map_bind]
    congr 1
    apply funext
    rintro ⟨ts, s₂⟩
    dsimp only [Function.comp]
    split <;> rfl

def State.choose (s : State) (cond : Tree) : State :=
  { (branchOn s cond).2.2 with
    env := (branchOn s cond).1
    choices := ⟨(branchOn s cond).2.1, { env := .unreached }⟩ :: s.choices }

section Alternatives

variable {c t e : Tree} {top : Choice} {rest : List Choice}

theorem reduce_condition (hr : p.rule = .ifThen ∨ p.rule = .ifElse) (hd : p.done = [t]) :
    (reduce ctx p s).toOption = if typeMatches .i32 t.type then some (p, s.choose t) else none := by
  have ho : (openChoice p s).toOption = if typeMatches .i32 t.type then some (s.choose t) else none := by
    unfold openChoice checkLast
    simp only [hd, getLast?_singleton]
    split
    · rw [ok_bind, State.choose, branchOn_choices]
      rfl
    · rfl
  have hb : (reduce ctx p s).toOption = (openChoice p s).toOption.bind fun s => some (p, s) := by
    unfold reduce
    rcases hr with hr | hr <;> simp only [hr, reduceIf, reduceIfElse, hd, length_singleton] <;>
      exact toOption_bind _ _
  rw [hb, ho]
  split <;> rfl

theorem reduce_ifThen (hr : p.rule = .ifThen) (hd : p.done = [c, t]) (hs : s.choices = top :: rest) :
    reduce ctx p s = leave ctx p s top.otherwise >>= fun (env, s) =>
      .ok (p, { s with env, choices := rest }) := by
  unfold reduce
  simp only [hr, reduceIf, hd, length_cons, length_nil, hs]
  rfl

theorem reduce_otherwise (hr : p.rule = .ifElse) (hd : p.done = [c, t]) (hs : s.choices = top :: rest) :
    reduce ctx p s = bring ctx p s top.join t >>= fun (j, s) =>
      .ok (p, { s with env := top.otherwise, choices := ⟨top.otherwise, j⟩ :: rest }) := by
  have hl : lastChild p = .ok t := lastChild_eq_ok.mpr (by rw [hd]; rfl)
  unfold reduce
  simp only [hr, reduceIfElse, hd, length_cons, length_nil, hs, hl]
  rfl

theorem reduce_ifElse (hr : p.rule = .ifElse) (hd : p.done = [c, t, e]) (hs : s.choices = top :: rest) :
    reduce ctx p s = bring ctx p s top.join e >>= fun (j, s) =>
      .ok ({ p with type := j.type, node := j.node }, { s with env := j.env, choices := rest }) := by
  have hl : lastChild p = .ok e := lastChild_eq_ok.mpr (by rw [hd]; rfl)
  unfold reduce
  simp only [hr, reduceIfElse, hd, length_cons, length_nil, hs, hl]
  rfl

/-- An alternative decodes its first arm once its condition has the right type. -/
theorem feed_choice {x : Expr} (hr : p.rule = .ifThen ∨ p.rule = .ifElse) (hd : p.done = []) :
    (feed ctx (x :: y :: es) p s).toOption =
      (eval ctx x s).toOption.bind fun (c, s) => if typeMatches .i32 c.type then
        (eval ctx y (s.choose c)).toOption.bind fun (t, s) =>
          (reduce ctx (p.add [c, t]) s).toOption.bind fun (p, s) => (feed ctx es p s).toOption
      else none := by
  obtain ⟨op, offset, type, node, rule, arity, done⟩ := p
  obtain rfl : done = [] := hd
  simp only [feed, toOption_bind, nil_append]
  congr 1
  apply funext
  rintro ⟨c, s₁⟩
  dsimp only
  rw [reduce_condition (p := ⟨op, offset, type, node, rule, arity, [c]⟩) hr rfl]
  split <;> rfl

end Alternatives

section Selection

variable {a b c : Tree}

theorem reduce_select_first (hr : p.rule = .select) (hd : p.done = [a]) :
    (reduce ctx p s).toOption = if a.type = .void then none else some ({ p with type := a.type }, s) := by
  have hl : lastChild p = .ok a := lastChild_eq_ok.mpr (by rw [hd]; rfl)
  unfold reduce
  simp only [hr, reduceSelect, selectType, hd, length_singleton, hl, ok_bind]
  split <;> rfl

theorem reduce_select_second (hr : p.rule = .select) (hd : p.done = [a, b]) :
    (reduce ctx p s).toOption =
      if p.type = .unreachable then if b.type = .void then none else some ({ p with type := b.type }, s)
      else if typeMatches p.type b.type then some (p, s) else none := by
  have hl : lastChild p = .ok b := lastChild_eq_ok.mpr (by rw [hd]; rfl)
  unfold reduce
  simp only [hr, reduceSelect, selectType, checkLast, hd, length_cons, length_nil, hl, ok_bind,
    getLast?_cons_cons, getLast?_singleton]
  split
  · split <;> rfl
  · split <;> rfl

theorem reduce_select_third (hr : p.rule = .select) (hd : p.done = [a, b, c]) :
    (reduce ctx p s).toOption =
      if typeMatches .i32 c.type then
        some ({ p with node := (s.emitOn fun g ch => emitSelect g ch p.type c.node a.node b.node).1 },
          (s.emitOn fun g ch => emitSelect g ch p.type c.node a.node b.node).2)
      else none := by
  have ha : child p 0 = .ok a := child_eq_ok.mpr (by rw [hd]; rfl)
  have hb : child p 1 = .ok b := child_eq_ok.mpr (by rw [hd]; rfl)
  unfold reduce
  simp only [hr, reduceSelect, checkLast, hd, length_cons, length_nil, ha, hb, ok_bind,
    getLast?_cons_cons, getLast?_singleton]
  split <;> rfl

def selectedType (a b : ValType) : Option ValType :=
  if a = .void then none
  else if a = .unreachable then if b = .void then none else some b
  else if typeMatches a b then some a else none

def selected (p : Pending) (s : State) (a b c : Tree) (τ : ValType) : Pending × State :=
  ({ p.add [a, b, c] with
      type := τ
      node := (s.emitOn fun g ch => emitSelect g ch τ c.node a.node b.node).1 },
    (s.emitOn fun g ch => emitSelect g ch τ c.node a.node b.node).2)

theorem feed_select {x z : Expr} (hr : p.rule = .select) (hd : p.done = []) :
    (feed ctx [x, y, z] p s).toOption =
      (eval ctx x s).toOption.bind fun (a, s) => (eval ctx y s).toOption.bind fun (b, s) =>
        (eval ctx z s).toOption.bind fun (c, s) => (selectedType a.type b.type).bind fun τ =>
          if typeMatches .i32 c.type then some (selected p s a b c τ) else none := by
  obtain ⟨op, offset, type, node, rule, arity, done⟩ := p
  obtain rfl : rule = .select := hr
  obtain rfl : done = [] := hd
  simp only [feed, toOption_bind, nil_append]
  congr 1
  apply funext
  rintro ⟨a, s₁⟩
  -- the state does not change before the last operand, and the type only as the operands say
  have hlast (τ : ValType) (b : Tree) (s : State) :
      ((eval ctx z s).toOption.bind fun r =>
        (reduce ctx ⟨op, offset, τ, node, .select, arity, [a, b, r.1]⟩ r.2).toOption.bind some) =
      (eval ctx z s).toOption.bind fun r =>
        if typeMatches .i32 r.1.type then
          some (selected ⟨op, offset, type, node, .select, arity, []⟩ r.2 a b r.1 τ)
        else none := by
    congr 1
    apply funext
    rintro ⟨c, s₃⟩
    rw [reduce_select_third rfl rfl, Option.bind_fun_some]
    rfl
  dsimp only
  rw [reduce_select_first rfl rfl]
  by_cases hv : a.type = .void
  · simp [selectedType, hv]
  · simp only [hv, if_false, Option.bind_some]
    congr 1
    apply funext
    rintro ⟨b, s₂⟩
    dsimp only [cons_append, nil_append]
    rw [reduce_select_second rfl rfl]
    simp only [selectedType, hv, if_false]
    by_cases hu : a.type = .unreachable
    · simp only [hu, if_true]
      split
      · simp
      · exact hlast b.type b s₂
    · simp only [hu, if_false]
      split
      · exact hlast a.type b s₂
      · simp

end Selection

theorem evalAll_length (h : evalAll ctx es s = .ok (ts, s')) : ts.length = es.length := by
  induction es generalizing s ts with
  | nil =>
    cases h
    rfl
  | cons e es ih =>
    obtain ⟨⟨t, s₁⟩, -, h⟩ := bind_eq_ok.mp h
    obtain ⟨⟨ts', s₂⟩, hts, h⟩ := bind_eq_ok.mp h
    cases h
    rw [length_cons, length_cons, ih hts]

theorem Begins.add_done (h : Begins ctx s x (.wait p s')) (ts : List Tree) : (p.add ts).done = ts := by
  simp [h.done]

/-- The rules of expressions that are decoded after all their children, from where they end. -/
def Rule.ordinary : Rule → Bool
  | .block | .loop | .ifThen | .ifElse | .select => false
  | _ => true

inductive Decodes (ctx : Context) : List Expr → State → List Tree → State → Prop
  | nil (s : State) : Decodes ctx [] s [] s
  | cons {e : Expr} {es : List Expr} {t : Tree} {ts : List Tree} {s s₁ s' : State}
    (he : Decodes ctx [e] s [t] s₁) (hes : Decodes ctx es s₁ ts s') : Decodes ctx (e :: es) s (t :: ts) s'
  | leaf {x : Instruction} {t : Tree} {s s' : State} (hb : Begins ctx s x (.leaf t s')) :
    Decodes ctx [.node x []] s [t] s'
  | block {x : Instruction} {cs : List Expr} {p : Pending} {isLoop : Bool} {t : Tree} {ts : List Tree}
    {heads rest : List Target} {j j' : Join} {s s₁ s₂ : State} (hx : x.conduct = .block isLoop)
    (hcs : Decodes ctx cs (openBlock ctx s x.offset isLoop) ts s₁) (ht : ts.getLast? = some t)
    (hh : heads.length = if isLoop then 1 else 0) (hb : s₁.blocks = heads ++ .exit j :: rest)
    (hj : Brings ctx p { s₁ with blocks := .exit j :: rest } j t j' s₂) :
    Decodes ctx [.node x cs] s [{ p with type := j'.type, node := j'.node }.tree]
      { s₂ with env := j'.env, blocks := rest }
  | operation {x : Instruction} {cs : List Expr} {p p' : Pending} {ts : List Tree} {s s₁ s' : State}
    (hb : Begins ctx s x (.wait p s)) (hr : p.rule.ordinary = true) (hcs : Decodes ctx cs s ts s₁)
    (hf : fitAll (p.wants ctx) ts = true) (hl : ts.length = p.arity) (hc : (p.add ts).complete = true)
    (h : Reduces ctx (p.add ts) s₁ p' s') : Decodes ctx [.node x cs] s [p'.tree] s'
  | ifThen {x : Instruction} {c a : Expr} {tc ta : Tree} {s s₁ s₂ s₃ : State} {env : Env}
    (hx : x.conduct = .ifThen) (hc : Decodes ctx [c] s [tc] s₁) (ht : typeMatches .i32 tc.type = true)
    (ha : Decodes ctx [a] (s₁.choose tc) [ta] s₂)
    (hl : leave ctx ((x.await .ifThen .void 2).add [tc, ta]) s₂ (branchOn s₁ tc).2.1 = .ok (env, s₃)) :
    Decodes ctx [.node x [c, a]] s [((x.await .ifThen .void 2).add [tc, ta]).tree]
      { s₃ with env, choices := s₁.choices }
  | ifElse {x : Instruction} {p : Pending} {c a e : Expr} {tc ta te : Tree} {s s₁ s₂ s₃ s₄ s₅ : State}
    {j j' : Join} (hx : x.conduct = .ifElse) (hc : Decodes ctx [c] s [tc] s₁)
    (ht : typeMatches .i32 tc.type = true) (ha : Decodes ctx [a] (s₁.choose tc) [ta] s₂)
    (hj : Brings ctx (p.add [tc, ta]) s₂ { env := .unreached } ta j s₃)
    (he : Decodes ctx [e] { s₃ with
      env := (branchOn s₁ tc).2.1
      choices := ⟨(branchOn s₁ tc).2.1, j⟩ :: s₁.choices } [te] s₄)
    (hj' : Brings ctx (p.add [tc, ta, te]) s₄ j te j' s₅) :
    Decodes ctx [.node x [c, a, e]] s [{ p.add [tc, ta, te] with type := j'.type, node := j'.node }.tree]
      { s₅ with env := j'.env, choices := s₁.choices }
  | select {x : Instruction} {p : Pending} {cs : List Expr} {ta tb tc : Tree} {s s₁ : State} {τ : ValType}
    (hx : x.conduct = .pass) (hcs : Decodes ctx cs s [ta, tb, tc] s₁)
    (hτ : selectedType ta.type tb.type = some τ) (ht : typeMatches .i32 tc.type = true) :
    Decodes ctx [.node x cs] s [(selected p s₁ ta tb tc τ).1.tree] (selected p s₁ ta tb tc τ).2

theorem openBlock_choices (offset : Int) (isLoop : Bool) :
    (openBlock ctx s offset isLoop).choices = s.choices := by
  unfold openBlock
  split
  · rfl
  · dsimp only
    split
    · rfl
    · split <;> rfl

theorem Begins.choices {e : Entry} (h : Begins ctx s x e) : e.state.choices = s.choices := by
  cases h with
  | block | loop =>
    dsimp only [Entry.state]
    exact openBlock_choices _ _
  | retNothing | getGlobal | unreachable => exact State.emitOn_choices _
  | constant => exact State.emit_choices _
  | _ => rfl

theorem Reduces.choices (h : Reduces ctx p s p' s') (hr : p.rule.patient = true) :
    s'.choices = s.choices := by
  cases h with
  | wait | idle | setLocal | selectType | selectSame => rfl
  | closeBlock _ _ _ _ hj | closeLoop _ _ _ _ hj => exact (brings_of_bring hj).frame.2
  | br _ _ h => exact (breaks_of_breakTo h).choices
  | brIf _ _ _ _ _ h => exact (breaks_of_breakTo h).choices.trans (branchOn_choices _)
  | brTable _ _ _ _ _ hs h =>
    have hc := branchAll_induction (P := fun s₁ => s₁.choices = s.choices)
      (fun _ _ _ _ hc hb => hb.choices.trans (tableCase_choices.trans hc)) (switch_frame hs).2.2 h
    exact hc
  | ret | setGlobal | call | callIndirect | growMemory | unop | binop | load | store | select =>
    exact State.emitOn_choices _
  | openChoice h => rcases h with h | h <;> rw [h] at hr <;> cases hr
  | closeIf h | otherwise h | closeElse h =>
    rw [h] at hr
    cases hr

/-- An expression is decoded step by step, and its choices are opened and closed in pairs. -/
def Expr.Stepwise (ctx : Context) (e : Expr) : Prop :=
  ∀ s t s', eval ctx e s = .ok (t, s') → Decodes ctx [e] s [t] s' ∧ s'.choices = s.choices

theorem decodes_of_all (he : ∀ e ∈ es, e.Stepwise ctx) (h : evalAll ctx es s = .ok (ts, s')) :
    Decodes ctx es s ts s' ∧ s'.choices = s.choices := by
  induction es generalizing s ts with
  | nil =>
    cases h
    exact ⟨.nil _, rfl⟩
  | cons e es ih =>
    obtain ⟨h₁, hrest⟩ := forall_mem_cons.mp he
    obtain ⟨⟨t, s₁⟩, ht, h⟩ := bind_eq_ok.mp h
    obtain ⟨⟨ts', s₂⟩, hts, h⟩ := bind_eq_ok.mp h
    cases h
    obtain ⟨hd₁, hc₁⟩ := h₁ s t s₁ ht
    obtain ⟨hd₂, hc₂⟩ := ih hrest hts
    exact ⟨.cons hd₁ hd₂, hc₂.trans hc₁⟩

theorem decodes_of_choice (hr : p.rule = .ifThen ∨ p.rule = .ifElse) (hd : p.done = [])
    (hc : c.Stepwise ctx) (ha : a.Stepwise ctx) (h : feed ctx (c :: a :: es) p s = .ok (p', s')) :
    ∃ tc s₁ ta s₂ p₁ s₃, typeMatches .i32 tc.type = true ∧ Decodes ctx [c] s [tc] s₁ ∧ s₁.choices = s.choices ∧
      Decodes ctx [a] (s₁.choose tc) [ta] s₂ ∧ s₂.choices = (s₁.choose tc).choices ∧
      reduce ctx (p.add [tc, ta]) s₂ = .ok (p₁, s₃) ∧ feed ctx es p₁ s₃ = .ok (p', s') := by
  rw [← toOption_eq_some, feed_choice hr hd] at h
  obtain ⟨⟨tc, s₁⟩, hec, h⟩ := Option.bind_eq_some_iff.mp h
  dsimp only at h
  split at h
  · rename_i ht
    obtain ⟨⟨ta, s₂⟩, hea, h⟩ := Option.bind_eq_some_iff.mp h
    obtain ⟨⟨p₁, s₃⟩, hr, hf⟩ := Option.bind_eq_some_iff.mp h
    rw [toOption_eq_some] at hec hea hr hf
    obtain ⟨hdc, hs₁⟩ := hc _ _ _ hec
    obtain ⟨hda, hs₂⟩ := ha _ _ _ hea
    exact ⟨tc, s₁, ta, s₂, p₁, s₃, ht, hdc, hs₁, hda, hs₂, hr, hf⟩
  · cases h

theorem decodes_of_ifThen (hx : x.conduct = .ifThen) (hcs : ∀ e ∈ [c, a], e.Stepwise ctx)
    (h : feed ctx [c, a] (x.await .ifThen .void 2) s = .ok (p', s')) :
    Decodes ctx [.node x [c, a]] s [p'.tree] s' ∧ s'.choices = s.choices := by
  obtain ⟨tc, s₁, ta, s₂, p₁, s₃, ht, hdc, hs₁, hda, hs₂, hr, hf⟩ :=
    decodes_of_choice (.inl rfl) rfl (hcs c (by simp)) (hcs a (by simp)) h
  cases hf
  rw [reduce_ifThen rfl rfl hs₂] at hr
  obtain ⟨⟨env, s₄⟩, hl, hr⟩ := bind_eq_ok.mp hr
  cases hr
  exact ⟨.ifThen hx hdc ht hda hl, hs₁⟩

theorem decodes_of_ifElse (hx : x.conduct = .ifElse) (hcs : ∀ b ∈ [c, a, e], b.Stepwise ctx)
    (h : feed ctx [c, a, e] (x.await .ifElse .unreachable 3) s = .ok (p', s')) :
    Decodes ctx [.node x [c, a, e]] s [p'.tree] s' ∧ s'.choices = s.choices := by
  obtain ⟨tc, s₁, ta, s₂, p₁, s₃, ht, hdc, hs₁, hda, hs₂, hr, h⟩ :=
    decodes_of_choice (.inr rfl) rfl (hcs c (by simp)) (hcs a (by simp)) h
  rw [reduce_otherwise rfl rfl hs₂] at hr
  obtain ⟨⟨j, s₅⟩, hj, hr⟩ := bind_eq_ok.mp hr
  cases hr
  obtain ⟨⟨te, s₄⟩, he, h⟩ := bind_eq_ok.mp h
  obtain ⟨⟨p₂, s₅⟩, hr, hf⟩ := bind_eq_ok.mp h
  cases hf
  obtain ⟨hde, hs₄⟩ := hcs e (by simp) _ _ _ he
  rw [reduce_ifElse rfl rfl hs₄] at hr
  obtain ⟨⟨j', s₆⟩, hj', hr⟩ := bind_eq_ok.mp hr
  cases hr
  exact ⟨.ifElse hx hdc ht hda (brings_of_bring hj) hde (brings_of_bring hj'), hs₁⟩

theorem decodes_of_select {b : Expr} (hx : x.conduct = .pass) (hcs : ∀ e ∈ [a, b, c], e.Stepwise ctx)
    (h : (feed ctx [a, b, c] (x.await .select .unreachable 3) s).toOption = some (p', s')) :
    Decodes ctx [.node x [a, b, c]] s [p'.tree] s' ∧ s'.choices = s.choices := by
  rw [feed_select rfl rfl] at h
  obtain ⟨⟨ta, s₁⟩, ha, h⟩ := Option.bind_eq_some_iff.mp h
  obtain ⟨⟨tb, s₂⟩, hb, h⟩ := Option.bind_eq_some_iff.mp h
  obtain ⟨⟨tc, s₃⟩, hc, h⟩ := Option.bind_eq_some_iff.mp h
  obtain ⟨τ, hτ, h⟩ := Option.bind_eq_some_iff.mp h
  obtain ⟨hda, hs₁⟩ := hcs a (by simp) _ _ _ (toOption_eq_some.mp ha)
  obtain ⟨hdb, hs₂⟩ := hcs b (by simp) _ _ _ (toOption_eq_some.mp hb)
  obtain ⟨hdc, hs₃⟩ := hcs c (by simp) _ _ _ (toOption_eq_some.mp hc)
  split at h
  · rename_i ht
    cases h
    exact ⟨.select hx (.cons hda (.cons hdb hdc)) hτ ht,
      (State.emitOn_choices _).trans (hs₃.trans (hs₂.trans hs₁))⟩
  · cases h

theorem Rule.ordinary_or {r : Rule} (h : r.patient = true) : r.ordinary = true ∨ r = .block ∨ r = .loop := by
  cases r with
  | block => exact .inr (.inl rfl)
  | loop => exact .inr (.inr rfl)
  | ifThen | ifElse | select => cases h
  | _ => exact .inl rfl

theorem decodes_of_patient {s₂ : State} (hb : Begins ctx s x (.wait p s₁)) (hr : p.rule.patient = true)
    (hcs : Decodes ctx cs s₁ ts s₂) (hf : fitAll (p.wants ctx) ts = true) (hl : ts.length = p.arity)
    (h : Reduces ctx (p.add ts) s₂ p' s') : Decodes ctx [.node x cs] s [p'.tree] s' := by
  have hc : (p.add ts).complete = true := by simp [Pending.complete, hb.done, hl]
  have hd := hb.add_done ts
  rcases Rule.ordinary_or hr with ho | hp | hp
  · obtain rfl : s₁ = s := by
      cases hb with
      | block | loop => cases ho
      | _ => rfl
    exact .operation hb ho hcs hf hl hc h
  · cases h with
    | @closeBlock j j' rest t s₃ _ _ hbl ht hj =>
      have hbl' : s₂.blocks = [] ++ .exit j :: rest := hbl
      have hj : bring ctx (p.add ts) { s₂ with blocks := .exit j :: rest } j t = .ok (j', s₃) := by
        rw [← hbl]
        exact hj
      cases hb with
      | block _ hx => exact .block hx hcs (hd ▸ ht) rfl hbl' (brings_of_bring hj)
      | _ => cases hp
    | _ => simp_all
  · cases h with
    | @closeLoop head j j' rest t s₃ _ _ hbl ht hj =>
      have hbl' : s₂.blocks = [head] ++ .exit j :: rest := hbl
      cases hb with
      | loop _ hx => exact .block hx hcs (hd ▸ ht) rfl hbl' (brings_of_bring hj)
      | _ => cases hp
    | _ => simp_all

theorem stepwise (he : Shaped ctx.body e) : e.Stepwise ctx := by
  induction e using Expr.induction with
  | h x cs ih =>
    intro s t s' h
    have hcs : ∀ e ∈ cs, e.Stepwise ctx := fun e hm => ih e hm (shapedAll_iff.mp he.2 e hm)
    have h' := h
    rw [eval] at h'
    obtain ⟨e, hen, h'⟩ := bind_eq_ok.mp h'
    have ha := arity_of_enter hen
    rw [he.1, Option.some.injEq] at ha
    have hb := begins_of_enter hen
    cases e with
    | leaf t₁ s₁ =>
      cases h'
      obtain rfl := length_eq_zero_iff.mp ha
      exact ⟨.leaf hb, hb.choices⟩
    | wait p s₁ =>
      dsimp only [Entry.arity] at ha
      by_cases hr : p.rule.patient = true
      · rw [← toOption_eq_some, eval_patient hen hr ha] at h
        obtain ⟨⟨ts, s₂⟩, hts, h⟩ := Option.bind_eq_some_iff.mp h
        dsimp only at h
        split at h
        · rename_i hf
          obtain ⟨⟨p', s₃⟩, hp, h⟩ := Option.map_eq_some_iff.mp h
          have hts := toOption_eq_some.mp hts
          have hp := toOption_eq_some.mp hp
          cases h
          obtain ⟨hd, hs₂⟩ := decodes_of_all hcs hts
          have hred := reduces_of_reduce (hb.regular.add ts) hp
          exact ⟨decodes_of_patient hb hr hd hf ((evalAll_length hts).trans ha) hred,
            (hred.choices hr).trans (hs₂.trans hb.choices)⟩
        · cases h
      · dsimp only at h'
        cases hb with
        | ifThen hx =>
          obtain ⟨c, a, rfl⟩ := length_eq_two.mp ha
          obtain ⟨⟨p', s₂⟩, hf, h'⟩ := bind_eq_ok.mp h'
          cases h'
          exact decodes_of_ifThen hx hcs hf
        | ifElse hx =>
          obtain ⟨c, a, e, rfl⟩ := length_eq_three.mp ha
          obtain ⟨⟨p', s₂⟩, hf, h'⟩ := bind_eq_ok.mp h'
          cases h'
          exact decodes_of_ifElse hx hcs hf
        | select hx =>
          obtain ⟨a, b, c, rfl⟩ := length_eq_three.mp ha
          obtain ⟨⟨p', s₂⟩, hf, h'⟩ := bind_eq_ok.mp h'
          cases h'
          exact decodes_of_select hx hcs (toOption_eq_some.mpr hf)
        | _ => exact absurd rfl hr

theorem decodes_of_eval (he : Shaped ctx.body e) (h : eval ctx e s = .ok (t, s')) :
    Decodes ctx [e] s [t] s' :=
  (stepwise he s t s' h).1

theorem eval_choices (he : Shaped ctx.body e) (h : eval ctx e s = .ok (t, s')) :
    s'.choices = s.choices :=
  (stepwise he s t s' h).2

theorem decodes_of_evalAll (he : ShapedAll ctx.body es) (h : evalAll ctx es s = .ok (ts, s')) :
    Decodes ctx es s ts s' :=
  (decodes_of_all (fun e hm => stepwise (shapedAll_iff.mp he e hm)) h).1

end Body

end ProtoWasm
