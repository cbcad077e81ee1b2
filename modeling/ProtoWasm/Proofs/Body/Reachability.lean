import ProtoWasm.Proofs.Body.Children
import ProtoWasm.Proofs.Opcode

/-! # Code that control does not get to

Code that control does not get to stays so to its end and changes no target and no graph. Where control
gets to the end of an expression, on the other hand, the expression has a type that it can complete
with.
-/
namespace ProtoWasm

open List

/-- What a body can refer to uses only the four types of values. -/
structure FunctionBody.OnlyValues (b : FunctionBody) : Prop where
  signature : b.signature.isValue = true
  signatures : ∀ sig ∈ b.module.signatures, sig.isValue = true
  functions : ∀ f ∈ b.module.functions, f.type.isValue = true
  globals : ∀ v ∈ b.module.globals, v.type.valType.isValue = true

theorem FuncType.resultType_ne {sig : FuncType} (h : sig.isValue = true) : sig.resultType ≠ .unreachable := by
  simp only [FuncType.isValue, Bool.and_eq_true, all_eq_true] at h
  unfold FuncType.resultType
  cases hr : sig.results with
  | nil => simp
  | cons t ts =>
    have ht := h.2 t (by simp [hr])
    intro he
    simp only [head?_cons, Option.getD_some] at he
    rw [he] at ht
    cases ht

theorem FuncType.isValue_of_mem_params {sig : FuncType} (h : sig.isValue = true) :
    ∀ τ ∈ sig.params, τ.isValue = true := by
  simp only [FuncType.isValue, Bool.and_eq_true, all_eq_true] at h
  exact h.1

namespace Body

open Body.Expr

variable {ctx : Context} {p p' : Pending} {s s' : State} {x : Instruction} {t : Tree} {e : Expr}
  {es : List Expr} {ts : List Tree}

/-- Nothing happens, and control still does not get there. -/
structure Quiet (s s' : State) : Prop where
  live : s'.env.live = false
  blocks : s'.blocks = s.blocks
  graph : s'.graph = s.graph

theorem Quiet.refl (hs : s.env.live = false) : Quiet s s := ⟨hs, rfl, rfl⟩

theorem Quiet.trans {s₁ s₂ s₃ : State} (h : Quiet s₁ s₂) (h' : Quiet s₂ s₃) : Quiet s₁ s₃ :=
  ⟨h'.live, h'.blocks.trans h.blocks, h'.graph.trans h.graph⟩

theorem tableCase_graph {entry : Env} {last i : Nat} : (tableCase entry noNode last i s).graph = s.graph := by
  unfold tableCase
  split
  · rfl
  · split
    · rfl
    · rename_i g hg
      simp [hg]

theorem Reduces.quiet (h : Reduces ctx p s p' s') (hr : p.rule.ordinary = true) (hs : s.env.live = false) :
    Quiet s s' := by
  cases h with
  | wait | idle | selectType | selectSame => exact .refl hs
  | br _ _ h =>
    rw [(breaks_of_breakTo h).of_dead hs]
    exact .refl hs
  | brIf _ _ _ _ _ h =>
    have h := breaks_of_breakTo h
    rw [branchOn_of_dead _ hs] at h ⊢
    rw [h.of_dead rfl]
    exact ⟨hs, rfl, rfl⟩
  | brTable _ _ _ _ _ h₀ h =>
    rw [State.emit_of_dead _ hs, ite_self] at h₀
    cases h₀
    have hq := branchAll_induction (P := fun s₁ => s₁.blocks = s.blocks ∧ s₁.graph = s.graph)
      (fun s₁ s₂ _ _ hp hb => by
        rw [hb.of_dead (by simp [hs])]
        exact ⟨tableCase_blocks.trans hp.1, tableCase_graph.trans hp.2⟩) ⟨rfl, rfl⟩ h
    exact ⟨rfl, hq.1, hq.2⟩
  | ret =>
    rw [State.emitOn_of_dead _ hs]
    exact ⟨rfl, rfl, rfl⟩
  | setLocal =>
    rw [State.building_of_dead hs]
    exact .refl hs
  | setGlobal | growMemory | select =>
    rw [State.emitOn_of_dead _ hs]
    exact .refl hs
  | call | callIndirect | unop | binop | load | store =>
    rw [State.emitAt_of_dead _ _ hs]
    exact .refl hs
  | openChoice h => rcases h with h | h <;> rw [h] at hr <;> cases hr
  | closeBlock h | closeLoop h | closeIf h | otherwise h | closeElse h =>
    rw [h] at hr
    cases hr

theorem openBlock_of_dead (offset : Int) (isLoop : Bool) (hs : s.env.live = false) :
    openBlock ctx s offset isLoop = { s with
      env := .unreached
      blocks := (if isLoop then [.header .unreached] else []) ++ .exit { env := s.env } :: s.blocks } := by
  have h₁ : s.env.split = .unreached := by simp [Env.split, hs]
  have h₂ : s.env.vacate = s.env := by simp [Env.vacate, hs]
  have h₃ : Env.unreached.split = .unreached := rfl
  cases isLoop <;> simp [openBlock, h₁, h₂, h₃]

theorem openBlock_of_live {g : Graph} (offset : Int) (hs : s.env.live = true) (hg : s.graph = some g) :
    ∃ assigned, (assigned = none ∨ assigned = assignedInLoop ctx.body offset) ∧
      openBlock ctx s offset true = { s with
        env := (openLoop ctx.types assigned s.env.split g).1.split
        blocks :=
          .header (openLoop ctx.types assigned s.env.split g).1 :: .exit { env := .unreached } :: s.blocks
        graph := some (openLoop ctx.types assigned s.env.split g).2 } := by
  refine ⟨if ctx.loopAnalysis then assignedInLoop ctx.body offset else none, ?_, ?_⟩
  · split
    · exact .inr rfl
    · exact .inl rfl
  · simp [openBlock, Env.vacate, hs, hg]

theorem State.choose_of_dead (c : Tree) (hs : s.env.live = false) :
    s.choose c = { s with env := .unreached, choices := ⟨s.env, { env := .unreached }⟩ :: s.choices } := by
  rw [State.choose, branchOn_of_dead c hs]

theorem Begins.quiet_of_leaf (h : Begins ctx s x (.leaf t s')) (hs : s.env.live = false) : Quiet s s' := by
  cases h with
  | nothing | getLocal => exact .refl hs
  | retNothing =>
    rw [State.emitOn_of_dead _ hs]
    exact ⟨rfl, rfl, rfl⟩
  | unreachable =>
    rw [State.emitAt_of_dead _ _ hs]
    exact ⟨rfl, rfl, rfl⟩
  | constant =>
    rw [State.emit_of_dead _ hs]
    exact .refl hs
  | getGlobal =>
    rw [State.emitOn_of_dead _ hs]
    exact .refl hs

/-- Code that control does not get to changes nothing. -/
theorem Decodes.quiet (h : Decodes ctx es s ts s') (hs : s.env.live = false) : Quiet s s' := by
  induction h with
  | nil => exact .refl hs
  | cons _ _ ih₁ ih₂ => exact (ih₁ hs).trans (ih₂ (ih₁ hs).live)
  | leaf hb => exact hb.quiet_of_leaf hs
  | @block _ _ _ isLoop _ _ _ _ _ _ _ _ _ _ _ _ hh hbl hj ih =>
    rw [openBlock_of_dead _ _ hs] at ih
    have hq := ih rfl
    obtain ⟨rfl, rfl⟩ := hj.of_dead hq.live
    obtain ⟨-, hrest⟩ := append_inj (hbl.symm.trans hq.blocks) (hh.trans (by cases isLoop <;> rfl))
    cases hrest
    exact ⟨hs, rfl, hq.graph⟩
  | operation _ hr _ _ _ _ hred ih => exact (ih hs).trans (hred.quiet hr (ih hs).live)
  | ifThen _ _ _ _ hl ih₁ ih₂ =>
    have h₁ := ih₁ hs
    rw [State.choose_of_dead _ h₁.live] at ih₂
    have h₂ := ih₂ rfl
    rw [leave_of_dead _ h₂.live, branchOn_of_dead _ h₁.live] at hl
    cases hl
    exact ⟨h₁.live, h₂.blocks.trans h₁.blocks, h₂.graph.trans h₁.graph⟩
  | ifElse _ _ _ _ hj _ hj' ih₁ ih₂ ih₃ =>
    have h₁ := ih₁ hs
    rw [State.choose_of_dead _ h₁.live] at ih₂
    have h₂ := ih₂ rfl
    obtain ⟨rfl, rfl⟩ := hj.of_dead h₂.live
    have h₃ := ih₃ ((branchOn_fails_live _).trans h₁.live)
    obtain ⟨rfl, rfl⟩ := hj'.of_dead h₃.live
    exact ⟨rfl, h₃.blocks.trans (h₂.blocks.trans h₁.blocks), h₃.graph.trans (h₂.graph.trans h₁.graph)⟩
  | select _ _ _ _ ih =>
    dsimp only [selected]
    rw [State.emitOn_of_dead _ (ih hs).live]
    exact ih hs

/-- Where control gets to the end of expressions, it got to their beginning. -/
theorem Decodes.live (h : Decodes ctx es s ts s') (hl : s'.env.live = true) : s.env.live = true := by
  by_contra hd
  rw [(h.quiet (by simpa using hd)).live] at hl
  cases hl

section Types

structure Context.OnlyValues (ctx : Context) : Prop where
  body : ctx.body.OnlyValues
  types : ∀ t ∈ ctx.types, t.isValue = true

theorem ne_of_isValue {t : ValType} (h : t.isValue = true) : t ≠ .unreachable := by
  rintro rfl
  cases h

theorem ne_void_of_isValue {t : ValType} (h : t.isValue = true) : t ≠ .void := by
  rintro rfl
  cases h

/-- The rules of expressions whose type is settled by the ways to their end, or that have no end. -/
def Rule.open : Rule → Bool
  | .block | .loop | .ifElse | .select | .br _ | .brTable _ | .ret => true
  | _ => false

theorem Begins.type_ne (hv : ctx.OnlyValues) (h : Begins ctx s x (.wait p s'))
    (hr : p.rule.open = false) : p.type ≠ .unreachable := by
  cases h with
  | block | loop | ifElse | select | br | brTable | ret => cases hr
  | ifThen | brIf | growMemory => exact ValType.noConfusion
  | setLocal ht => exact ne_of_isValue (hv.types _ (mem_of_getElem? ht))
  | setGlobal hg => exact ne_of_isValue (hv.body.globals _ (mem_of_getElem? hg))
  | call hs =>
    obtain ⟨f, hf, rfl⟩ := Option.map_eq_some_iff.mp hs
    exact FuncType.resultType_ne (hv.body.functions f (mem_of_getElem? hf))
  | callIndirect _ hs => exact FuncType.resultType_ne (hv.body.signatures _ (mem_of_getElem? hs))
  | access _ ha => exact ne_of_isValue (Opcode.isValue_of_access? (Opcode.access?_of_form ha))
  | numeric hf => exact FuncType.resultType_ne (Opcode.isValue_of_numeric? (Opcode.numeric?_of_form hf))

theorem Begins.leaf_type_ne (hv : ctx.OnlyValues)
    (h : Begins ctx s x (.leaf t s')) (hs : s'.env.live = true) : t.type ≠ .unreachable := by
  cases h with
  | nothing => exact ValType.noConfusion
  | retNothing | unreachable => cases hs
  | constant hf => cases hf <;> exact ValType.noConfusion
  | getLocal ht => exact ne_of_isValue (hv.types _ (mem_of_getElem? ht))
  | getGlobal hg => exact ne_of_isValue (hv.body.globals _ (mem_of_getElem? hg))

def Join.Settled (j : Join) : Prop := j.env.live = true → j.type ≠ .unreachable

def State.Settled (s : State) : Prop := ∀ j, .exit j ∈ s.blocks → j.Settled

theorem Brings.settled {j j' : Join} (h : Brings ctx p s j t j' s')
    (ht : s.env.live = true → t.type ≠ .unreachable) (hj : j.Settled) : j'.Settled := by
  cases h with
  | dead => exact hj
  | silent hs _ hu => exact absurd hu (ht hs)
  | first hs => exact fun _ => ht hs
  | clash => exact fun _ => ValType.noConfusion
  | same hs _ _ _ hn | merge hs _ _ _ hn =>
    intro _
    rw [← hn]
    exact ht hs

theorem Breaks.settled {depth : Nat} (h : Breaks ctx p s depth t s')
    (ht : s.env.live = true → t.type ≠ .unreachable) (hs : s.Settled) : s'.Settled := by
  intro k hk
  cases h with
  | header hb hl =>
    rcases mem_or_eq_of_mem_set hk with hk | hk
    · exact hs k hk
    · cases hk
  | exit hb hj =>
    rcases mem_or_eq_of_mem_set hk with hk | hk
    · exact hs k hk
    · cases hk
      exact hj.settled ht (hs _ (mem_of_getElem? hb))

theorem State.Settled.of_blocks (hs : s.Settled) (h : s'.blocks = s.blocks) : s'.Settled := by
  intro j hj
  rw [h] at hj
  exact hs j hj

theorem openBlock_settled (ctx : Context) (offset : Int) (isLoop : Bool) (hs : s.Settled) :
    (openBlock ctx s offset isLoop).Settled := by
  intro j hj
  have hj : .exit j ∈ .exit { env := s.env.vacate } :: s.blocks := by
    unfold openBlock at hj
    cases isLoop with
    | false => exact hj
    | true =>
      simp only [Bool.not_true, Bool.false_eq_true, if_false] at hj
      split at hj
      · simpa using hj
      · split at hj <;> simpa using hj
  rcases mem_cons.mp hj with h | h
  · cases h
    intro hl
    rw [Env.vacate_live] at hl
    cases hl
  · exact hs j h

theorem Begins.settled {r : Entry} (h : Begins ctx s x r) (hs : s.Settled) : r.state.Settled := by
  cases h with
  | retNothing | getGlobal | unreachable => exact hs.of_blocks (State.emitOn_blocks _)
  | constant => exact hs.of_blocks (State.emit_blocks _)
  | block => exact openBlock_settled ctx x.offset false hs
  | loop => exact openBlock_settled ctx x.offset true hs
  | _ => exact hs

theorem Reduces.settled (h : Reduces ctx p s p' s') (hr : p.rule.ordinary = true)
    (hc : p.complete = true) (ht : s.env.live = true → ∀ t ∈ p.done, t.type ≠ .unreachable)
    (hp : p.rule.open = false → p.type ≠ .unreachable) (hs : s.Settled) :
    s'.Settled ∧ (s'.env.live = true → p'.type ≠ .unreachable) := by
  cases h with
  | wait _ h => rw [hc] at h; cases h
  | br _ hl h =>
    have h := breaks_of_breakTo h
    refine ⟨h.settled (fun h => ht h _ (mem_of_getLast? hl)) hs, fun hl => ?_⟩
    rw [h.live] at hl
    cases hl
  | brIf hr _ h0 _ _ h =>
    have h := breaks_of_breakTo h
    have hs' : State.Settled _ := h.settled
      (fun hl => ht (by simpa using hl) _ (mem_of_getElem? h0)) (hs.of_blocks (branchOn_blocks _))
    exact ⟨hs', fun _ => hp (by rw [hr]; rfl)⟩
  | brTable _ _ h0 _ _ hsw h =>
    have hstep := branchAll_induction (P := State.Settled) (fun s₁ s₂ _ _ hs hb => hb.settled
      (fun hl => ht (by simpa using hl) _ (mem_of_getElem? h0)) (hs.of_blocks tableCase_blocks))
      (hs.of_blocks (switch_frame hsw).2.1) h
    exact ⟨hstep, fun hl => by cases hl⟩
  | ret => exact ⟨hs.of_blocks (State.emitOn_blocks _), fun hl => by cases hl⟩
  | idle hr | setLocal hr => exact ⟨hs, fun _ => hp (by rw [hr]; rfl)⟩
  | setGlobal hr | call hr | callIndirect hr | growMemory hr | unop hr | binop hr | load hr | store hr =>
    exact ⟨hs.of_blocks (State.emitOn_blocks _), fun _ => hp (by rw [hr]; rfl)⟩
  | openChoice h => rcases h with h | h <;> rw [h] at hr <;> cases hr
  | closeBlock h | closeLoop h | closeIf h | otherwise h | closeElse h | selectType h | selectSame h | select h =>
    rw [h] at hr
    cases hr

theorem selectedType_ne {a b τ : ValType} (h : selectedType a b = some τ) (ha : a ≠ .unreachable) :
    τ ≠ .unreachable := by
  unfold selectedType at h
  rw [if_neg ha] at h
  split at h
  · cases h
  · split at h
    · cases h
      exact ha
    · cases h

theorem State.Settled.choose (h : s.Settled) (c : Tree) : (s.choose c).Settled := h.of_blocks (branchOn_blocks c)

/-- Expressions that control gets to the end of never have the unreachable type. -/
theorem Decodes.settled (hv : ctx.OnlyValues) (h : Decodes ctx es s ts s') (hs : s.Settled) :
    s'.Settled ∧ (s'.env.live = true → ∀ t ∈ ts, t.type ≠ .unreachable) := by
  induction h with
  | nil => exact ⟨hs, fun _ => forall_mem_nil _⟩
  | cons _ hes ih₁ ih₂ =>
    obtain ⟨hs₁, ht₁⟩ := ih₁ hs
    obtain ⟨hs₂, ht₂⟩ := ih₂ hs₁
    exact ⟨hs₂, fun hl => forall_mem_cons.mpr ⟨ht₁ (hes.live hl) _ (by simp), ht₂ hl⟩⟩
  | leaf hb => exact ⟨hb.settled hs, fun hl => forall_mem_singleton.mpr (hb.leaf_type_ne hv hl)⟩
  | block _ _ hlast _ hb hj ih =>
    obtain ⟨hs₁, ht⟩ := ih (openBlock_settled _ _ _ hs)
    have hj := hj.settled (fun hl => ht hl _ (mem_of_getLast? hlast)) (hs₁ _ (by simp [hb]))
    exact ⟨fun k hk => hs₁ k (by simp [hb, hk]), fun hl => forall_mem_singleton.mpr (hj hl)⟩
  | @operation _ _ _ _ ts _ _ _ hb hr _ _ _ hc hred ih =>
    obtain ⟨hs₁, ht⟩ := ih hs
    rw [← hb.add_done ts] at ht
    obtain ⟨hs', ht'⟩ := hred.settled hr hc ht (hb.type_ne hv :) hs₁
    exact ⟨hs', fun hl => forall_mem_singleton.mpr (ht' hl)⟩
  | ifThen _ _ _ _ hl ih₁ ih₂ =>
    obtain ⟨hs₂, -⟩ := ih₂ ((ih₁ hs).1.choose _)
    exact ⟨hs₂.of_blocks (leave_frame hl).1, fun _ => forall_mem_singleton.mpr ValType.noConfusion⟩
  | ifElse _ _ _ _ hj _ hj' ih₁ ih₂ ih₃ =>
    obtain ⟨hs₂, ht₂⟩ := ih₂ ((ih₁ hs).1.choose _)
    obtain ⟨hs₃, ht₃⟩ := ih₃ (hs₂.of_blocks hj.frame.1)
    have hj₁ := hj.settled (fun hl => ht₂ hl _ (by simp)) fun h => by cases h
    have hj₂ := hj'.settled (fun hl => ht₃ hl _ (by simp)) hj₁
    exact ⟨hs₃.of_blocks hj'.frame.1, fun hl => forall_mem_singleton.mpr (hj₂ hl)⟩
  | select _ _ hτ _ ih =>
    obtain ⟨hs₁, ht⟩ := ih hs
    refine ⟨hs₁.of_blocks (State.emitOn_blocks _), fun hl => forall_mem_singleton.mpr ?_⟩
    exact selectedType_ne hτ (ht (by simpa [selected] using hl) _ (by simp))

end Types

end Body

end ProtoWasm
