import ProtoWasm.Proofs.Binary.Parallel
import ProtoWasm.Proofs.Body.Agreement
import ProtoWasm.Proofs.Body.Assignment

/-! # Bodies are accepted wherever their code is -/
namespace ProtoWasm

open List

def Input.move (d : Int) (i : Input) : Input := ⟨i.bytes, i.offset + d⟩

/-- The bodies have the same code and types, and so has what they refer to. -/
structure FunctionBody.Resembles (b b' : FunctionBody) : Prop where
  signature : b'.signature = b.signature
  locals : b'.locals = b.locals
  code : b'.code = b.code
  signatures : b'.module.signatures = b.module.signatures
  functions : ∀ i, b'.module.functionType? i = b.module.functionType? i
  tables : b'.module.tables = b.module.tables
  memory : b'.module.memory = b.module.memory
  globals : b'.module.globals = b.module.globals

theorem FunctionBody.Resembles.localTypes {b b' : FunctionBody} (h : b.Resembles b') :
    b'.localTypes = b.localTypes := by
  rw [FunctionBody.localTypes, FunctionBody.localTypes, h.signature, h.locals]

namespace Body

open Body.Expr

variable {b b' : FunctionBody} {d : Int} {xs : List Instruction} {es cs : List Expr} {x : Instruction}
  {o : Options} {same : Prop} {form : Form} {i j : Input} {ops : Operands} {ts ts' : List Tree}

section Instructions

open Reader

theorem parallel_readBranchTable : Parallel same readBranchTable readBranchTable (· = ·) := by
  refine parallel_offset.bind fun _ _ _ => (parallel_u32 _).then fun n => ?_
  have havailable : Parallel same (available ((n + 1) * 4) "branch table") (available ((n + 1) * 4) "branch table")
      (· = ·) := by
    apply parallel_of_bytes
    intro i i' u j hi h
    unfold available at h ⊢
    split at h
    · rename_i hn
      cases h
      rw [Input.remaining, hi] at hn
      exact ⟨i', if_pos hn, hi⟩
    · cases h
  exact (parallel_refuse fun _ => rfl).bind fun _ _ _ => havailable.bind fun _ _ _ =>
    parallel_times_eq _ fun _ => parallel_word _ _

theorem parallel_readOperands (form : Form) :
    Parallel same (readOperands form) (readOperands form) (· = ·) := by
  have index {f : Nat → Operands} (what : String) : Parallel same (u32 what >>= fun k => pure (f k))
      (u32 what >>= fun k => pure (f k)) (· = ·) := (parallel_u32 _).map fun _ _ => congrArg _
  cases form <;> simp only [readOperands]
  all_goals first
    | exact parallel_pure rfl
    | exact index _
    | exact (parallel_signed _ _).map fun _ _ h => by rw [h]
    | exact (parallel_word _ _).map fun _ _ h => by rw [h]
    | exact (parallel_byte _).map fun _ _ h => by rw [h]
    | exact parallel_readBranchTable.map fun _ _ h => by rw [h]
    | exact (parallel_u32 _).bind fun _ _ h => h ▸ index _

/-- At another place the operands are the same, and they end as much further. -/
theorem readOperands_move (h : readOperands form i = .ok (ops, j)) :
    readOperands form (i.move d) = .ok (ops, j.move d) := by
  have hparallel : Parallel True (readOperands form) (readOperands form) (· = ·) := parallel_readOperands form
  obtain ⟨hs, hv⟩ := hparallel i (i.move d) ops j rfl h
  obtain ⟨ops', j', h'⟩ := hs trivial
  obtain ⟨hj, rfl⟩ := hv ops' j' h'
  obtain ⟨used, hb, ho⟩ := advances_readOperands form i ops j h
  obtain ⟨used', hb', ho'⟩ := advances_readOperands form _ ops j' h'
  have hused : used' ++ j.bytes = used ++ j.bytes := by
    rw [← hb, hj]
    exact hb'.symm
  rw [append_cancel_right hused, Input.move] at ho'
  rw [h', Except.ok.injEq, Prod.mk.injEq, eq_self, true_and, Input.mk.injEq]
  exact ⟨hj.symm, by simp only [Input.move] at ho' ⊢; omega⟩

end Instructions

def Instruction.move (d : Int) (x : Instruction) : Instruction := { x with offset := x.offset + d }

theorem readOperands_next {rest : List UInt8}
    (h : readOperands form ⟨rest, i.offset + 1⟩ = .ok (ops, j)) :
    readOperands form ⟨rest, (i.move d).offset + 1⟩ = .ok (ops, j.move d) := by
  have hmove := readOperands_move (d := d) h
  have hnext : (⟨rest, i.offset + 1⟩ : Input).move d = ⟨rest, (i.move d).offset + 1⟩ := by
    simp only [Input.move, Input.mk.injEq, true_and]
    omega
  rwa [hnext] at hmove

theorem instructions_move (h : instructions i = some xs) :
    instructions (i.move d) = some (xs.map (Instruction.move d)) := by
  induction xs generalizing i with
  | nil =>
    have hnil : (i.move d).bytes = [] := (bytes_of_instructions_nil h :)
    exact instructions_of_nil hnil
  | cons x xs ih =>
    obtain ⟨c, rest, ops, j, hb, ho, rfl, hj⟩ := instructions_eq_cons h
    rw [instructions_of_cons (show (i.move d).bytes = c :: rest from hb), readOperands_next ho]
    simp only [ih hj]
    rfl

theorem childrenFit_move (h : instructions i = some xs) : childrenFit (i.move d) = childrenFit i := by
  induction xs generalizing i with
  | nil =>
    have hnil := bytes_of_instructions_nil h
    rw [childrenFit_of_nil hnil, childrenFit_of_nil (show (i.move d).bytes = [] from hnil)]
  | cons x xs ih =>
    obtain ⟨c, rest, ops, j, hb, ho, rfl, hj⟩ := instructions_eq_cons h
    rw [childrenFit_of_cons hb ho, childrenFit_of_cons (show (i.move d).bytes = c :: rest from hb)
      (readOperands_next ho), ih hj]
    rfl

mutual

def Expr.move (d : Int) : Expr → Expr
  | node x cs => node (x.move d) (moveAll d cs)

def Expr.moveAll (d : Int) : List Expr → List Expr
  | [] => []
  | e :: es => move d e :: moveAll d es

end

theorem moveAll_eq_map (d : Int) (es : List Expr) : moveAll d es = es.map (Expr.move d) := by
  induction es with
  | nil => rfl
  | cons e es ih => rw [moveAll, ih, map_cons]

theorem arity?_move (h : b.Resembles b') (x : Instruction) : b'.arity? (x.move d) = b.arity? x := by
  simp only [FunctionBody.arity?, Instruction.move, h.signature]
  unfold childCount
  simp only [h.functions, h.signatures]

theorem forest_move (h : b.Resembles b')
    (hf : forest b xs = some es) : forest b' (xs.map (Instruction.move d)) = some (moveAll d es) := by
  induction xs generalizing es with
  | nil =>
    cases hf
    rfl
  | cons x xs ih =>
    obtain ⟨fs, n, hfs, hn, hl, rfl⟩ := forest_cons_inv hf
    rw [← arity?_move (d := d) h] at hn
    have hlen : n ≤ (moveAll d fs).length := by rwa [moveAll_eq_map, length_map]
    rw [map_cons, forest_cons (ih hfs) hn hlen]
    simp only [moveAll, Expr.move, moveAll_eq_map, map_take, map_drop]

theorem role?_move (h : b.Resembles b') (depth : Nat) (x : Instruction) :
    role? b' depth (x.move d) = role? b depth x := by
  simp only [role?, Instruction.move, h.signature, h.signatures, h.functions, h.tables, h.memory, h.globals,
    h.localTypes]

def SameType (r r' : Tree × Scope) : Prop := r.1.type = r'.1.type ∧ r.2 = r'.2

def SameTypes (r r' : List Tree × Scope) : Prop :=
  List.Forall₂ (fun t t' => t.type = t'.type) r.1 r'.1 ∧ r.2 = r'.2

def Movable (b b' : FunctionBody) (d : Int) (e : Expr) : Prop :=
  ∀ σ, Option.Rel SameType (infer b e σ) (infer b' (e.move d) σ)

theorem inferAll_move (he : ∀ e ∈ es, Movable b b' d e) (σ : Scope) :
    Option.Rel SameTypes (inferAll b es σ) (inferAll b' (moveAll d es) σ) := by
  induction es generalizing σ with
  | nil => exact .some ⟨.nil, rfl⟩
  | cons e es ih =>
    obtain ⟨h₁, hrest⟩ := forall_mem_cons.mp he
    simp only [inferAll, moveAll, Option.bind_eq_bind]
    refine rel_bind (h₁ σ) ?_
    rintro ⟨t, σ₁⟩ ⟨t', _⟩ _ ⟨ht, rfl⟩
    refine rel_bind (ih hrest σ₁) ?_
    rintro ⟨ts, σ₂⟩ ⟨ts', _⟩ _ ⟨hts, rfl⟩
    exact .some ⟨.cons ht hts, rfl⟩

theorem acceptAll_congr {params : List ValType}
    (h : List.Forall₂ (fun t t' => t.type = t'.type) ts ts') : acceptAll params ts' = acceptAll params ts := by
  induction h generalizing params with
  | nil => rfl
  | cons ht _ ih =>
    cases params with
    | nil => rfl
    | cons τ params => rw [acceptAll, acceptAll, ht, ih]

theorem getLast?_rel (h : List.Forall₂ (fun t t' => t.type = t'.type) ts ts') :
    Option.Rel (fun t t' => t.type = t'.type) ts.getLast? ts'.getLast? := by
  rw [getLast?_eq_head?_reverse, getLast?_eq_head?_reverse]
  have hr := rel_reverse h
  generalize ts.reverse = us at hr ⊢
  generalize ts'.reverse = us' at hr ⊢
  cases hr with
  | nil => exact .none
  | cons ht _ => exact .some ht

theorem rel_guard {α β : Type} {R : α → β → Prop} {p : Prop} [Decidable p] {a : α} {c : β} (h : R a c) :
    Option.Rel R (if p then some a else none) (if p then some c else none) := by
  split
  · exact .some h
  · exact .none

theorem inferIf_move (he : ∀ e ∈ cs, Movable b b' d e) (σ : Scope) :
    Option.Rel SameType (inferIf b x cs σ) (inferIf b' (x.move d) (moveAll d cs) σ) := by
  match cs with
  | [] | [_] | _ :: _ :: _ :: _ => exact .none
  | [c, a] =>
    simp only [inferIf, moveAll, Option.bind_eq_bind]
    refine rel_bind (he c (by simp) σ) ?_
    rintro ⟨tc, σ₁⟩ ⟨tc', _⟩ _ ⟨hc, rfl⟩
    simp only at hc ⊢
    rw [hc]
    split
    · refine rel_bind (he a (by simp) σ₁) ?_
      rintro ⟨ta, σ₂⟩ ⟨ta', _⟩ _ ⟨-, rfl⟩
      exact .some ⟨rfl, rfl⟩
    · exact .none

theorem inferIfElse_move (he : ∀ e ∈ cs, Movable b b' d e) (σ : Scope) :
    Option.Rel SameType (inferIfElse b x cs σ) (inferIfElse b' (x.move d) (moveAll d cs) σ) := by
  match cs with
  | [] | [_] | [_, _] | _ :: _ :: _ :: _ :: _ => exact .none
  | [c, a, e] =>
    simp only [inferIfElse, moveAll, Option.bind_eq_bind]
    refine rel_bind (he c (by simp) σ) ?_
    rintro ⟨tc, σ₁⟩ ⟨tc', _⟩ _ ⟨hc, rfl⟩
    simp only at hc ⊢
    rw [hc]
    split
    · refine rel_bind (he a (by simp) σ₁) ?_
      rintro ⟨ta, σ₂⟩ ⟨ta', _⟩ _ ⟨ha, rfl⟩
      refine rel_bind (he e (by simp) _) ?_
      rintro ⟨te, σ₃⟩ ⟨te', _⟩ _ ⟨hte, rfl⟩
      simp only at ha hte ⊢
      rw [ha, hte]
      exact .some ⟨rfl, rfl⟩
    · exact .none

theorem infer_move (h : b.Resembles b') (e : Expr) : Movable b b' d e := by
  induction e using Expr.induction with
  | h x cs ih =>
    intro σ
    rw [Expr.move, infer, infer, role?_move h]
    cases role? b σ.goals.length x with
    | none => exact .none
    | some role =>
      simp only [Option.bind_eq_bind, Option.bind_some]
      cases role with
      | value params t | stop params =>
        refine rel_bind (inferAll_move ih σ) ?_
        rintro ⟨ts, σ₁⟩ ⟨ts', _⟩ _ ⟨hts, rfl⟩
        simp only [acceptAll_congr hts]
        exact rel_guard ⟨rfl, rfl⟩
      | block isLoop =>
        refine rel_bind (inferAll_move ih _) ?_
        rintro ⟨ts, σ₁⟩ ⟨ts', _⟩ _ ⟨hts, rfl⟩
        refine rel_bind (getLast?_rel hts) ?_
        intro last last' _ hlast
        simp only [hlast]
        cases σ₁.closeBlock isLoop last'.type with
        | none => exact .none
        | some r => exact .some ⟨rfl, rfl⟩
      | ifThen => exact inferIf_move ih σ
      | ifElse => exact inferIfElse_move ih σ
      | select =>
        refine rel_bind (inferAll_move ih σ) ?_
        rintro ⟨ts, σ₁⟩ ⟨ts', _⟩ _ ⟨hts, rfl⟩
        rcases hts with _ | ⟨hu, _ | ⟨hv, _ | ⟨hc, _ | ⟨_, _⟩⟩⟩⟩
        · exact .none
        · exact .none
        · exact .none
        · simp only [hu, hv, hc]
          exact rel_guard ⟨rfl, rfl⟩
        · exact .none
      | br depth =>
        refine rel_bind (inferAll_move ih σ) ?_
        rintro ⟨ts, σ₁⟩ ⟨ts', _⟩ _ ⟨hts, rfl⟩
        rcases hts with _ | ⟨hv, _ | ⟨_, _⟩⟩
        · exact .none
        · simp only [hv]
          exact .some ⟨rfl, rfl⟩
        · exact .none
      | brIf depth =>
        refine rel_bind (inferAll_move ih σ) ?_
        rintro ⟨ts, σ₁⟩ ⟨ts', _⟩ _ ⟨hts, rfl⟩
        rcases hts with _ | ⟨hv, _ | ⟨hc, _ | ⟨_, _⟩⟩⟩
        · exact .none
        · exact .none
        · simp only [hv, hc]
          exact rel_guard ⟨rfl, rfl⟩
        · exact .none
      | brTable depths =>
        refine rel_bind (inferAll_move ih σ) ?_
        rintro ⟨ts, σ₁⟩ ⟨ts', _⟩ _ ⟨hts, rfl⟩
        rcases hts with _ | ⟨hv, _ | ⟨hk, _ | ⟨_, _⟩⟩⟩
        · exact .none
        · exact .none
        · simp only [hv, hk]
          exact rel_guard ⟨rfl, rfl⟩
        · exact .none

theorem returns_congr (h : b.Resembles b') {σ : Scope}
    (hts : List.Forall₂ (fun t t' => t.type = t'.type) ts ts') : returns b' ts' σ = returns b ts σ := by
  have htype : b'.returnType = b.returnType := by
    rw [FunctionBody.returnType, FunctionBody.returnType, h.signature]
  have hlast := getLast?_rel hts
  unfold returns
  rw [htype]
  generalize ts.getLast? = l at hlast ⊢
  generalize ts'.getLast? = l' at hlast ⊢
  cases hlast with
  | none => rfl
  | some ht => rw [Option.any_some, Option.any_some, ht]

theorem onlyValues_of_resembles (h : b.Resembles b') (hv : b.OnlyValues) : b'.OnlyValues := by
  refine ⟨?_, ?_, ?_, ?_⟩
  · rw [h.signature]
    exact hv.signature
  · rw [h.signatures]
    exact hv.signatures
  · intro f hf
    obtain ⟨k, hk⟩ := mem_iff_getElem?.mp hf
    have htype := h.functions k
    rw [Module.functionType?, hk, Module.functionType?] at htype
    obtain ⟨g, hg, hgf⟩ := Option.map_eq_some_iff.mp htype.symm
    rw [← hgf]
    exact hv.functions g (mem_of_getElem? hg)
  · rw [h.globals]
    exact hv.globals

theorem input_move (h : b.Resembles b') : b'.input = b.input.move (b'.offset - b.offset) := by
  simp only [FunctionBody.input, Input.move, h.code, Input.mk.injEq, true_and]
  omega

theorem check_isOk :
    (∃ r, check b o = .ok r) ↔ ¬ o.localLimit < b.localTypes.length ∧ badLocal? b.localTypes = none ∧
      ∃ d, (run ⟨b, o.loopAnalysis, b.localTypes⟩ { state := { env := { reach := .once } } } b.input >>=
        finish ⟨b, o.loopAnalysis, b.localTypes⟩) = .ok d := by
  unfold check decodeWith
  dsimp only
  constructor
  · rintro ⟨r, h⟩
    split at h
    · cases h
    · rename_i hlimit
      split at h
      · cases h
      · rename_i hlocal
        obtain ⟨d, hrun, h⟩ := bind_eq_ok.mp h
        obtain ⟨d', hfin, -⟩ := bind_eq_ok.mp h
        exact ⟨hlimit, hlocal, d', bind_eq_ok.mpr ⟨d, hrun, hfin⟩⟩
  · rintro ⟨hlimit, hlocal, d', h⟩
    obtain ⟨d, hrun, hfin⟩ := bind_eq_ok.mp h
    rw [if_neg hlimit, hlocal]
    exact ⟨_, bind_eq_ok.mpr ⟨d, hrun, bind_eq_ok.mpr ⟨d', hfin, rfl⟩⟩⟩

theorem check_move (h : b.Resembles b') (hv : b.OnlyValues) {r : Result}
    (hc : check b o = .ok r) : ∃ r', check b' o = .ok r' := by
  obtain ⟨hlimit, hlocal, d, hd⟩ := check_isOk.mp ⟨r, hc⟩
  have htypes := h.localTypes
  have hvalues := badLocal?_eq_none.mp hlocal
  -- the checker by recursion accepts the one body, and with it the other
  have hctx : Context.OnlyValues ⟨b, o.loopAnalysis, b.localTypes⟩ := ⟨hv, hvalues⟩
  have hrun := run_agrees hctx rfl b.input
  rw [hd] at hrun
  obtain ⟨hfit, hrun⟩ := Option.ite_none_right_eq_some.mp hrun.symm
  obtain ⟨xs, hxs, hrun⟩ := Option.bind_eq_some_iff.mp hrun
  obtain ⟨es, hes, hrun⟩ := Option.bind_eq_some_iff.mp hrun
  obtain ⟨⟨ts, σ⟩, hinfer, hreturns⟩ := Option.bind_eq_some_iff.mp hrun
  obtain ⟨ts', hinfer', hts⟩ : ∃ ts', inferAll b' (moveAll (b'.offset - b.offset) es) {} = some (ts', σ) ∧
      List.Forall₂ (fun t t' => t.type = t'.type) ts ts' := by
    have hmove := inferAll_move (d := b'.offset - b.offset) (fun e (_ : e ∈ es) => infer_move h e) {}
    rw [hinfer] at hmove
    generalize inferAll b' (moveAll (b'.offset - b.offset) es) {} = inferred at hmove ⊢
    cases hmove with
    | @some _ r' hr =>
      obtain ⟨hts, rfl⟩ := hr
      exact ⟨r'.1, rfl, hts⟩
  have hreturns' : returns b' ts' σ = true := by
    rw [returns_congr h hts]
    exact (Option.ite_none_right_eq_some.mp hreturns).1
  have hctx' : Context.OnlyValues ⟨b', o.loopAnalysis, b'.localTypes⟩ :=
    ⟨onlyValues_of_resembles h hv, htypes ▸ hvalues⟩
  have hrun' := run_agrees hctx' rfl b'.input
  simp only [input_move h, childrenFit_move hxs, hfit, instructions_move hxs, Option.bind_some, forest_move h hes,
    hinfer', hreturns', if_true] at hrun'
  obtain ⟨d', hd', -⟩ := Option.map_eq_some_iff.mp hrun'
  apply check_isOk.mpr
  rw [htypes]
  refine ⟨hlimit, hlocal, d', ?_⟩
  rw [← htypes, input_move h]
  exact toOption_eq_some.mp hd'

end Body

end ProtoWasm
