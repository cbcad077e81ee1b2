import Mathlib.Data.List.Basic
import ProtoWasm.Body.Basic
import ProtoWasm.Body.Operands

/-! # The grammar of bodies

Code is a list of instructions, and a list of instructions is the pre-order listing of at most one forest in which
every instruction has the children it asks for.
-/
namespace ProtoWasm

open List

namespace Body

inductive Expr where
  | node (x : Instruction) (children : List Expr)

end Body

/-- How many children an instruction has in a body, if it has a meaning there. -/
def FunctionBody.arity? (b : FunctionBody) (x : Body.Instruction) : Option Nat :=
  Body.childCount b.module b.signature.results.length x.opcode.form x.operands

namespace Body

namespace Expr

mutual

def code : Expr → List Instruction
  | node x cs => x :: codeAll cs

def codeAll : List Expr → List Instruction
  | [] => []
  | e :: es => code e ++ codeAll es

end

mutual

/-- The most expressions that wait for children at once while the expression is decoded. -/
def height : Expr → Nat
  | node _ cs => if cs.isEmpty then 0 else heightAll cs + 1

def heightAll : List Expr → Nat
  | [] => 0
  | e :: es => max (height e) (heightAll es)

end

mutual

def Shaped (b : FunctionBody) : Expr → Prop
  | node x cs => b.arity? x = some cs.length ∧ ShapedAll b cs

def ShapedAll (b : FunctionBody) : List Expr → Prop
  | [] => True
  | e :: es => Shaped b e ∧ ShapedAll b es

end

/-- What holds of an expression if it holds of its children holds of every expression. -/
theorem induction {P : Expr → Prop} (h : ∀ x cs, (∀ c ∈ cs, P c) → P (node x cs)) : ∀ e, P e
  | node x cs => h x cs (all cs)
where
  all : ∀ cs : List Expr, ∀ c ∈ cs, P c
    | [], _, hc => absurd hc not_mem_nil
    | e :: es, c, hc => (mem_cons.mp hc).elim (fun hce => hce ▸ induction h e) (all es c)

theorem codeAll_append (es fs : List Expr) : codeAll (es ++ fs) = codeAll es ++ codeAll fs := by
  induction es with
  | nil => rfl
  | cons e es ih => simp only [cons_append, codeAll, ih, append_assoc]

theorem shapedAll_iff {b : FunctionBody} {es : List Expr} : ShapedAll b es ↔ ∀ e ∈ es, Shaped b e := by
  induction es with
  | nil => simp [ShapedAll]
  | cons e es ih => simp [ShapedAll, ih]

end Expr

open Body.Expr

def forest (b : FunctionBody) : List Instruction → Option (List Expr)
  | [] => some []
  | x :: xs => do
    let es ← forest b xs
    let n ← b.arity? x
    if n ≤ es.length then some (.node x (es.take n) :: es.drop n) else none

variable {b : FunctionBody} {x : Instruction} {xs : List Instruction} {es : List Expr} {i : Input}

theorem forest_cons {n : Nat} (hf : forest b xs = some es) (hn : b.arity? x = some n) (hl : n ≤ es.length) :
    forest b (x :: xs) = some (.node x (es.take n) :: es.drop n) := by
  simp [forest, hf, hn, hl]

theorem forest_cons_inv (h : forest b (x :: xs) = some es) :
    ∃ fs n, forest b xs = some fs ∧ b.arity? x = some n ∧ n ≤ fs.length ∧
      es = .node x (fs.take n) :: fs.drop n := by
  simp only [forest, Option.bind_eq_bind, Option.bind_eq_some_iff] at h
  obtain ⟨fs, hf, n, hn, h⟩ := h
  split at h
  · rename_i hl
    cases h
    exact ⟨fs, n, hf, hn, hl, rfl⟩
  · cases h

theorem codeAll_of_forest (h : forest b xs = some es) : codeAll es = xs ∧ ShapedAll b es := by
  induction xs generalizing es with
  | nil =>
    cases h
    exact ⟨rfl, trivial⟩
  | cons x xs ih =>
    obtain ⟨fs, n, hf, hn, hl, rfl⟩ := forest_cons_inv h
    obtain ⟨hc, hs⟩ := ih hf
    rw [shapedAll_iff] at hs
    have ht : (fs.take n).length = n := length_take_of_le hl
    refine ⟨?_, ⟨by rw [hn, ht], ?_⟩, ?_⟩
    · rw [codeAll, code, cons_append, ← codeAll_append, take_append_drop, hc]
    · exact shapedAll_iff.mpr fun e he => hs e (mem_of_mem_take he)
    · exact shapedAll_iff.mpr fun e he => hs e (mem_of_mem_drop he)

/-- The instructions of code that starts at an offset, if all of it can be read. -/
def instructions (i : Input) : Option (List Instruction) :=
  match _hb : i.bytes with
  | [] => some []
  | c :: rest =>
    match _ho : readOperands (⟨c⟩ : Opcode).form ⟨rest, i.offset + 1⟩ with
    | .error _ => none
    | .ok (ops, j) => (instructions j).map (⟨i.offset, ⟨c⟩, ops⟩ :: ·)
termination_by i.remaining
decreasing_by
  have h := shrinks_readOperands _ _ _ _ _ho
  simp only [Input.remaining] at h ⊢
  simp only [_hb, length_cons]
  omega

theorem instructions_of_nil (h : i.bytes = []) : instructions i = some [] := by
  unfold instructions
  split
  · rfl
  · rename_i h'
    cases h.symm.trans h'

theorem instructions_of_cons {c : UInt8} {rest : List UInt8} (h : i.bytes = c :: rest) :
    instructions i = match readOperands (⟨c⟩ : Opcode).form ⟨rest, i.offset + 1⟩ with
      | .error _ => none
      | .ok (ops, j) => (instructions j).map (⟨i.offset, ⟨c⟩, ops⟩ :: ·) := by
  rw [instructions]
  split
  · rename_i h'
    cases h.symm.trans h'
  · rename_i h'
    cases h.symm.trans h'
    split <;> rename_i ho <;> rw [ho]

theorem instructions_eq_cons (h : instructions i = some (x :: xs)) :
    ∃ c rest ops j, i.bytes = c :: rest ∧
      readOperands (⟨c⟩ : Opcode).form ⟨rest, i.offset + 1⟩ = .ok (ops, j) ∧
      x = ⟨i.offset, ⟨c⟩, ops⟩ ∧ instructions j = some xs := by
  match hi : i.bytes with
  | [] =>
    rw [instructions_of_nil hi] at h
    cases h
  | c :: rest =>
    rw [instructions_of_cons hi] at h
    split at h
    · cases h
    · rename_i ops j ho
      obtain ⟨ys, hy, h⟩ := Option.map_eq_some_iff.mp h
      cases h
      exact ⟨c, rest, ops, j, rfl, ho, rfl, hy⟩

theorem bytes_of_instructions_nil (h : instructions i = some []) : i.bytes = [] := by
  match hi : i.bytes with
  | [] => rfl
  | c :: rest =>
    rw [instructions_of_cons hi] at h
    split at h
    · cases h
    · obtain ⟨ys, _, h⟩ := Option.map_eq_some_iff.mp h
      cases h

end Body

end ProtoWasm
