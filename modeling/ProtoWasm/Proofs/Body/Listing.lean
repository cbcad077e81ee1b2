import ProtoWasm.Proofs.Body.Assignment

/-! # The trees of a body list its code -/
namespace ProtoWasm

open List

namespace Tree

mutual

/-- The ways from a tree down to each of its expressions. -/
def paths : Tree → List (List Tree)
  | missing => []
  | expr op t o n cs => [expr op t o n cs] :: (pathsAll cs).map (expr op t o n cs :: ·)

def pathsAll : List Tree → List (List Tree)
  | [] => []
  | t :: ts => paths t ++ pathsAll ts

end

def branching (path : List Tree) : Nat := path.countP fun t => !t.children.isEmpty

/-- An expression stands in the code at its offset, with `n` bytes of operands, and has as many children as they call
for. -/
def Stands (b : FunctionBody) (t : Tree) (n : Nat) : Prop :=
  ∃ (pos : Nat) (ops : Body.Operands) (j : Input), t.offset = b.offset + pos ∧ b.code[pos]? = some t.opcode.code ∧
    Reader.measured (Body.readOperands t.opcode.form) ⟨b.code.drop (pos + 1), t.offset + 1⟩ = .ok ((ops, n), j) ∧
    b.arity? ⟨t.offset, t.opcode, ops⟩ = some t.children.length ∧ ∀ c ∈ t.children, c ≠ .missing

/-- The expressions stand one after another in the code, from an offset on to the end of the code. -/
def Listed (b : FunctionBody) : List Tree → Int → Prop
  | [], start => start = b.offset + b.code.length
  | t :: ts, start => t.offset = start ∧ ∃ n, t.Stands b n ∧ Listed b ts (start + 1 + n)

end Tree

namespace Body

open Body.Expr

variable {b : FunctionBody} {es : List Expr} {ts : List Tree}

/-- A tree shows an instruction with as many children as it asks for. -/
def Shows (b : FunctionBody) (t : Tree) (x : Instruction) : Prop :=
  t.opcode = x.opcode ∧ t.offset = x.offset ∧ b.arity? x = some t.children.length ∧ ∀ c ∈ t.children, c ≠ .missing

theorem MirrorsAll.length_eq (h : MirrorsAll es ts) : ts.length = es.length := by
  induction es generalizing ts with
  | nil =>
    cases ts with
    | nil => rfl
    | cons t ts => cases h
  | cons e es ih =>
    cases ts with
    | nil => cases h
    | cons t ts => rw [length_cons, length_cons, ih h.2]

theorem MirrorsAll.ne_missing (h : MirrorsAll es ts) : ∀ t ∈ ts, t ≠ .missing := by
  induction es generalizing ts with
  | nil =>
    cases ts with
    | nil => exact forall_mem_nil _
    | cons t ts => cases h
  | cons e es ih =>
    cases ts with
    | nil => cases h
    | cons t ts =>
      refine forall_mem_cons.mpr ⟨?_, ih h.2⟩
      rintro rfl
      obtain ⟨x, cs⟩ := e
      exact absurd h.1 (by simp [Mirrors])

mutual

theorem Mirrors.shows : ∀ {e : Expr} {t : Tree}, Shaped b e → Mirrors e t →
    List.Forall₂ (Shows b) t.preorder e.code
  | .node x cs, .expr .., hs, ⟨rfl, rfl, h⟩ =>
    .cons ⟨rfl, rfl, by rw [hs.1, ← h.length_eq]; rfl, h.ne_missing⟩ (MirrorsAll.shows hs.2 h)

theorem MirrorsAll.shows : ∀ {es : List Expr} {ts : List Tree}, ShapedAll b es → MirrorsAll es ts →
    List.Forall₂ (Shows b) (Tree.preorderAll ts) (codeAll es)
  | [], [], _, _ => .nil
  | _ :: _, _ :: _, hs, h => rel_append (Mirrors.shows hs.1 h.1) (MirrorsAll.shows hs.2 h.2)

end

theorem measured_of_eq_ok {α : Type} {r : Reader α} {i j : Input} {a : α} (h : r i = .ok (a, j)) :
    Reader.measured r i = .ok ((a, i.remaining - j.remaining), j) := by
  unfold Reader.measured
  rw [h]
  rfl

/-- What shows the instructions of the rest of the code stands in it. -/
theorem listed_of_shows {before : List UInt8} {i : Input} {xs : List Instruction} (hb : b.code = before ++ i.bytes)
    (hoff : i.offset = b.offset + before.length) (hi : instructions i = some xs)
    (h : List.Forall₂ (Shows b) ts xs) : Tree.Listed b ts i.offset := by
  induction h generalizing before i with
  | nil =>
    rw [bytes_of_instructions_nil hi, append_nil] at hb
    rw [Tree.Listed, hoff, hb]
  | @cons t x ts xs ht _ ih =>
    obtain ⟨c, rest, ops, j, hbytes, ho, rfl, hj⟩ := instructions_eq_cons hi
    obtain ⟨hop, hoffset, harity, hchildren⟩ := ht
    obtain ⟨used, rfl, hend⟩ := advances_readOperands _ _ _ _ ho
    dsimp only at hop hoffset hend
    rw [hbytes] at hb
    have hnext : b.code = (before ++ c :: used) ++ j.bytes := by
      rw [hb, append_assoc, cons_append]
    refine ⟨hoffset, used.length, ⟨before.length, ops, j, hoffset.trans hoff, ?_, ?_, ?_, hchildren⟩, ?_⟩
    · rw [hb, hop, getElem?_append_right le_rfl, Nat.sub_self]
      rfl
    · rw [hb, hop, hoffset, ← drop_drop, drop_left, drop_one, tail_cons,
        measured_of_eq_ok ho]
      simp [Input.remaining]
    · rw [hop, hoffset]
      exact harity
    · rw [← hend]
      refine ih hnext ?_ hj
      rw [hend, hoff, length_append, length_cons]
      push_cast
      omega

theorem max_foldr_map_add (c : Nat) (l : List Nat) : max c ((l.map (c + ·)).foldr max 0) = c + l.foldr max 0 := by
  induction l with
  | nil => exact Nat.max_zero c
  | cons n l ih =>
    rw [map_cons, foldr_cons, foldr_cons, Nat.max_left_comm, ih, Nat.add_max_add_left]

theorem foldr_max_append (l l' : List Nat) : (l ++ l').foldr max 0 = max (l.foldr max 0) (l'.foldr max 0) := by
  induction l with
  | nil => exact (Nat.zero_max _).symm
  | cons n l ih => rw [cons_append, foldr_cons, foldr_cons, ih, Nat.max_assoc]

mutual

theorem Mirrors.branching_paths : ∀ {e : Expr} {t : Tree}, Mirrors e t →
    (t.paths.map Tree.branching).foldr max 0 = e.height
  | .node x cs, .expr op type o n ts, ⟨_, _, h⟩ => by
    rw [height, ← h.branching_pathsAll]
    match cs, ts, h with
    | [], [], _ => rfl
    | _ :: _, t :: ts, _ =>
      have hb : Tree.branching ∘ (Tree.expr op type o n (t :: ts) :: ·) =
          (1 + ·) ∘ Tree.branching := by
        funext path
        simp [Tree.branching, Tree.children, Nat.add_comm]
      rw [Tree.paths, map_cons, map_map, hb, ← map_map, foldr_cons]
      exact (max_foldr_map_add 1 _).trans (Nat.add_comm 1 _)

theorem MirrorsAll.branching_pathsAll : ∀ {es : List Expr} {ts : List Tree}, MirrorsAll es ts →
    ((Tree.pathsAll ts).map Tree.branching).foldr max 0 = heightAll es
  | [], [], _ => rfl
  | e :: es, t :: ts, h => by
    rw [Tree.pathsAll, map_append, foldr_max_append, Mirrors.branching_paths h.1,
      MirrorsAll.branching_pathsAll h.2, heightAll]

end

/-- The trees of an accepted body are its code, parsed: listed each before its children the expressions stand in the
code one after another, from the first byte to the last, with the children that their operands call for. The result
counts them, and its depth is the largest number of expressions with children on a way down to an expression. -/
theorem decodeWith_listed {o : Options} {graph : Option Graph} {r : Result} (h : decodeWith b o graph = .ok r) :
    (Tree.preorderAll r.trees = [] ↔ b.code = []) ∧ Tree.Listed b (Tree.preorderAll r.trees) b.offset ∧
      (∀ t ∈ r.trees, t ≠ .missing) ∧ r.opcodes = (Tree.preorderAll r.trees).length ∧
      r.depth = ((Tree.pathsAll r.trees).map Tree.branching).foldr max 0 := by
  obtain ⟨xs, es, ts, s, d, hi, hf, -, hts, -, rfl⟩ := decodeWith_eq_ok h
  obtain ⟨rfl, hs⟩ := codeAll_of_forest hf
  have hmirrors := (evalAll_decoded hs hts).1
  have hshows := hmirrors.shows hs
  have hbytes : b.code = [] ++ b.input.bytes := rfl
  refine ⟨⟨fun hnil => ?_, fun hnil => ?_⟩, listed_of_shows hbytes (Int.add_zero _).symm hi hshows, hmirrors.ne_missing,
    hshows.length_eq.symm, hmirrors.branching_pathsAll.symm⟩
  · dsimp only at hnil
    rw [hnil, forall₂_nil_left_iff] at hshows
    exact bytes_of_instructions_nil (hshows ▸ hi)
  · rw [instructions_of_nil hnil, Option.some.injEq] at hi
    rwa [← hi, forall₂_nil_right_iff] at hshows

theorem decodeWith_listed_stepping :
    ∃ r, decodeWith stepping {} none = .ok r ∧ Tree.Listed stepping (Tree.preorderAll r.trees) 100 ∧
      (Tree.preorderAll r.trees).length = 9 ∧ ((Tree.pathsAll r.trees).map Tree.branching).foldr max 0 = 4 := by
  have hok : (decodeWith stepping {} none).toOption.map (fun r => (r.opcodes, r.depth)) = some (9, 4) := by
    decide +kernel
  obtain ⟨r, hr, hok⟩ := Option.map_eq_some_iff.mp hok
  obtain ⟨hopcodes, hdepth⟩ := Prod.mk.inj hok
  have hr := toOption_eq_some.mp hr
  obtain ⟨-, hlisted, -, hcount, hdeep⟩ := decodeWith_listed hr
  exact ⟨r, hr, hlisted, hcount ▸ hopcodes, hdeep ▸ hdepth⟩

end Body

end ProtoWasm
