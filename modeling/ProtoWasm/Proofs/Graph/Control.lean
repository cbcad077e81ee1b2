import Mathlib.Algebra.BigOperators.Group.Multiset.Basic
import ProtoWasm.Proofs.Graph.Growth

/-! # Control goes on once

Control leaves every point where it goes on by exactly one way: each of these nodes is an input of one node that
control comes to, or it is still held by an environment. A branch has its two directions and a switch its cases.
-/
namespace ProtoWasm

open List

/-- The operations from which control goes on. -/
def Op.continues : Op → Bool
  | .start | .ifTrue | .ifFalse | .ifValue | .ifDefault | .merge | .loop | .call | .callIndirect
  | .growMemory => true
  | _ => false

/-- The directions of a branch or a switch. -/
def Op.directs : Op → Bool
  | .ifTrue | .ifFalse | .ifValue | .ifDefault => true
  | _ => false

/-- The operations all of whose inputs are control. -/
def Op.collects (o : Op) : Bool := o.directs || o = .merge || o = .loop

/-- The inputs from which control comes to a node. -/
def Node.controls (x : Node) : List NodeId :=
  if x.op.collects then x.inputs
  else match x.op with
    | .branch | .switch | .ret | .unreachable | .call | .callIndirect | .growMemory =>
      x.inputs.getLast?.toList
    | _ => []

/-- The operations that control leaves in several directions. -/
def Op.splits (o : Op) : Bool := o = .branch || o = .switch

/-- The directions in which control leaves a branch or a switch. The last case of a switch is the default. -/
def Node.cases (x : Node) : List (Op × Nat) :=
  match x.op with
  | .branch => [(.ifTrue, 0), (.ifFalse, 0)]
  | .switch => (List.range (x.aux - 1)).map (fun i => (.ifValue, i)) ++ [(.ifDefault, 0)]
  | _ => []

namespace Graph

def uses (g : Graph) (n : NodeId) : Nat := (g.nodes.toList.flatMap Node.controls).count n

/-- The directions that depend on a node, with their cases. -/
def directions (g : Graph) (n : NodeId) : List (Op × Nat) :=
  (g.nodes.toList.filter fun x => x.op.directs && decide (n ∈ x.inputs)).map fun x => (x.op, x.aux)

/-- No way is lost or taken twice. -/
structure Controlled (g : Graph) : Prop where
  once : ∀ n x, g.node? n = some x → x.op.continues = true → g.uses n = 1
  branch : ∀ n x, g.node? n = some x → x.op = .branch → g.directions n = [(.ifTrue, 0), (.ifFalse, 0)]
  switch : ∀ n x, g.node? n = some x → x.op = .switch →
    g.directions n = (List.range (x.aux - 1)).map (fun i => (.ifValue, i)) ++ [(.ifDefault, 0)]

/-- The directions of a node that are still to be emitted. -/
def missing (table : Option (NodeId × List (Op × Nat))) (n : NodeId) : List (Op × Nat) :=
  match table with
  | some (m, rest) => if m = n then rest else []
  | none => []

/-- Control is held at some nodes, and it goes on from all others. -/
structure Balanced (g : Graph) (table : Option (NodeId × List (Op × Nat))) (held : Multiset NodeId) :
    Prop where
  once : ∀ n x, g.node? n = some x → x.op.continues = true → g.uses n + held.count n = 1
  fresh : ∀ n, g.node? n = none → g.uses n = 0
  held : ∀ n ∈ held, ∃ x, g.node? n = some x ∧ x.op.continues = true
  split : ∀ n x, g.node? n = some x → x.op.splits = true → g.directions n ++ missing table n = x.cases

variable {g g' : Graph} {x : Node} {n m control join : NodeId} {table : Option (NodeId × List (Op × Nat))}
  {held : Multiset NodeId} {f : Node → Node} {i aux : Nat} {o : Op}

section Counting

theorem uses_of_push (h : g'.nodes = g.nodes.push x) (n : NodeId) :
    g'.uses n = g.uses n + x.controls.count n := by
  simp [uses, h]

theorem directions_of_push (h : g'.nodes = g.nodes.push x) (n : NodeId) : g'.directions n =
      g.directions n ++ if x.op.directs = true ∧ n ∈ x.inputs then [(x.op, x.aux)] else [] := by
  simp only [directions, h, Array.toList_push, filter_append, map_append]
  by_cases hx : x.op.directs = true ∧ n ∈ x.inputs
  · simp [hx]
  · rw [if_neg hx]
    simpa using hx

theorem count_flatMap_modify {α : Type} {l : List α} {a : α} (f : α → α) (k : α → List NodeId)
    (h : l[i]? = some a) (n : NodeId) :
    ((l.modify i f).flatMap k).count n + (k a).count n = (l.flatMap k).count n + (k (f a)).count n := by
  induction l generalizing i with
  | nil => simp at h
  | cons b l ih =>
    cases i with
    | zero =>
      obtain rfl : b = a := by simpa using h
      simp only [modify_zero_cons, flatMap_cons, count_append]
      omega
    | succ i =>
      have := ih (by simpa using h)
      simp only [modify_succ_cons, flatMap_cons, count_append]
      omega

theorem uses_modifyNode (f : Node → Node) (hx : g.node? n = some x) (m : NodeId) :
    (g.modifyNode n f).uses m + x.controls.count m = g.uses m + (f x).controls.count m := by
  have hn : n ≠ 0 := by
    rintro rfl
    simp [node?] at hx
  simp only [node?, hn, if_false] at hx
  simp only [modifyNode, hn, if_false, uses, Array.toList_modify]
  exact count_flatMap_modify f Node.controls (by simpa using hx) m

theorem uses_modifyNode_of_controls (f : Node → Node) (hf : ∀ x, g.node? n = some x → (f x).controls = x.controls)
    (m : NodeId) : (g.modifyNode n f).uses m = g.uses m := by
  cases hx : g.node? n with
  | some x =>
    have h := uses_modifyNode f hx m
    rw [hf x hx] at h
    omega
  | none =>
    unfold modifyNode
    split
    · rfl
    · rename_i hn
      simp only [node?, hn, if_false] at hx
      have hx : g.nodes.size ≤ n - 1 := by simpa using hx
      have hsame : g.nodes.modify (n - 1) f = g.nodes := by
        apply Array.ext_getElem?
        intro i
        rw [Array.getElem?_modify]
        split
        · rename_i hi
          subst hi
          simp [hx]
        · rfl
      simp only [uses, hsame]

theorem directions_modify {l : List Node} (hf : ∀ x, l[i]? = some x → (f x).op = x.op ∧ (f x).aux = x.aux ∧
      (x.op.directs = true → (n ∈ (f x).inputs ↔ n ∈ x.inputs))) :
    ((l.modify i f).filter fun x => x.op.directs && decide (n ∈ x.inputs)).map (fun x => (x.op, x.aux)) =
      (l.filter fun x => x.op.directs && decide (n ∈ x.inputs)).map fun x => (x.op, x.aux) := by
  induction l generalizing i with
  | nil => simp
  | cons y l ih =>
    cases i with
    | zero =>
      obtain ⟨ho, ha, hi⟩ := hf y rfl
      by_cases hd : y.op.directs = true
      · by_cases hm : n ∈ y.inputs
        · simp [ho, ha, hd, hm, (hi hd).mpr hm]
        · simp [ho, hd, hm, mt (hi hd).mp hm]
      · simp [ho, hd]
    | succ i =>
      have h := ih (i := i) fun x hx => hf x (by simpa using hx)
      simp only [modify_succ_cons, filter_cons]
      split
      · rw [map_cons, map_cons, h]
      · exact h

theorem directions_modifyNode (hf : ∀ x, g.node? m = some x → (f x).op = x.op ∧ (f x).aux = x.aux ∧
      (x.op.directs = true → (n ∈ (f x).inputs ↔ n ∈ x.inputs))) :
    (g.modifyNode m f).directions n = g.directions n := by
  unfold modifyNode
  split
  · rfl
  · rename_i hm
    simp only [directions, Array.toList_modify]
    refine directions_modify fun x hx => hf x ?_
    simpa [node?, hm] using hx

theorem uses_pos_of_directions (h : g.directions n ≠ []) : 0 < g.uses n := by
  obtain ⟨r, hr⟩ := exists_mem_of_ne_nil _ h
  obtain ⟨x, hx, -⟩ := mem_map.mp hr
  obtain ⟨hx, hd⟩ := mem_filter.mp hx
  simp only [Bool.and_eq_true, decide_eq_true_eq] at hd
  refine count_pos_iff.mpr (mem_flatMap.mpr ⟨x, hx, ?_⟩)
  simpa [Node.controls, Op.collects, hd.1] using hd.2

end Counting

section Balance

namespace Balanced

theorem directions_of_fresh (h : g.Balanced table held) (hn : g.node? n = none) : g.directions n = [] := by
  by_contra hd
  have hu := uses_pos_of_directions hd
  rw [h.fresh n hn] at hu
  cases hu

theorem size_fresh (g : Graph) : g.node? (g.nodes.size + 1) = none := by
  simp [node?]

theorem ne_of_mem (h : g.Balanced table held) (hm : m ∈ held) (hn : g.node? n = none) : m ≠ n := by
  rintro rfl
  obtain ⟨x, hx, -⟩ := h.held m hm
  rw [hn] at hx
  cases hx

section

variable (hn : g'.nodes = g.nodes.push x)
include hn

/-- What holds control hands it over to a new node, which holds it if it goes on. -/
theorem add (table' : Option (NodeId × List (Op × Nat))) (rest : Multiset NodeId) (h : g.Balanced table held)
    (hx : ∀ m ∈ x.controls, ∃ y, g.node? m = some y)
    (hc : ∀ m y, g.node? m = some y → y.op.continues = true → held.count m = x.controls.count m + rest.count m)
    (hrest : ∀ m ∈ rest, m ∈ held)
    (hs : ∀ m y, g'.node? m = some y → y.op.splits = true → g'.directions m ++ missing table' m = y.cases) :
    g'.Balanced table' ((if x.op.continues then {g.nodes.size + 1} else 0) + rest) := by
  have hnode := node?_of_push hn
  have hfresh := size_fresh g
  have hcontrols {m : NodeId} (hm : g.node? m = none) : x.controls.count m = 0 := by
    refine count_eq_zero.mpr fun hmem => ?_
    obtain ⟨y, hy⟩ := hx m hmem
    rw [hm] at hy
    cases hy
  refine ⟨fun m y hy hk => ?_, fun m hm => ?_, fun m hm => ?_, hs⟩
  · rw [hnode] at hy
    rw [uses_of_push hn, Multiset.count_add]
    split at hy
    · rename_i hm
      cases hy
      subst hm
      have hz : rest.count (g.nodes.size + 1) = 0 :=
        Multiset.count_eq_zero.mpr fun hm => h.ne_of_mem (hrest _ hm) hfresh rfl
      rw [h.fresh _ hfresh, hcontrols hfresh, hk, if_pos rfl, hz, Multiset.count_singleton_self]
    · rename_i hm
      have hone := h.once m y hy hk
      have hnew : (if x.op.continues then ({g.nodes.size + 1} : Multiset NodeId) else 0).count m = 0 := by
        split <;> simp [hm]
      rw [hc m y hy hk] at hone
      omega
  · rw [hnode] at hm
    split at hm
    · cases hm
    · rw [uses_of_push hn, h.fresh m hm, hcontrols hm]
  · rw [hnode]
    rcases Multiset.mem_add.mp hm with hm | hm
    · split at hm
      · rename_i hk
        rw [Multiset.mem_singleton.mp hm, if_pos rfl]
        exact ⟨x, rfl, hk⟩
      · simp at hm
    · rw [if_neg (h.ne_of_mem (hrest m hm) hfresh)]
      exact h.held m (hrest m hm)

section

variable (hd : x.op.directs = false) (hs : x.op.splits = false)
include hd hs

theorem push (h : g.Balanced table (↑x.controls + held)) :
    g'.Balanced table ((if x.op.continues then {g.nodes.size + 1} else 0) + held) := by
  refine h.add hn _ _ (fun m hm => ?_) (fun m y _ _ => ?_) (fun m hm => ?_) fun m y hy ho => ?_
  · obtain ⟨y, hy, -⟩ := h.held m (Multiset.mem_add.mpr (.inl hm))
    exact ⟨y, hy⟩
  · rw [Multiset.count_add, Multiset.coe_count]
  · exact Multiset.mem_add.mpr (.inr hm)
  · rw [node?_of_push hn] at hy
    split at hy
    · cases hy
      rw [hs] at ho
      cases ho
    · rw [directions_of_push hn, hd, ← h.split m y hy ho]
      simp

theorem pushIdle (h : g.Balanced table held) (hc : x.controls = []) (hk : x.op.continues = false) :
    g'.Balanced table held := by
  have h' : g.Balanced table (↑x.controls + held) := by simpa [hc] using h
  simpa [hk] using h'.push hn hd hs

theorem pushOn (h : g.Balanced table (m ::ₘ held)) (hc : x.controls = [m]) (hk : x.op.continues = true) :
    g'.Balanced table ((g.nodes.size + 1) ::ₘ held) := by
  have h' : g.Balanced table (↑x.controls + held) := by simpa [hc] using h
  simpa [hk] using h'.push hn hd hs

theorem pushExit (h : g.Balanced table (m ::ₘ held)) (hc : x.controls = [m]) (hk : x.op.continues = false) :
    g'.Balanced table held := by
  have h' : g.Balanced table (↑x.controls + held) := by simpa [hc] using h
  simpa [hk] using h'.push hn hd hs

end

theorem pushSplit (h : g.Balanced none (m ::ₘ held))
    (hs : x.op.splits = true) (hc : x.controls = [m]) :
    g'.Balanced (some (g.nodes.size + 1, x.cases)) held := by
  have hop : x.op.directs = false ∧ x.op.continues = false := by
    unfold Op.splits at hs
    cases ho : x.op <;> simp_all [Op.directs, Op.continues]
  have hmem := Multiset.mem_cons_self m held
  have hadd := h.add hn (some (g.nodes.size + 1, x.cases)) held (fun k hk => ?_)
    (fun k y _ _ => ?_) (fun k hk => Multiset.mem_cons_of_mem hk) fun k y hy ho => ?_
  · simpa [hop.2] using hadd
  · obtain ⟨y, hy, -⟩ := h.held m hmem
    rw [hc, mem_singleton] at hk
    exact ⟨y, hk ▸ hy⟩
  · rw [← Multiset.singleton_add, Multiset.count_add, hc, ← Multiset.coe_singleton, Multiset.coe_count]
  · have hdir : g'.directions k = g.directions k := by
      rw [directions_of_push hn, hop.1]
      simp
    rw [node?_of_push hn] at hy
    rw [hdir, missing]
    split at hy
    · rename_i hk
      cases hy
      subst hk
      rw [h.directions_of_fresh (size_fresh g), if_pos rfl, nil_append]
    · rename_i hk
      rw [← h.split k y hy ho, missing, if_neg (Ne.symm hk)]

end

theorem directs_of_mem_cases (h : (o, aux) ∈ x.cases) :
    o.directs = true ∧ o.continues = true ∧ o.splits = false := by
  unfold Node.cases at h
  split at h
  · simp only [mem_cons, Prod.mk.injEq, not_mem_nil, or_false] at h
    rcases h with ⟨rfl, -⟩ | ⟨rfl, -⟩ <;> exact ⟨rfl, rfl, rfl⟩
  · rcases mem_append.mp h with h | h
    · obtain ⟨i, -, h⟩ := mem_map.mp h
      cases h
      exact ⟨rfl, rfl, rfl⟩
    · cases mem_singleton.mp h
      exact ⟨rfl, rfl, rfl⟩
  · simp at h

theorem pushCase {rest : List (Op × Nat)} (h : g.Balanced (some (n, (o, aux) :: rest)) held)
    (hx : g.node? n = some x) (hs : x.op.splits = true) :
    (g.add { op := o, aux, inputs := [n] }).2.Balanced (some (n, rest)) ((g.nodes.size + 1) ::ₘ held) := by
  have hcases := h.split n x hx hs
  rw [missing, if_pos rfl] at hcases
  have hmem : (o, aux) ∈ x.cases := by simp [← hcases]
  obtain ⟨hd, hk, ho⟩ := directs_of_mem_cases hmem
  have hn : (g.add { op := o, aux, inputs := [n] }).2.nodes = g.nodes.push { op := o, aux, inputs := [n] } := rfl
  have hc : ({ op := o, aux, inputs := [n] } : Node).controls = [n] := by
    simp [Node.controls, Op.collects, hd]
  have hadd := h.add hn (some (n, rest)) held (fun m hm => ?_) (fun m y hy hy' => ?_)
    (fun m hm => hm) fun m y hy hy' => ?_
  · rwa [hk, if_pos rfl, Multiset.singleton_add] at hadd
  · rw [hc, mem_singleton] at hm
    exact ⟨x, hm ▸ hx⟩
  · have hne : m ≠ n := by
      rintro rfl
      cases hx.symm.trans hy
      unfold Op.splits at hs
      cases ho : x.op <;> simp_all [Op.continues]
    rw [hc, count_eq_zero.mpr (by simpa using hne), Nat.zero_add]
  · rw [node?_of_push hn] at hy
    split at hy
    · cases hy
      rw [ho] at hy'
      cases hy'
    · rw [directions_of_push hn, ← h.split m y hy hy', missing, missing]
      by_cases hm : n = m
      · subst hm
        rw [if_pos rfl, if_pos rfl, if_pos ⟨hd, mem_singleton.mpr rfl⟩, append_assoc]
        rfl
      · rw [if_neg hm, if_neg hm, if_neg (by simp [Ne.symm hm]), append_nil]

theorem close (h : g.Balanced (some (n, [])) held) : g.Balanced none held := by
  refine ⟨h.once, h.fresh, h.held, fun m y hy ho => ?_⟩
  rw [← h.split m y hy ho, missing, missing, ite_self]

theorem emitBranch (h : g.Balanced none (control ::ₘ held)) (cond : NodeId) :
    (g.emitBranch cond control).2.Balanced none
      ((g.emitBranch cond control).1.1 ::ₘ (g.emitBranch cond control).1.2 ::ₘ held) := by
  let branch : Node := { op := .branch, inputs := [cond, control] }
  let b : NodeId × Graph := g.add branch
  let t : NodeId × Graph := b.2.add { op := .ifTrue, inputs := [b.1] }
  have hb : b.2.node? b.1 = some branch := node?_new rfl
  have ht : t.2.node? b.1 = some branch := node?_of_push_old rfl hb
  have h₁ : b.2.Balanced (some (b.1, branch.cases)) held := h.pushSplit rfl rfl rfl
  have h₂ : t.2.Balanced (some (b.1, [(.ifFalse, 0)])) (t.1 ::ₘ held) := h₁.pushCase hb rfl
  have h₃ := (h₂.pushCase ht rfl).close
  rw [Multiset.cons_swap] at h₃
  exact h₃

/-- A node gets other inputs, and what they are is no longer held. -/
theorem alter {rest : Multiset NodeId} (h : g.Balanced table held)
    (hf : ∀ x, g.node? n = some x → (f x).op = x.op ∧ (f x).aux = x.aux)
    (hu : ∀ m, (g.modifyNode n f).uses m + rest.count m = g.uses m + held.count m)
    (hrest : ∀ m ∈ rest, m ∈ held)
    (hd : ∀ m y, g.node? m = some y → y.op.splits = true → (g.modifyNode n f).directions m = g.directions m) :
    (g.modifyNode n f).Balanced table rest := by
  have hnode {m : NodeId} {y : Node} (hy : (g.modifyNode n f).node? m = some y) :
      ∃ x, g.node? m = some x ∧ y.op = x.op ∧ y.aux = x.aux := by
    rw [node?_modifyNode] at hy
    split at hy
    · rename_i hm
      subst hm
      obtain ⟨x, hx, rfl⟩ := Option.map_eq_some_iff.mp hy
      exact ⟨x, hx, hf x hx⟩
    · exact ⟨y, hy, rfl, rfl⟩
  refine ⟨fun m y hy hk => ?_, fun m hm => ?_, fun m hm => ?_, fun m y hy ho => ?_⟩
  · obtain ⟨x, hx, hop, -⟩ := hnode hy
    rw [hu, h.once m x hx (hop ▸ hk)]
  · have hm : g.node? m = none := by
      rw [node?_modifyNode] at hm
      split at hm
      · exact Option.map_eq_none_iff.mp hm
      · exact hm
    have hz : held.count m = 0 := Multiset.count_eq_zero.mpr fun hmem => h.ne_of_mem hmem hm rfl
    have hum := hu m
    rw [h.fresh m hm, hz] at hum
    omega
  · obtain ⟨x, hx, hk⟩ := h.held m (hrest m hm)
    rw [node?_modifyNode]
    split
    · rename_i hmn
      subst hmn
      exact ⟨f x, by rw [hx]; rfl, by rw [(hf x hx).1, hk]⟩
    · exact ⟨x, hx, hk⟩
  · obtain ⟨x, hx, hop, haux⟩ := hnode hy
    have hcases : y.cases = x.cases := by rw [Node.cases, Node.cases, hop, haux]
    rw [hd m x hx (hop ▸ ho), hcases, h.split m x hx (hop ▸ ho)]

theorem modify (h : g.Balanced table held)
    (hf : ∀ x, g.node? n = some x → (f x).op = x.op ∧ (f x).aux = x.aux ∧ (f x).controls = x.controls) :
    (g.modifyNode n f).Balanced table held := by
  refine h.alter (fun x hx => ⟨(hf x hx).1, (hf x hx).2.1⟩) (fun m => ?_) (fun m hm => hm) fun m y _ _ => ?_
  · rw [uses_modifyNode_of_controls f fun x hx => (hf x hx).2.2]
  · refine directions_modifyNode fun x hx => ⟨(hf x hx).1, (hf x hx).2.1, fun hd => ?_⟩
    have hc := (hf x hx).2.2
    have hd' : (f x).op.directs = true := by rw [(hf x hx).1, hd]
    simp only [Node.controls, Op.collects, hd, hd', Bool.true_or, if_true] at hc
    rw [hc]

theorem setOffset (h : g.Balanced table held) (n : NodeId) (offset : Int) :
    (g.setOffset n offset).Balanced table held :=
  h.modify fun _ _ => ⟨rfl, rfl, rfl⟩

theorem appendToPhi {phi : NodeId} (h : g.Balanced table held) (hp : g.isPhiOf phi join = true)
    (value : NodeId) : (g.appendToPhi join phi value).Balanced table held := by
  refine h.modify fun x hx => ⟨rfl, rfl, ?_⟩
  obtain ⟨y, hy, ho, -⟩ := isPhiOf_eq_true hp
  cases hx.symm.trans hy
  rcases ho with ho | ho <;> simp [Node.controls, Op.collects, Op.directs, ho]

/-- One more way into a join takes control over from where it is held. -/
theorem appendToMerge (h : g.Balanced table (control ::ₘ held))
    (hx : g.node? join = some x) (hc : x.op.collects = true) :
    (g.appendToMerge join control).Balanced table held := by
  refine h.alter (fun _ _ => ⟨rfl, rfl⟩) (fun m => ?_) (fun m hm => Multiset.mem_cons_of_mem hm)
    fun m y hy ho => ?_
  · have hu := uses_modifyNode (fun n => { n with inputs := n.inputs ++ [control] }) hx m
    simp only [Node.controls, hc, if_true, count_append] at hu
    rw [← Multiset.singleton_add, Multiset.count_add, ← Multiset.coe_singleton, Multiset.coe_count]
    omega
  · refine directions_modifyNode fun z hz => ⟨rfl, rfl, fun hd => ?_⟩
    obtain ⟨w, hw, hk⟩ := h.held control (Multiset.mem_cons_self control held)
    have hne : m ≠ control := by
      rintro rfl
      cases hy.symm.trans hw
      unfold Op.splits at ho
      cases ho : y.op <;> simp_all [Op.continues]
    simp [hne]

/-- Where nothing is held, control goes on from everywhere. -/
theorem controlled (h : g.Balanced none 0) : g.Controlled := by
  refine ⟨fun n x hx hk => ?_, fun n x hx ho => ?_, fun n x hx ho => ?_⟩
  · simpa using h.once n x hx hk
  · have hs := h.split n x hx (by rw [ho]; rfl)
    rwa [missing, append_nil, Node.cases, ho] at hs
  · have hs := h.split n x hx (by rw [ho]; rfl)
    rwa [missing, append_nil, Node.cases, ho] at hs

end Balanced

end Balance

end Graph

end ProtoWasm
