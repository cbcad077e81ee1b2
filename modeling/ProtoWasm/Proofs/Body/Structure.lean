import ProtoWasm.Proofs.Body.Emission

/-! # The structure of control in graphs

The directions of a branch depend on a branch and on nothing else, those of a switch on a switch, and the values that
meet at a join on that join. Joining environments keeps this structure.
-/
namespace ProtoWasm

open List

def Graph.IsJoin (g : Graph) (n : NodeId) : Prop := g.op? n = some .merge ∨ g.op? n = some .loop

structure Node.Structured (g : Graph) (x : Node) : Prop where
  branch : x.op = .ifTrue ∨ x.op = .ifFalse → ∃ n, x.inputs = [n] ∧ g.op? n = some .branch
  switch : x.op = .ifValue ∨ x.op = .ifDefault → ∃ n, x.inputs = [n] ∧ g.op? n = some .switch
  join : x.op = .phi ∨ x.op = .effectPhi → ∃ n, x.inputs.getLast? = some n ∧ g.IsJoin n

def Graph.Structured (g : Graph) : Prop := g.Holds Node.Structured

theorem Node.structured_of_plain {g : Graph} {x : Node} (h : x.op.plain = true) : x.Structured g := by
  constructor <;> rintro (hx | hx) <;> rw [hx] at h <;> cases h

theorem Node.structured_of_phi {g : Graph} {x : Node} {join : NodeId} (h : x.op = .phi ∨ x.op = .effectPhi)
    (hl : x.inputs.getLast? = some join) (hj : g.IsJoin join) : x.Structured g := by
  refine ⟨?_, ?_, fun _ => ⟨join, hl, hj⟩⟩ <;> rintro (hx | hx) <;> rw [hx] at h <;> simp at h

namespace Graph

variable {g g' : Graph} {x : Node} {n join : NodeId} {o : Op}

theorem isJoin_emitMerge (g : Graph) (controls : List NodeId) :
    (g.emitMerge controls).2.IsJoin (g.emitMerge controls).1 :=
  .inl (op?_add g _)

theorem isJoin_emitLoop (g : Graph) (entry : NodeId) : (g.emitLoop entry).2.IsJoin (g.emitLoop entry).1 :=
  .inr (op?_add g _)

theorem IsJoin.of_extends (h : g.Extends g') (hn : g.IsJoin n) : g'.IsJoin n :=
  hn.imp (op?_of_extends h) (op?_of_extends h)

theorem stable_structured : Stable Node.Structured := by
  intro g g' x hg hx
  constructor
  · intro ho
    obtain ⟨n, hn, hop⟩ := hx.branch ho
    exact ⟨n, hn, op?_of_extends hg hop⟩
  · intro ho
    obtain ⟨n, hn, hop⟩ := hx.switch ho
    exact ⟨n, hn, op?_of_extends hg hop⟩
  · intro ho
    obtain ⟨n, hn, hop⟩ := hx.join ho
    exact ⟨n, hn, hop.of_extends hg⟩

namespace Structured

section

variable (h : g.Structured)
include h

theorem plain (hp : g.Plain g') : g'.Structured := by
  intro n y hy
  rcases hp.nodes n y hy with ho | ⟨x, hx, hop, hin⟩
  · exact Node.structured_of_plain ho
  · have hx := stable_structured g g' x hp.grows (h n x hx)
    exact ⟨by rw [← hop, ← hin]; exact hx.branch, by rw [← hop, ← hin]; exact hx.switch,
      by rw [← hop, ← hin]; exact hx.join⟩

theorem push (hn : g'.nodes = g.nodes.push x) (hx : x.Structured g') : g'.Structured :=
  Holds.push stable_structured h hn hx

theorem pushPhi (hn : g'.nodes = g.nodes.push x) (hx : x.op = .phi ∨ x.op = .effectPhi)
    (hl : x.inputs.getLast? = some join) (hj : g.IsJoin join) : g'.Structured :=
  h.push hn (Node.structured_of_phi hx hl (hj.of_extends (.push hn)))

theorem appendToMerge (hj : g.IsJoin join) (control : NodeId) :
    (g.appendToMerge join control).Structured := by
  refine Holds.modify stable_structured h fun x hx => ⟨⟨rfl, rfl, rfl, by simp⟩, Node.structured_of_plain ?_⟩
  have hop : g.op? join = some x.op := by rw [op?, hx]; rfl
  have ho : x.op = .merge ∨ x.op = .loop := by simpa [IsJoin, hop] using hj
  rcases ho with ho | ho <;> simp [ho, Op.plain]

theorem appendToPhi (hj : g.IsJoin join) {phi : NodeId} (hp : g.isPhiOf phi join = true)
    (value : NodeId) : (g.appendToPhi join phi value).Structured := by
  have hext := (Body.appendToPhi_builds g join phi value).extends
  obtain ⟨y, hy, ho, -⟩ := isPhiOf_eq_true hp
  refine Holds.modify stable_structured h fun x hx => ⟨⟨rfl, rfl, rfl, by simp; omega⟩, ?_⟩
  cases hy.symm.trans hx
  exact Node.structured_of_phi ho (by simp) (hj.of_extends hext)

theorem pushDirection (hn : g'.nodes = g.nodes.push x) (hi : x.inputs = [n])
    (hx : (x.op = .ifTrue ∨ x.op = .ifFalse) ∧ g.op? n = some .branch ∨
      (x.op = .ifValue ∨ x.op = .ifDefault) ∧ g.op? n = some .switch) : g'.Structured := by
  have hg : g.Extends g' := .push hn
  refine h.push hn ?_
  rcases hx with ⟨hx, ho⟩ | ⟨hx, ho⟩
  · refine ⟨fun _ => ⟨n, hi, op?_of_extends hg ho⟩, ?_, ?_⟩ <;> rintro (h | h) <;> rw [h] at hx <;> simp at hx
  · refine ⟨?_, fun _ => ⟨n, hi, op?_of_extends hg ho⟩, ?_⟩ <;> rintro (h | h) <;> rw [h] at hx <;> simp at hx

theorem emitBranch (cond control : NodeId) : (g.emitBranch cond control).2.Structured := by
  let b : NodeId × Graph := g.add { op := .branch, inputs := [cond, control] }
  let t : NodeId × Graph := b.2.add { op := .ifTrue, inputs := [b.1] }
  have hb : b.2.op? b.1 = some .branch := op?_add g _
  have h₁ : b.2.Structured := h.push rfl (Node.structured_of_plain rfl)
  have h₂ : t.2.Structured := h₁.pushDirection rfl rfl (.inl ⟨.inl rfl, hb⟩)
  exact h₂.pushDirection rfl rfl (.inl ⟨.inr rfl, op?_of_extends (.push rfl) hb⟩)

theorem emitSelect (c : Chain) (t : ValType) (cond a b : NodeId) :
    (Body.emitSelect g c t cond a b).2.2.Structured := by
  have hb := h.emitBranch cond c.control
  let m := (g.emitBranch cond c.control).2.emitMerge
    [(g.emitBranch cond c.control).1.1, (g.emitBranch cond c.control).1.2]
  have hm : m.2.Structured := hb.push rfl (Node.structured_of_plain rfl)
  exact hm.pushPhi rfl (.inl rfl) getLast?_concat (isJoin_emitMerge _ _)

end

end Structured

end Graph

namespace Body

open ProtoWasm.Graph

def Env.Anchored (g : Graph) (e : Env) : Prop := e.reach = .joined → g.IsJoin e.chain.control

variable {g g' : Graph} {source target env : Env}

theorem Env.Anchored.of_extends (hg : g.Extends g') (h : env.Anchored g) : env.Anchored g' :=
  fun hr => (h hr).of_extends hg

section Joins

variable (types : List ValType)

theorem Merges.structured {join : NodeId} (h : Merges join g g') (hg : g.Structured) (hj : g.IsJoin join) :
    g'.Structured := by
  induction h with
  | refl => exact hg
  | phi h hn _ hx hl ih => exact ih.pushPhi hn hx hl (hj.of_extends h.builds.extends)
  | append h hp value ih => exact ih.appendToPhi (hj.of_extends h.builds.extends) hp value

theorem joinReached_structured (h : g.Structured) (source target : Env) :
    (joinReached types source target g).2.Structured ∧
      (joinReached types source target g).1.Anchored (joinReached types source target g).2 := by
  let merge := g.emitMerge [target.chain.control, source.chain.control]
  have hm : merge.2.Structured := h.push rfl (Node.structured_of_plain rfl)
  have hj : merge.2.IsJoin merge.1 := isJoin_emitMerge _ _
  have hmerges : Merges merge.1 merge.2 _ := joinReached_merges types source target
  exact ⟨hmerges.structured hm hj, fun _ => hj.of_extends hmerges.builds.extends⟩

theorem joinMore_structured (h : g.Structured) (source : Env) (ht : g.IsJoin target.chain.control) :
    (joinMore types source target g).2.Structured ∧
      (joinMore types source target g).1.Anchored (joinMore types source target g).2 := by
  have hm := h.appendToMerge ht source.chain.control
  have hj := ht.of_extends (appendToMerge_builds g target.chain.control source.chain.control).extends
  have hmerges := joinMore_merges (g := g) types source target
  exact ⟨hmerges.structured hm hj, fun _ => hj.of_extends hmerges.builds.extends⟩

theorem openLoop_structured (h : g.Structured) (assigned : Option (List Bool)) (e : Env) :
    (openLoop types assigned e g).2.Structured ∧
      (openLoop types assigned e g).1.Anchored (openLoop types assigned e g).2 := by
  let loop := g.emitLoop e.chain.control
  let effect := loop.2.emitEffectPhi loop.1 [e.chain.effect]
  have hl : loop.2.Structured := h.push rfl (Node.structured_of_plain rfl)
  have hj : loop.2.IsJoin loop.1 := isJoin_emitLoop _ _
  have he : effect.2.Structured := hl.pushPhi rfl (.inr rfl) getLast?_concat hj
  have ht : (loopTop g e.chain).Structured := he.push rfl (Node.structured_of_plain rfl)
  have hjt : (loopTop g e.chain).IsJoin loop.1 := (hj.of_extends (.push rfl)).of_extends (.push rfl)
  have hmerges : Merges loop.1 (loopTop g e.chain) _ := openLoop_merges types assigned e
  exact ⟨hmerges.structured ht hjt, fun _ => hjt.of_extends hmerges.builds.extends⟩

theorem goTo_structured {og : Option Graph} (h : goTo types source target (some g) = some (env, og))
    (hg : g.Structured) (ht : target.Anchored g) : ∃ g', og = some g' ∧ g'.Structured ∧ env.Anchored g' := by
  unfold goTo at h
  split at h
  · cases h
    exact ⟨g, rfl, hg, ht⟩
  · split at h
    · cases h
    · cases h
      exact ⟨g, rfl, hg, Reach.noConfusion⟩
    · cases h
      exact ⟨_, rfl, joinReached_structured types hg source target⟩
    · rename_i hr
      cases h
      exact ⟨_, rfl, joinMore_structured types hg source (ht hr)⟩

end Joins

/-- A relation of graphs of which the second has the structure if the first has it. -/
structure Keeps (g g' : Graph) : Prop where
  grows : g.Extends g'
  structured : g.Structured → g'.Structured

theorem Keeps.refl (g : Graph) : Keeps g g := ⟨.refl g, id⟩

theorem keeps_of_plain (h : g.Plain g') : Keeps g g' := ⟨h.grows, fun hg => hg.plain h⟩

def State.Sane (s : State) (es : List Env) : Prop :=
  ∃ g, s.graph = some g ∧ g.Structured ∧ ∀ e ∈ es, e.Anchored g

namespace State.Sane

variable {s s' : State} {es es' : List Env}

theorem mono (h : s.Sane es) (he : ∀ e ∈ es', e ∈ es ∨ e.reach ≠ .joined) : s.Sane es' := by
  obtain ⟨g, hg, hs, ha⟩ := h
  refine ⟨g, hg, hs, fun e hm => ?_⟩
  rcases he e hm with hm | hr
  · exact ha e hm
  · exact fun h => absurd h hr

theorem of_eq (h : s.Sane es) (hg : s'.graph = s.graph) : s'.Sane es := by
  rw [Sane, hg]
  exact h

theorem keeps (h : s.Sane es) (hk : s.Under Keeps s') : s'.Sane es := by
  obtain ⟨g, hg, hs, ha⟩ := h
  obtain ⟨g', hg', hk⟩ := hk g hg
  exact ⟨g', hg', hk.structured hs, fun e hm => (ha e hm).of_extends hk.grows⟩

variable {ctx : Context} {p : Pending}

theorem leave (h : s.Sane (target :: es)) (hl : Body.leave ctx p s target = .ok (env, s')) :
    s'.Sane (env :: es) := by
  obtain ⟨g, hg, hs, ha⟩ := h
  obtain ⟨ht, ha⟩ := forall_mem_cons.mp ha
  obtain ⟨g₁, hg₁, hext⟩ := (leave_builds hl).extends g hg
  obtain ⟨og, hgo, rfl⟩ := leave_eq_ok.mp hl
  rw [hg] at hgo
  obtain ⟨g', rfl, hs', he⟩ := goTo_structured _ hgo hs ht
  cases hg₁
  exact ⟨_, rfl, hs', forall_mem_cons.mpr ⟨he, fun e hm => (ha e hm).of_extends hext⟩⟩

theorem bring {j j' : Join} {t : Tree} (h : s.Sane (j.env :: es)) (hb : Brings ctx p s j t j' s') :
    s'.Sane (j'.env :: es) := by
  cases hb with
  | dead => exact h
  | silent _ hl | first _ hl | clash _ hl | same _ hl => exact h.leave hl
  | @merge env s₁ g hs hl _ hr _ _ hg =>
    obtain ⟨g', hg', hstr, ha⟩ := h.leave hl
    cases hg.symm.trans hg'
    obtain ⟨og, hgo, -⟩ := leave_eq_ok.mp hl
    have hj := ha env mem_cons_self (goTo_joined hgo hs hr)
    have hmerges := extendValue_merges g j.type env.chain.control j.node t.node
    exact ⟨_, rfl, hmerges.structured hstr hj, fun e hm => (ha e hm).of_extends hmerges.builds.extends⟩

end State.Sane

section Directions

variable {s s' : State} {switch : NodeId}

theorem branchOn_keeps (c : Tree) : s.Under Keeps (branchOn s c).2.2 := by
  intro g hg
  obtain ⟨g', hg', hext⟩ := (branchOn_builds c).extends g hg
  refine ⟨g', hg', hext, fun hs => ?_⟩
  unfold branchOn at hg'
  split at hg'
  · cases hg.symm.trans hg'
    exact hs
  · rename_i g₁ hg₁
    unfold State.building at hg₁
    split at hg₁
    · cases hg.symm.trans hg₁
      cases hg'
      exact hs.emitBranch _ _
    · cases hg₁

def State.HasSwitch (s : State) (n : NodeId) : Prop :=
  n = noNode ∨ ∃ g, s.graph = some g ∧ g.op? n = some .switch

theorem State.HasSwitch.of_extends (h : s.HasSwitch switch) (hs : s.Under Extends s') :
    s'.HasSwitch switch := by
  rcases h with h | ⟨g, hg, ho⟩
  · exact .inl h
  · obtain ⟨g', hg', hext⟩ := hs g hg
    exact .inr ⟨g', hg', op?_of_extends hext ho⟩

theorem tableCase_keeps (entry : Env) (last i : Nat) (h : s.HasSwitch switch) :
    s.Under Keeps (tableCase entry switch last i s) := by
  intro g hg
  obtain ⟨g', hg', hext⟩ := (tableCase_builds entry switch last i).extends g hg
  refine ⟨g', hg', hext, fun hs => ?_⟩
  unfold tableCase at hg'
  split at hg'
  · cases hg.symm.trans hg'
    exact hs
  · rw [hg] at hg'
    dsimp only at hg'
    split at hg'
    · cases hg'
      exact hs
    · rename_i hn
      have ho : g.op? switch = some .switch := by
        rcases h with h | ⟨g₁, hg₁, ho⟩
        · exact absurd h hn
        · cases hg.symm.trans hg₁
          exact ho
      cases hg'
      split
      · exact hs.pushDirection rfl rfl (.inr ⟨.inr rfl, ho⟩)
      · exact hs.pushDirection rfl rfl (.inr ⟨.inl rfl, ho⟩)

theorem hasSwitch_of_table {s₀ : State} {depths : List Nat} {key control : NodeId}
    (hs : (switch, s₀) = if depths.length ≤ 1 then (noNode, s)
      else s.emit fun g => g.emitSwitch depths.length key control) : s₀.HasSwitch switch := by
  split at hs
  · cases hs
    exact .inl rfl
  · unfold State.emit at hs
    split at hs
    · cases hs
      exact .inl rfl
    · cases hs
      exact .inr ⟨_, rfl, op?_add _ _⟩

end Directions

end Body

end ProtoWasm
