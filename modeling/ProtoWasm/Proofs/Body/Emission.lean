import ProtoWasm.Proofs.Body.Reachability
import ProtoWasm.Proofs.Graph.Growth

/-! # What the decoder adds to the graph -/
namespace ProtoWasm.Body

open Body.Expr ProtoWasm.Graph

variable {ctx : Context} {p p' : Pending} {s s' : State} {f : Graph.Emitter}
  {t : Tree} {x : Instruction} {e : Expr}

section Joins

variable (g : Graph)

theorem appendToMerge_builds (join control : NodeId) : g.Builds (g.appendToMerge join control) :=
  .modify fun _ => ⟨rfl, rfl, rfl, by simp⟩

theorem appendToPhi_builds (join phi value : NodeId) : g.Builds (g.appendToPhi join phi value) := by
  refine .modify fun x => ⟨rfl, rfl, rfl, ?_⟩
  simp only [List.length_append, List.length_dropLast, List.length_cons, List.length_nil]
  omega

variable {g}

theorem joinLocals_induction {I : Graph → Prop} {f : ValType → NodeId → NodeId → Graph → NodeId × Graph}
    (hf : ∀ t a b g, I g → I (f t a b g).2) (types : List ValType) (target source : List NodeId)
    (h : I g) : I (joinLocals f types target source g).2 := by
  unfold joinLocals
  induction types.zip (target.zip source) with
  | nil => exact h
  | cons x xs ih => exact hf _ _ _ _ ih

/-- What is done for the values that meet at a join: it gets phis, and its phis get values. -/
inductive Merges (join : NodeId) (g : Graph) : Graph → Prop
  | refl : Merges join g g
  | phi {g₁ g₂ : Graph} {x : Node} (h : Merges join g g₁) (hn : g₂.nodes = g₁.nodes.push x)
      (hs : g₂.notes = g₁.notes) (hx : x.op = .phi ∨ x.op = .effectPhi) (hl : x.inputs.getLast? = some join) :
      Merges join g g₂
  | append {g₁ : Graph} {phi : NodeId} (h : Merges join g g₁) (hp : g₁.isPhiOf phi join = true) (value : NodeId) :
      Merges join g (g₁.appendToPhi join phi value)

namespace Merges

variable {join : NodeId} {g' : Graph} (h : Merges join g g')

include h

theorem builds : g.Builds g' := by
  induction h with
  | refl => exact .refl g
  | phi _ hn hs hx _ ih => exact ih.trans (.push hn hs (by rcases hx with hx | hx <;> rw [hx] <;> rfl))
  | append _ _ _ ih => exact ih.trans (appendToPhi_builds _ _ _ _)

theorem extendValue (t : ValType) (old last : NodeId) : Merges join g (Body.extendValue g' t join old last).2 := by
  unfold Body.extendValue
  split
  · exact h.append ‹_› _
  · split
    · exact h.phi rfl rfl (.inl rfl) List.getLast?_concat
    · exact h

theorem extendEffect (old last : NodeId) : Merges join g (Body.extendEffect g' join old last).2 := by
  unfold Body.extendEffect
  split
  · exact h.append ‹_› _
  · split
    · exact h.phi rfl rfl (.inr rfl) List.getLast?_concat
    · exact h

end Merges

theorem extendValue_merges (g : Graph) (t : ValType) (join old last : NodeId) :
    Merges join g (extendValue g t join old last).2 :=
  Merges.refl.extendValue t old last

theorem extendEffect_merges (g : Graph) (join old last : NodeId) :
    Merges join g (extendEffect g join old last).2 :=
  Merges.refl.extendEffect old last

theorem joinReached_merges (types : List ValType) (source target : Env) :
    Merges (g.nodes.size + 1) (g.emitMerge [target.chain.control, source.chain.control]).2
      (joinReached types source target g).2 := by
  unfold joinReached
  refine joinLocals_induction (fun t a b g' h => ?_) _ _ _ ?_
  · split
    · exact h.phi rfl rfl (.inl rfl) List.getLast?_concat
    · exact h
  · split
    · exact Merges.refl.phi rfl rfl (.inr rfl) List.getLast?_concat
    · exact .refl

theorem joinMore_merges (types : List ValType) (source target : Env) :
    Merges target.chain.control (g.appendToMerge target.chain.control source.chain.control)
      (joinMore types source target g).2 := by
  unfold joinMore
  exact joinLocals_induction (fun t a b g' h => h.extendValue t a b) _ _ _ (extendEffect_merges _ _ _ _)

theorem joinMore_builds (types : List ValType) (source target : Env) :
    g.Builds (joinMore types source target g).2 :=
  (appendToMerge_builds g _ _).trans (joinMore_merges types source target).builds

/-- The beginning of a loop, which is an exit of the graph, before its phis for locals are emitted. -/
def loopTop (g : Graph) (c : Chain) : Graph :=
  let loop := g.emitLoop c.control
  let effect := loop.2.emitEffectPhi loop.1 [c.effect]
  effect.2.emitTerminate ⟨loop.1, effect.1⟩

theorem openLoop_merges (types : List ValType) (assigned : Option (List Bool)) (e : Env) :
    Merges (g.nodes.size + 1) (loopTop g e.chain) (openLoop types assigned e g).2 := by
  unfold openLoop
  dsimp only
  induction types.zip (e.locals.zip (assigned.getD (e.locals.map fun _ => true))) with
  | nil => exact .refl
  | cons x xs ih =>
    simp only [List.foldr_cons]
    split
    · exact ih.phi rfl rfl (.inl rfl) List.getLast?_concat
    · exact ih

theorem openLoop_builds (types : List ValType) (assigned : Option (List Bool)) (e : Env) :
    g.Builds (openLoop types assigned e g).2 := by
  have h (g : Graph) (x : Node) (hx : x.op.noted = false) : g.Builds (g.add x).2 := .push rfl rfl hx
  have ht (g : Graph) (c : Chain) : g.Builds (g.emitTerminate c) := .push rfl rfl rfl
  exact ((h g _ rfl).trans ((h _ _ rfl).trans (ht _ _))).trans (openLoop_merges types assigned e).builds

theorem goTo_builds {types : List ValType} {source target env : Env} {g : Graph} {og : Option Graph}
    (h : goTo types source target (some g) = some (env, og)) : ∃ g', og = some g' ∧ g.Builds g' := by
  unfold goTo at h
  split at h
  · cases h
    exact ⟨g, rfl, .refl g⟩
  · split at h
    · cases h
    · cases h
      exact ⟨g, rfl, .refl g⟩
    · cases h
      have hm : g.Builds (g.emitMerge [target.chain.control, source.chain.control]).2 := .push rfl rfl rfl
      exact ⟨_, rfl, hm.trans (joinReached_merges _ _ _).builds⟩
    · cases h
      exact ⟨_, rfl, joinMore_builds _ _ _⟩

theorem emitBranch_builds (g : Graph) (cond control : NodeId) : g.Builds (g.emitBranch cond control).2 := by
  have h (g : Graph) (x : Node) (hx : x.op.noted = false) : g.Builds (g.add x).2 := .push rfl rfl hx
  exact (h g _ rfl).trans ((h _ _ rfl).trans (h _ _ rfl))

theorem emitSelect_builds (g : Graph) (c : Chain) (t : ValType) (cond a b : NodeId) :
    g.Builds (emitSelect g c t cond a b).2.2 := by
  have h (g : Graph) (x : Node) (hx : x.op.noted = false) : g.Builds (g.add x).2 := .push rfl rfl hx
  exact (emitBranch_builds g _ _).trans ((h _ _ rfl).trans (h _ _ rfl))

end Joins

section States

def State.Under (R : Graph → Graph → Prop) (s s' : State) : Prop :=
  ∀ g, s.graph = some g → ∃ g', s'.graph = some g' ∧ R g g'

namespace State.Under

variable {R : Graph → Graph → Prop} {s₁ s₂ s₃ : State}

theorem of_eq (hR : ∀ g, R g g) (h : s'.graph = s.graph) : Under R s s' :=
  fun g hg => ⟨g, h.trans hg, hR g⟩

theorem trans (hR : ∀ {g₁ g₂ g₃}, R g₁ g₂ → R g₂ g₃ → R g₁ g₃) (h : Under R s₁ s₂) (h' : Under R s₂ s₃) :
    Under R s₁ s₃ := by
  intro g hg
  obtain ⟨g', hg', hR₁⟩ := h g hg
  obtain ⟨g'', hg'', hR₂⟩ := h' g' hg'
  exact ⟨g'', hg'', hR hR₁ hR₂⟩

theorem mono {R' : Graph → Graph → Prop} (hR : ∀ g g', R g g' → R' g g') (h : Under R s s') :
    Under R' s s' := by
  intro g hg
  obtain ⟨g', hg', h⟩ := h g hg
  exact ⟨g', hg', hR g g' h⟩

theorem emit {f : Graph → NodeId × Graph} (hR : ∀ g, R g g) (hf : ∀ g, R g (f g).2) :
    Under R s (s.emit f).2 := by
  intro g hg
  unfold State.emit State.building
  cases hl : s.env.live with
  | false => exact ⟨g, hg, hR g⟩
  | true =>
    rw [if_pos rfl, hg]
    exact ⟨_, rfl, hf g⟩

theorem emitOn (hR : ∀ g, R g g) (hf : ∀ g c, R g (f g c).2.2) : Under R s (s.emitOn f).2 := by
  intro g hg
  unfold State.emitOn State.building
  cases hl : s.env.live with
  | false => exact ⟨g, hg, hR g⟩
  | true =>
    rw [if_pos rfl, hg]
    exact ⟨_, rfl, hf g _⟩

end State.Under

theorem Constant.plain {t : ValType} {f : Graph → NodeId × Graph} (h : Constant t f) (g : Graph) :
    g.Plain (f g).2 := by
  cases h with
  | memSize => exact plain_emitMemSize g
  | _ => exact .push rfl rfl rfl rfl

theorem plain_emitOn (hf : ∀ g c, Plain g (f g c).2.2) : s.Under Plain (s.emitOn f).2 :=
  .emitOn .refl hf

theorem plain_emitAt (offset : Int) (hf : ∀ g c, Plain g (f g c).2.2) : s.Under Plain (s.emitAt offset f).2 :=
  .emitOn .refl fun g c => (hf g c).trans (plain_setOffset _ _ _)

theorem Begins.plain (h : Begins ctx s x (.leaf t s')) : s.Under Plain s' := by
  cases h with
  | nothing | getLocal => exact .of_eq .refl rfl
  | retNothing => exact plain_emitOn fun g c => .push rfl rfl rfl rfl
  | unreachable => exact plain_emitAt _ fun g c => .push rfl rfl rfl rfl
  | constant hf => exact .emit .refl hf.plain
  | getGlobal => exact plain_emitOn fun g c => .push rfl rfl rfl rfl

theorem Reduces.plain (h : Reduces ctx p s p' s') (hr : p.rule.plain = true ∨ p.rule = .ret) :
    s.Under Plain s' := by
  cases h with
  | wait | idle | setLocal => exact .of_eq .refl rfl
  | ret | setGlobal | growMemory => exact plain_emitOn fun g c => .push rfl rfl rfl rfl
  | unop | binop => exact plain_emitAt _ fun g c => .push rfl rfl rfl rfl
  | call => exact plain_emitAt _ fun g c => .of_push (@Builds.call g _ _ false rfl rfl rfl) rfl rfl
  | callIndirect => exact plain_emitAt _ fun g c => .of_push (@Builds.call g _ _ true rfl rfl rfl) rfl rfl
  | load | store => exact plain_emitAt _ fun g c => (plain_memoryRefs g).trans (.push rfl rfl rfl rfl)
  | openChoice h => rcases h with h | h <;> rw [h] at hr <;> simp [Rule.plain] at hr
  | closeBlock h | closeLoop h | closeIf h | otherwise h | closeElse h | selectType h | selectSame h
  | select h | br h | brIf h | brTable h => simp [h, Rule.plain] at hr

end States

section Extension

theorem State.Under.builds (h : s.Under Plain s') : s.Under Builds s' := h.mono fun _ _ h => h.builds

theorem State.Under.extends (h : s.Under Builds s') : s.Under Extends s' := h.mono fun _ _ h => h.extends

theorem State.Under.grows (h : s.Under Plain s') : s.Under Extends s' := h.builds.extends

theorem builds_of_eq (h : s'.graph = s.graph) : s.Under Builds s' := .of_eq .refl h

theorem builds_trans {s₁ s₂ s₃ : State} (h : s₁.Under Builds s₂) (h' : s₂.Under Builds s₃) :
    s₁.Under Builds s₃ :=
  h.trans .trans h'

theorem leave_builds {target env : Env} (h : leave ctx p s target = .ok (env, s')) : s.Under Builds s' := by
  obtain ⟨og, hgo, rfl⟩ := leave_eq_ok.mp h
  intro g hg
  rw [hg] at hgo
  exact goTo_builds hgo

theorem Brings.builds {j j' : Join} (h : Brings ctx p s j t j' s') : s.Under Builds s' := by
  cases h with
  | dead => exact builds_of_eq rfl
  | silent _ hl | first _ hl | clash _ hl | same _ hl => exact leave_builds hl
  | merge _ hl _ _ _ _ hg =>
    refine builds_trans (leave_builds hl) fun g' hg' => ?_
    cases hg.symm.trans hg'
    exact ⟨_, rfl, (extendValue_merges _ _ _ _ _).builds⟩

theorem Breaks.builds {depth : Nat} (h : Breaks ctx p s depth t s') : s.Under Builds s' := by
  cases h with
  | header _ hl => exact builds_trans (leave_builds hl) (builds_of_eq rfl)
  | exit _ hj => exact builds_trans hj.builds (builds_of_eq rfl)

theorem branchOn_builds (c : Tree) : s.Under Builds (branchOn s c).2.2 := by
  unfold branchOn
  split
  · exact builds_of_eq rfl
  · rename_i g' hg'
    intro g hg
    obtain rfl : g' = g := by
      unfold State.building at hg'
      split at hg'
      · exact Option.some.inj (hg'.symm.trans hg)
      · cases hg'
    exact ⟨_, rfl, emitBranch_builds _ _ _⟩

theorem tableCase_builds (entry : Env) (switch : NodeId) (last i : Nat) :
    s.Under Builds (tableCase entry switch last i s) := by
  unfold tableCase
  split
  · exact builds_of_eq rfl
  · split
    · exact builds_of_eq rfl
    · rename_i g' hg'
      split
      · exact builds_of_eq rfl
      · intro g hg
        cases hg'.symm.trans hg
        refine ⟨_, rfl, ?_⟩
        split <;> exact .push rfl rfl rfl

theorem switch_plain {switch : NodeId} {s₀ : State} {depths : List Nat} {key control : NodeId}
    (hs : (switch, s₀) = if depths.length ≤ 1 then (noNode, s)
      else s.emit fun g => g.emitSwitch depths.length key control) : s.Under Plain s₀ := by
  split at hs
  · cases hs
    exact .of_eq .refl rfl
  · obtain rfl : s₀ = (s.emit fun g => g.emitSwitch depths.length key control).2 := congrArg Prod.snd hs
    exact .emit .refl fun g => .push rfl rfl rfl rfl

theorem openBlock_builds (offset : Int) (isLoop : Bool) :
    s.Under Builds (openBlock ctx s offset isLoop) := by
  unfold openBlock
  split
  · exact builds_of_eq rfl
  · dsimp only
    split
    · exact builds_of_eq rfl
    · split
      · exact builds_of_eq rfl
      · rename_i g' hg'
        intro g hg
        cases hg'.symm.trans hg
        exact ⟨_, rfl, openLoop_builds _ _ _⟩

theorem Reduces.builds (h : Reduces ctx p s p' s') : s.Under Builds s' := by
  by_cases hr : p.rule.plain = true ∨ p.rule = .ret
  · exact (h.plain hr).builds
  · cases h with
    | wait | selectType | selectSame => exact builds_of_eq rfl
    | closeBlock _ _ _ _ h | otherwise _ _ _ h | closeElse _ _ _ h =>
      exact builds_trans (brings_of_bring h).builds (builds_of_eq rfl)
    | closeLoop _ _ _ _ h =>
      have h₁ := (brings_of_bring h).builds
      exact builds_trans h₁ (builds_of_eq rfl)
    | openChoice => exact builds_trans (branchOn_builds _) (builds_of_eq rfl)
    | closeIf _ _ _ h => exact builds_trans (leave_builds h) (builds_of_eq rfl)
    | select => exact .emitOn .refl fun g c => emitSelect_builds _ _ _ _ _ _
    | br _ _ h => exact (breaks_of_breakTo h).builds
    | @brIf _ c _ _ _ _ _ _ _ h =>
      have h₁ : s.Under Builds { (branchOn s c).2.2 with env := (branchOn s c).1 } := branchOn_builds c
      exact builds_trans (builds_trans h₁ (breaks_of_breakTo h).builds) (builds_of_eq rfl)
    | brTable _ _ _ _ _ hs h =>
      have h₁ := branchAll_induction (P := fun s₁ => s.Under Builds s₁)
        (fun s₁ s₂ _ _ h hb => builds_trans (builds_trans h (tableCase_builds _ _ _ _)) hb.builds)
        (switch_plain hs).builds h
      exact builds_trans h₁ (builds_of_eq rfl)
    | ret h => exact absurd (.inr h) hr
    | setLocal h | setGlobal h | call h | callIndirect h | growMemory h | unop h | binop h | idle h | load h
    | store h => exact absurd (.inl (by rw [h]; rfl)) hr

theorem choose_builds (c : Tree) : s.Under Builds (s.choose c) := branchOn_builds c

/-- Decoding only adds to the graph. -/
theorem Decodes.builds {es : List Expr} {ts : List Tree} (h : Decodes ctx es s ts s') : s.Under Builds s' := by
  induction h with
  | nil => exact builds_of_eq rfl
  | cons _ _ ih₁ ih₂ => exact builds_trans ih₁ ih₂
  | leaf hb => exact hb.plain.builds
  | block _ _ _ _ _ hj ih =>
    have h₁ := hj.builds
    exact builds_trans (builds_trans (openBlock_builds _ _) ih) h₁
  | operation _ _ _ _ _ _ hred ih => exact builds_trans ih hred.builds
  | ifThen _ _ _ _ hl ih₁ ih₂ =>
    have h₂ := builds_trans (builds_trans (choose_builds _) ih₂) (leave_builds hl)
    exact builds_trans ih₁ h₂
  | ifElse _ _ _ _ hj _ hj' ih₁ ih₂ ih₃ =>
    have h₂ := builds_trans (builds_trans (choose_builds _) ih₂) hj.builds
    have h₃ := builds_trans ih₃ hj'.builds
    exact builds_trans (builds_trans ih₁ h₂) h₃
  | select _ _ _ _ ih => exact builds_trans ih (.emitOn .refl fun g c => emitSelect_builds _ _ _ _ _ _)

end Extension

theorem zeroOf_plain (zeros : List (ValType × NodeId)) (t : ValType) (g : Graph) :
    g.Plain (zeroOf zeros t g).2.2 := by
  unfold zeroOf
  split
  · exact .refl g
  · cases t <;> first | exact .push rfl rfl rfl rfl | exact .refl g

theorem entryEnv_plain (b : FunctionBody) (g : Graph) : g.Plain (entryEnv b g).2 := by
  unfold entryEnv
  dsimp only
  refine List.foldlRecOn (motive := fun r : List NodeId × _ × Graph => g.Plain r.2.2) _ _ ?_ fun r hr t _ =>
    hr.trans (zeroOf_plain _ _ _)
  refine List.foldlRecOn (motive := fun r : List NodeId × Graph => g.Plain r.2) _ _ ?_ fun r hr t _ =>
    hr.trans (.push rfl rfl rfl rfl)
  exact .push rfl rfl rfl rfl

section Lengths

open List

theorem length_foldr_fst {α β γ : Type} {f : α → List β × γ → List β × γ}
    (hf : ∀ a r, (f a r).1.length = r.1.length + 1) (l : List α) (r : List β × γ) :
    (l.foldr f r).1.length = l.length + r.1.length := by
  induction l with
  | nil => exact (Nat.zero_add _).symm
  | cons a l ih => rw [foldr_cons, hf, ih, length_cons, Nat.add_right_comm]

variable {types : List ValType} {source : Env} {g : Graph}

theorem length_joinLocals {join : ValType → NodeId → NodeId → Graph → NodeId × Graph} {target source : List NodeId}
    (ht : target.length = types.length) (hs : source.length = types.length) :
    (joinLocals join types target source g).1.length = types.length := by
  unfold joinLocals
  rw [length_foldr_fst (fun _ _ => rfl)]
  simp [ht, hs]

theorem length_openLoop {assigned : Option (List Bool)} (hs : source.locals.length = types.length)
    (ha : ∀ l ∈ assigned, l.length = types.length) :
    (openLoop types assigned source g).1.locals.length = types.length := by
  unfold openLoop
  dsimp only
  rw [length_foldr_fst (fun ⟨t, n, w⟩ r => by cases w <;> rfl)]
  cases assigned with
  | none => simp [hs]
  | some l => simp [hs, ha l rfl]

theorem length_entryEnv (b : FunctionBody) (g : Graph) :
    (entryEnv b g).1.locals.length = b.localTypes.length := by
  unfold entryEnv FunctionBody.localTypes
  dsimp only
  rw [length_append, length_reverse, length_append, foldl_eq_foldr_reverse, foldl_eq_foldr_reverse]
  rw [length_foldr_fst (by rintro ⟨t, i⟩ ⟨ns, g⟩; simp), length_foldr_fst (by rintro t ⟨ns, zeros, g⟩; rfl)]
  simp

end Lengths

end ProtoWasm.Body
