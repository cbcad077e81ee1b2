import ProtoWasm.Proofs.Body.Soundness

/-! # Graphs of bodies are well typed

The operands of an expression have the types that are wanted of them, so where control gets to, they have
nodes of these types. The node that is emitted for the expression gets them as its inputs, and it gives a
value of the type of the expression.
-/
namespace ProtoWasm.Body

open Body.Expr ProtoWasm.Graph List

variable {ctx : Context} {p p' : Pending} {s s' : State} {g : Graph} {τs : List ValType} {x : Instruction}
  {i : Nat} {ts : List Tree} {ns : List NodeId} {τ : ValType} {t : Tree} {cs : List Expr}

section Operands

theorem forall₂_set_right {α β : Type} {R : α → β → Prop} {as : List α} {bs : List β} {a : α}
    {b : β} (h : List.Forall₂ R as bs) (ha : as[i]? = some a) (hb : R a b) :
    List.Forall₂ R as (bs.set i b) := by
  induction h generalizing i with
  | nil => cases ha
  | cons hab h ih =>
    cases i with
    | zero =>
      cases ha
      exact .cons hb h
    | succ i => exact .cons hab (ih ha)

theorem Usable.supplies (h : Usable g t) (hm : typeMatches τ t.type = true)
    (hτ : τ ≠ .void) : g.Supplies (some τ) t.node := by
  simp only [typeMatches, Bool.or_eq_true, decide_eq_true_eq, h.1, hτ, or_false] at hm
  subst hm
  exact h.2 hτ

def Pending.Supplied (ctx : Context) (g : Graph) (p : Pending) : Prop :=
  List.Forall₂ (fun w t => ∀ τ ∈ w, g.Supplies (some τ) (Tree.node t)) (p.wants ctx) p.done

theorem supplied_of_fitAll {ws : List (Option ValType)}
    (hv : ∀ τ, some τ ∈ ws → τ.isValue = true) (hf : fitAll ws ts = true) (hl : ts.length = ws.length)
    (hu : ∀ t ∈ ts, Usable g t) :
    List.Forall₂ (fun w t => ∀ τ ∈ w, g.Supplies (some τ) (Tree.node t)) ws ts := by
  induction ws generalizing ts with
  | nil =>
    obtain rfl := length_eq_zero_iff.mp hl
    exact .nil
  | cons w ws ih =>
    obtain ⟨t, ts, rfl⟩ := exists_cons_of_length_eq_add_one hl
    simp only [fitAll, fits, Bool.and_eq_true, Option.all_eq_true] at hf
    obtain ⟨ht, hts⟩ := forall_mem_cons.mp hu
    refine .cons (fun τ hτ => ht.supplies (hf.1 τ hτ) (ne_void_of_isValue (hv τ ?_)))
      (ih (fun τ hτ => hv τ (mem_cons_of_mem _ hτ)) hf.2 (Nat.succ.inj hl) hts)
    rw [Option.mem_def.mp hτ]
    exact mem_cons_self

namespace Pending.Supplied

variable {τ : ValType} {t : Tree}

theorem children (h : p.Supplied ctx g) (hw : p.wants ctx = τs.map some) :
    g.Values τs (childNodes p) := by
  unfold Pending.Supplied at h
  rw [hw, forall₂_map_left_iff] at h
  rw [Graph.Values, childNodes, forall₂_map_right_iff]
  exact h.imp fun τ t ht => ht τ rfl

theorem get (h : p.Supplied ctx g) (hw : (p.wants ctx)[i]? = some (some τ))
    (ht : p.done[i]? = some t) : g.Supplies (some τ) t.node := by
  obtain ⟨t', ht', hsup⟩ := forall₂_get? h hw
  cases ht.symm.trans ht'
  exact hsup τ rfl

theorem last (h : p.Supplied ctx g) (hw : (p.wants ctx).getLast? = some (some τ))
    (ht : p.done.getLast? = some t) : g.Supplies (some τ) t.node := by
  rw [getLast?_eq_getElem?] at hw ht
  rw [← h.length_eq] at ht
  exact h.get hw ht

end Pending.Supplied

def Pending.Valid (ctx : Context) (p : Pending) : Prop :=
  match p.rule with
  | .setLocal i τ => ctx.types[i]? = some τ ∧ p.type = τ
  | .setGlobal i => ∃ v, ctx.body.module.globals[i]? = some v ∧ p.type = v.type.valType
  | .call i sig => ctx.body.module.functionType? i = some sig ∧ p.type = sig.resultType
  | .callIndirect i sig => ctx.body.module.signatures[i]? = some sig ∧ p.type = sig.resultType
  | .growMemory => p.type = .i32
  | .numeric sig => p.opcode.numeric? = some sig ∧ p.type = sig.resultType
  | .access a _ => p.type = a.type
  | .brIf _ => p.type = .void
  | _ => True

theorem Begins.valid (h : Begins ctx s x (.wait p s')) : p.Valid ctx := by
  cases h with
  | setLocal ht => exact ⟨ht, rfl⟩
  | setGlobal hv => exact ⟨_, hv, rfl⟩
  | call hs => exact ⟨hs, rfl⟩
  | callIndirect _ hs => exact ⟨hs, rfl⟩
  | numeric hf => exact ⟨Opcode.numeric?_of_form hf, rfl⟩
  | growMemory | access | brIf => rfl
  | block | loop | ifThen | ifElse | select | br | brTable | ret => trivial

theorem Begins.isValue_of_wants (hv : ctx.OnlyValues) (h : Begins ctx s x (.wait p s')) :
    ∀ τ, some τ ∈ p.wants ctx → τ.isValue = true := by
  intro τ hτ
  have mem {τs : List ValType} (hw : some τ ∈ τs.map some) : τ ∈ τs := by simpa using hw
  cases h with
  | block | loop => cases eq_of_mem_replicate hτ
  | br => cases mem_singleton.mp hτ
  | ifThen | ifElse | select | brIf | brTable | growMemory =>
    simp only [Pending.wants, Instruction.await, mem_cons, not_mem_nil, reduceCtorEq,
      Option.some.injEq, or_false, false_or] at hτ
    subst hτ
    rfl
  | ret =>
    have h := hv.body.signature
    simp only [FuncType.isValue, Bool.and_eq_true, all_eq_true] at h
    exact h.2 τ (mem hτ)
  | setLocal ht =>
    cases mem_singleton.mp hτ
    exact hv.types _ (mem_of_getElem? ht)
  | setGlobal hg =>
    cases mem_singleton.mp hτ
    exact hv.body.globals _ (mem_of_getElem? hg)
  | call hs =>
    obtain ⟨f, hf, rfl⟩ := Option.map_eq_some_iff.mp hs
    exact FuncType.isValue_of_mem_params (hv.body.functions f (mem_of_getElem? hf)) τ (mem hτ)
  | callIndirect _ hs =>
    rcases mem_cons.mp hτ with hτ | hτ
    · cases hτ
      rfl
    · exact FuncType.isValue_of_mem_params (hv.body.signatures _ (mem_of_getElem? hs)) τ (mem hτ)
  | numeric hf =>
    exact FuncType.isValue_of_mem_params (Opcode.isValue_of_numeric? (Opcode.numeric?_of_form hf)) τ (mem hτ)
  | access _ ha =>
    rcases mem_cons.mp hτ with hτ | hτ
    · cases hτ
      rfl
    · split at hτ
      · cases mem_singleton.mp hτ
        exact Opcode.isValue_of_access? (Opcode.access?_of_form ha)
      · cases hτ

end Operands

section Steps

variable {switch : NodeId} {s₀ : State} {depths : List Nat} {key control : NodeId} {τ : ValType}
  {b : FunctionBody}

theorem switch_sound (h : s.Sound ctx g) (hk : s.env.live = true → g.Supplies (some .i32) key)
    (hc : s.env.live = true → g.Supplies none control)
    (hs : (switch, s₀) = if depths.length ≤ 1 then (noNode, s)
      else s.emit fun g => g.emitSwitch depths.length key control) :
    ∃ g', g.Extends g' ∧ s₀.Sound ctx g' ∧ (switch = noNode ∨ g'.Supplies none switch) := by
  cases hl : s.env.live with
  | false =>
    rw [State.emit_of_dead _ hl, ite_self] at hs
    cases hs
    exact ⟨g, .refl g, h, .inl rfl⟩
  | true =>
    split at hs
    · cases hs
      exact ⟨g, .refl g, h, .inl rfl⟩
    · unfold State.emit at hs
      rw [h.building hl] at hs
      cases hs
      have hi : List.Forall₂ g.Supplies [some .i32, none] [key, control] := .cons (hk hl) (.cons (hc hl) .nil)
      exact ⟨_, .push rfl, h.grow (.push rfl) (h.typed.push [.i32] rfl rfl hi), .inr (supplies_add _ _).node⟩

/-- One step of a complete expression other than a block or a loop. -/
theorem Reduces.sound (h : Reduces ctx p s p' s') (hv : ctx.OnlyValues) (hr : p.rule.ordinary = true)
    (hc : p.complete = true) (hp : p.Valid ctx)
    (hu : s.env.live = true → ∀ t ∈ p.done, Usable g t) (hd : s.env.live = true → p.Supplied ctx g)
    (hs : s.Sound ctx g) : Yields ctx g s' p'.type p'.node := by
  unfold Pending.Valid at hp
  have chain (hl : s.env.live = true) := (hs.env hl).chain
  cases h with
  | wait _ h =>
    rw [hc] at h
    cases h
  | openChoice h => rcases h with h | h <;> rw [h] at hr <;> cases hr
  | closeBlock h | closeLoop h | closeIf h | otherwise h | closeElse h | selectType h | selectSame h
  | select h =>
    rw [h] at hr
    cases hr
  | br _ ht h =>
    have h := breaks_of_breakTo h
    obtain ⟨g', hg, hs'⟩ := hs.breaks hv (fun hl => hu hl _ (mem_of_getLast? ht)) h
    exact ⟨g', hg, hs', fun hl => by rw [h.live] at hl; cases hl⟩
  | brIf hr _ ht hc _ h =>
    rw [hr] at hp
    obtain ⟨g₁, hg₁, hs₁, hj⟩ := hs.branchOn fun hl => (hd hl).last (by simp [Pending.wants, hr]) hc
    have ht (hl : s.env.live = true) := (hu hl _ (mem_of_getElem? ht)).of_extends hg₁
    obtain ⟨g₂, hg₂, hs₂⟩ := hs₁.breaks hv (fun hl => ht (by simpa using hl)) (breaks_of_breakTo h)
    exact ⟨g₂, hg₁.trans hg₂, hs₂.at (hj.of_extends hg₂).sound _, fun _ hn => absurd hp hn⟩
  | brTable hr _ ht hk _ hsw h =>
    obtain ⟨g₁, hg₁, hs₁, hsw⟩ := switch_sound hs (fun hl => (hd hl).last (by simp [Pending.wants, hr]) hk)
      (fun hl => (Env.Sound.split hs.env (by simpa using hl)).chain.control) hsw
    have ht (hl : s.env.live = true) := (hu hl _ (mem_of_getElem? ht)).of_extends hg₁
    have he (hl : s.env.split.live = true) := (Env.Sound.split hs.env hl).of_extends hg₁
    obtain ⟨g₂, hg₂, hs₂⟩ := branchAll_sound hv hs₁ he hsw (fun hl => ht (by simpa using hl)) h
    exact ⟨g₂, hg₁.trans hg₂, hs₂.at (fun hl => by cases hl) _, fun hl => by cases hl⟩
  | ret hr =>
    exact (hs.emitOn fun hl => emits_return hs.typed (chain hl) (.inl rfl)
      ((hd hl).children (by rw [Pending.wants, hr]))).finishPath
  | @setLocal index τ t hr ht =>
    rw [hr] at hp
    obtain ⟨hi, rfl⟩ := hp
    have hn (hl : s.env.live = true) := (hd hl).last (by rw [Pending.wants, hr]; rfl) ht
    cases hlive : s.env.live with
    | false =>
      rw [State.building_of_dead hlive]
      exact hs.yields_of_dead hlive
    | true =>
      have hlocals := forall₂_set_right (hs.env hlive).locals hi (hn hlive)
      rw [hs.building hlive]
      refine ⟨g, .refl g, ⟨hs.graph, hs.typed, fun _ => ?_, hs.blocks⟩, fun _ _ => hn hlive⟩
      exact ⟨chain hlive, hlocals⟩
  | setGlobal hr ht hm =>
    rw [hr] at hp
    obtain ⟨v, hv, hτ⟩ := hp
    have hn (hl : s.env.live = true) := (hd hl).last (by rw [Pending.wants, hr]; rfl) ht
    rw [hτ] at hn
    refine (hs.emitOn fun hl => emits_storeGlobal hs.typed (chain hl) hv (hn hl)).value fun hl _ => ?_
    rw [hτ]
    exact hn (by simpa using hl)
  | call hr =>
    rw [hr] at hp
    rw [show p.type = _ from hp.2]
    refine hs.emitAt _ fun hl => emits_call hs.typed (chain hl) hp.1 ?_
    exact (hd hl).children (by rw [Pending.wants, hr])
  | callIndirect hr _ _ hn =>
    rw [hr] at hp
    rw [show p.type = _ from hp.2]
    refine hs.emitAt _ fun hl => emits_callIndirect hs.typed (chain hl) hp.1 ?_
    rw [← hn]
    exact (hd hl).children (by rw [Pending.wants, hr]; rfl)
  | growMemory hr ht =>
    rw [hr] at hp
    rw [show p.type = _ from hp]
    refine hs.emitOn fun hl => emits_of_push [.i32] hs.typed (chain hl) rfl rfl (.inl rfl) Op.noConfusion rfl rfl ?_
    exact .cons ((hd hl).last (by rw [Pending.wants, hr]; rfl) ht) (chain hl).dependencies
  | unop hr _ _ hn =>
    rw [hr] at hp
    rw [show p.type = _ from hp.2]
    refine hs.emitAt _ fun hl => emits_unop hs.typed (chain hl) hp.1 ?_
    rw [← hn]
    exact (hd hl).children (by rw [Pending.wants, hr])
  | @binop sig x y rest hr _ _ hn =>
    rw [hr] at hp
    rw [show p.type = _ from hp.2]
    refine hs.emitAt _ fun hl => emits_binop hs.typed (chain hl) hp.1 ?_
    have hx := (hd hl).children (by rw [Pending.wants, hr])
    rw [hn] at hx
    have hlen := Opcode.length_params_of_numeric? hp.1
    obtain rfl : rest = [] := by
      have hl : sig.params.length = rest.length + 2 := hx.length_eq
      exact length_eq_zero_iff.mp (by omega)
    exact hx
  | idle hr _ _ hg =>
    refine hs.yields_of_dead ?_
    cases hl : s.env.live with
    | false => rfl
    | true =>
      cases hg.symm.trans (hs.building hl)
  | load hr _ _ ha hi =>
    rw [hr] at hp
    rw [show p.type = _ from hp]
    exact hs.emitAt _ fun hl => emits_loadMem hs.typed (chain hl) _
      ((hd hl).get (by rw [Pending.wants, hr]; rfl) hi)
  | @store a offset i t hr _ _ ha hi ht =>
    rw [hr] at hp
    have hw : p.wants ctx = [some .i32, some a.type] := by simp [Pending.wants, hr, ha]
    have hn (hl : s.env.live = true) : g.Supplies (some a.type) t.node := (hd hl).get (by rw [hw]; rfl) ht
    refine (hs.emitAt _ fun hl => emits_storeMem hs.typed (chain hl) _ ((hd hl).get (by rw [hw]; rfl) hi)
      (hn hl)).value fun hl _ => ?_
    rw [show p.type = _ from hp]
    exact hn (by simpa [State.emitAt] using hl)

theorem Constant.sound {f : Graph → NodeId × Graph} (h : Constant τ f)
    (hg : g.WellTyped b) : g.Extends (f g).2 ∧ (f g).2.WellTyped b ∧ (f g).2.Supplies (some τ) (f g).1 := by
  cases h with
  | int32 | int64 | float32 | float64 => exact ⟨.push rfl, hg.push [] rfl rfl .nil, supplies_add _ _⟩
  | memSize =>
    have hs : (g.emitMemoryRef .size).2.Supplies (some .i32) (g.emitMemoryRef .size).1 := supplies_add g _
    exact ⟨(plain_emitMemSize g).grows, (hg.emitMemoryRef .size).push [.i32] rfl rfl (.cons hs .nil),
      supplies_add _ _⟩

theorem Begins.sound_of_leaf (h : Begins ctx s x (.leaf t s'))
    (hs : s.Sound ctx g) : Yields ctx g s' t.type t.node := by
  have chain (hl : s.env.live = true) := (hs.env hl).chain
  cases h with
  | nothing => exact ⟨g, .refl g, hs, fun _ hn => absurd rfl hn⟩
  | retNothing hr =>
    exact (hs.emitOn fun hl => emits_return hs.typed (chain hl) (.inl hr.symm) .nil).finishPath
  | unreachable =>
    refine (hs.emitAt (τ := .void) _ fun hl => ?_).finishPath
    exact emits_of_push [] hs.typed (chain hl) rfl rfl (.inl rfl) Op.noConfusion rfl rfl (chain hl).dependencies
  | constant hf =>
    obtain ⟨hg, hw, hn⟩ := hf.sound hs.typed
    exact hs.emit hg hw hn
  | getLocal ht =>
    refine ⟨g, .refl g, hs, fun hl _ => ?_⟩
    obtain ⟨n, hn, hτ⟩ := forall₂_get? (hs.env hl).locals ht
    rw [hs.building hl, hn]
    exact hτ
  | getGlobal hv =>
    refine hs.emitOn fun hl => emits_of_push [] hs.typed (chain hl) rfl rfl (.inr (.inl rfl)) Op.noConfusion rfl ?_
      (chain hl).dependencies
    simp [Node.signature?, hv, Instruction.leaf, Tree.type]

theorem selected_supplies {a b : Tree} (h : selectedType a.type b.type = some τ) (ha : Usable g a)
    (hb : Usable g b) : g.Supplies (some τ) a.node ∧ g.Supplies (some τ) b.node := by
  unfold selectedType at h
  rw [if_neg ha.1] at h
  split at h
  · cases h
  · rename_i hvoid
    split at h
    · rename_i hm
      cases h
      exact ⟨ha.2 hvoid, hb.supplies hm hvoid⟩
    · cases h

theorem emits_select {c : Chain} {cond x y : NodeId} (h : g.WellTyped b) (hc : c.Sound g)
    (hcond : g.Supplies (some .i32) cond) (hx : g.Supplies (some τ) x) (hy : g.Supplies (some τ) y) :
    Emits b g τ (emitSelect g c τ cond x y) := by
  let br := g.emitBranch cond c.control
  let merge := br.2.emitMerge [br.1.1, br.1.2]
  obtain ⟨hb, ht, hf⟩ := h.emitBranch hcond hc.control
  have hgb : g.Extends br.2 := (emitBranch_builds g cond c.control).extends
  have hgm : br.2.Extends merge.2 := .push rfl
  have hm : merge.2.WellTyped b := hb.pushGathers rfl rfl rfl (by simpa using ⟨ht.supplies, hf.supplies⟩)
  have hj : merge.2.Gathers merge.1 := gathers_add br.2 rfl
  have hgg := hgb.trans hgm
  refine ⟨hgg.trans (.push rfl), hm.emitPhi ?_ hj.supplies, ⟨?_, ?_⟩, supplies_add _ _⟩
  · simpa using ⟨hx.of_extends hgg, hy.of_extends hgg⟩
  · exact hj.supplies.of_extends (.push rfl)
  · exact (hc.effect.of_extends hgg).of_extends (.push rfl)

end Steps

section Expressions

/-- The graph goes on soundly, with what expressions give where control gets to their end. -/
def YieldsAll (ctx : Context) (g : Graph) (s : State) (ts : List Tree) : Prop :=
  ∃ g', g.Extends g' ∧ s.Sound ctx g' ∧ (s.env.live = true → ∀ t ∈ ts, Carries g' t.type t.node)

theorem Yields.all (h : Yields ctx g s t.type t.node) : YieldsAll ctx g s [t] := by
  obtain ⟨g', hg, hs, hn⟩ := h
  exact ⟨g', hg, hs, fun hl => forall_mem_singleton.mpr (hn hl)⟩

/-- Operands that control gets to the end of can be used there. -/
theorem Decodes.usable (hv : ctx.OnlyValues) (hd : Decodes ctx cs s ts s') (hset : s.Settled)
    (h : YieldsAll ctx g s' ts) :
    ∃ g', g.Extends g' ∧ s'.Sound ctx g' ∧ (s'.env.live = true → ∀ t ∈ ts, Usable g' t) := by
  obtain ⟨g', hg, hs, hn⟩ := h
  exact ⟨g', hg, hs, fun hl t ht => ⟨(hd.settled hv hset).2 hl t ht, hn hl t ht⟩⟩

theorem State.Sound.choose {c : Tree} (h : s.Sound ctx g) (hc : s.env.live = true → Usable g c)
    (ht : typeMatches .i32 c.type = true) :
    ∃ g', g.Extends g' ∧ State.Sound ctx g' (s.choose c) ∧ (Body.branchOn s c).2.1.Joinable ctx.types g' := by
  obtain ⟨g', hg, hs, hj⟩ := h.branchOn fun hl => (hc hl).supplies ht ValType.noConfusion
  exact ⟨g', hg, hs.at hs.env _, hj⟩

theorem State.Sound.pop (h : s.Sound ctx g) (blocks : List Target) (hb : ∀ t ∈ blocks, t ∈ s.blocks) :
    State.Sound ctx g { s with blocks } :=
  ⟨h.graph, h.typed, h.env, fun t ht => h.blocks t (hb t ht)⟩

theorem State.Sound.closeBlock {j j' : Join} {heads rest : List Target} (hv : ctx.OnlyValues)
    (h : s.Sound ctx g) (hb : s.blocks = heads ++ .exit j :: rest) (ht : s.env.live = true → Usable g t)
    (hj : Brings ctx p { s with blocks := .exit j :: rest } j t j' s') :
    Yields ctx g { s' with env := j'.env, blocks := rest } j'.type j'.node := by
  have h₁ := h.pop (.exit j :: rest) fun t ht => by rw [hb]; exact mem_append_right _ ht
  obtain ⟨g', hg, hs, hj'⟩ := h₁.bring hv (h₁.blocks (.exit j) mem_cons_self) ht hj
  have hr : ∀ t ∈ rest, t ∈ s'.blocks := by
    intro t ht
    rw [hj.frame.1]
    exact mem_cons_of_mem _ ht
  exact ⟨g', hg, (hs.pop rest hr).at hj'.env.sound _, hj'.value⟩

theorem Decodes.sound (hv : ctx.OnlyValues) (hty : ctx.types = ctx.body.localTypes)
    (hd : Decodes ctx cs s ts s') (hset : s.Settled) (hs : s.Sound ctx g) : YieldsAll ctx g s' ts := by
  induction hd generalizing g with
  | nil => exact ⟨g, .refl g, hs, fun _ => forall_mem_nil _⟩
  | cons he hes ih₁ ih₂ =>
    obtain ⟨g₁, hg₁, hs₁, hn₁⟩ := ih₁ hset hs
    obtain ⟨g₂, hg₂, hs₂, hn₂⟩ := ih₂ (he.settled hv hset).1 hs₁
    refine ⟨g₂, hg₁.trans hg₂, hs₂, fun hl => forall_mem_cons.mpr ⟨?_, hn₂ hl⟩⟩
    exact (hn₁ (hes.live hl) _ (by simp)).of_extends hg₂
  | leaf hb => exact (hb.sound_of_leaf hs).all
  | @block x _ _ isLoop _ _ _ _ _ _ _ _ _ _ hcs ht _ hb hj ih =>
    have hset₁ := openBlock_settled ctx x.offset isLoop hset
    obtain ⟨g₁, hg₁, hs₁⟩ := hs.openBlock hty x.offset isLoop
    obtain ⟨g₂, hg₂, hs₂, hu⟩ := hcs.usable hv hset₁ (ih hset₁ hs₁)
    have hend := hs₂.closeBlock hv hb (fun hl => hu hl _ (mem_of_getLast? ht)) hj
    exact (hend.after (hg₁.trans hg₂)).all
  | @operation _ _ p _ ts _ s₁ _ hb hr hcs hf hl hc hred ih =>
    obtain ⟨g₁, hg₁, hs₁, hu⟩ := hcs.usable hv hset (ih hset hs)
    have hsup (hlive : s₁.env.live = true) : (p.add ts).Supplied ctx g₁ := by
      unfold Pending.Supplied
      rw [Pending.add_wants, hb.add_done ts]
      exact supplied_of_fitAll (hb.isValue_of_wants hv) hf (hl.trans hb.regular.symm) (hu hlive)
    rw [← hb.add_done ts] at hu
    exact ((hred.sound hv hr hc hb.valid hu hsup hs₁).after hg₁).all
  | ifThen _ hc ht _ hl ih₁ ih₂ =>
    obtain ⟨g₁, hg₁, hs₁, hu₁⟩ := hc.usable hv hset (ih₁ hset hs)
    obtain ⟨g₂, hg₂, hs₂, hj⟩ := hs₁.choose (fun hl => hu₁ hl _ (by simp)) ht
    obtain ⟨g₃, hg₃, hs₃, -⟩ := ih₂ ((hc.settled hv hset).1.choose _) hs₂
    obtain ⟨g₄, hg₄, hs₄, hj'⟩ := hs₃.leave hv (hj.of_extends hg₃) hl
    refine Yields.all ⟨g₄, ((hg₁.trans hg₂).trans hg₃).trans hg₄, hs₄.at hj'.sound _, fun _ hn => ?_⟩
    exact absurd rfl hn
  | @ifElse _ _ _ _ _ tc _ _ _ _ _ _ _ _ _ _ _ hc ht ha hj he hj' ih₁ ih₂ ih₃ =>
    have hset₁ := (hc.settled hv hset).1.choose tc
    have hset₃ := (ha.settled hv hset₁).1.of_blocks hj.frame.1
    obtain ⟨g₁, hg₁, hs₁, hu₁⟩ := hc.usable hv hset (ih₁ hset hs)
    obtain ⟨g₂, hg₂, hs₂, hother⟩ := hs₁.choose (fun hl => hu₁ hl _ (by simp)) ht
    obtain ⟨g₃, hg₃, hs₃, hu₃⟩ := ha.usable hv hset₁ (ih₂ hset₁ hs₂)
    obtain ⟨g₄, hg₄, hs₄, hjoin⟩ := hs₃.bring hv (Join.sound_of_dead rfl) (fun hl => hu₃ hl _ (by simp)) hj
    have hother := hother.of_extends (hg₃.trans hg₄)
    obtain ⟨g₅, hg₅, hs₅, hu₅⟩ := he.usable hv hset₃ (ih₃ hset₃ (hs₄.at hother.sound _))
    obtain ⟨g₆, hg₆, hs₆, hend⟩ := hs₅.bring hv (hjoin.of_extends hg₅) (fun hl => hu₅ hl _ (by simp)) hj'
    have hg := ((hg₁.trans hg₂).trans (hg₃.trans hg₄)).trans (hg₅.trans hg₆)
    exact Yields.all ⟨g₆, hg, hs₆.at hend.env.sound _, hend.value⟩
  | @select _ _ _ ta tb tc _ _ _ _ hcs hτ ht ih =>
    obtain ⟨g₁, hg₁, hs₁, hu⟩ := hcs.usable hv hset (ih hset hs)
    refine ((hs₁.emitOn fun hl => ?_).after hg₁).all
    obtain ⟨ha, hb⟩ := selected_supplies hτ (hu hl ta (by simp)) (hu hl tb (by simp))
    have hc := (hu hl tc (by simp)).supplies ht ValType.noConfusion
    exact emits_select hs₁.typed (hs₁.env hl).chain hc ha hb

end Expressions

section Bodies

variable {b : FunctionBody}

theorem params_typed {l : List (ValType × Nat)} (h : g.WellTyped b)
    (hs : g.Supplies none g.start) (hl : ∀ c ∈ l, b.signature.params[c.2]? = some c.1) (hn : g.Values τs ns) :
    let r := l.foldl (fun (ns, g) (t, i) =>
      let (n, g) := Graph.emitParam g i t
      (ns ++ [n], g)) (ns, g)
    r.2.WellTyped b ∧ g.Extends r.2 ∧ r.2.Values (τs ++ l.map Prod.fst) r.1 := by
  induction l generalizing τs ns g with
  | nil => exact ⟨h, .refl g, by simpa using hn⟩
  | cons c l ih =>
    obtain ⟨hc, hl⟩ := forall_mem_cons.mp hl
    have hg : g.Extends (g.emitParam c.2 c.1).2 := .push rfl
    have hw : (g.emitParam c.2 c.1).2.WellTyped b :=
      h.push [] rfl (by simp [Node.signature?, hc]) (.cons hs .nil)
    have hn' := rel_append (hn.of_extends hg) (.cons (supplies_add g _) .nil)
    obtain ⟨hw', hg', hr⟩ := ih hw (hs.of_extends hg) hl hn'
    rw [append_assoc] at hr
    exact ⟨hw', hg.trans hg', hr⟩

theorem zeroOf_typed {zeros : List (ValType × NodeId)} (h : g.WellTyped b)
    (hz : ∀ z ∈ zeros, g.Supplies (some z.1) z.2) (hτ : τ.isValue = true) :
    (zeroOf zeros τ g).2.2.WellTyped b ∧
      (∀ z ∈ (zeroOf zeros τ g).2.1, (zeroOf zeros τ g).2.2.Supplies (some z.1) z.2) ∧
      (zeroOf zeros τ g).2.2.Supplies (some τ) (zeroOf zeros τ g).1 := by
  unfold zeroOf
  split
  · rename_i n hn
    obtain ⟨l₁, l₂, rfl, -⟩ := lookup_eq_some_iff.mp hn
    exact ⟨h, hz, hz (τ, n) (by simp)⟩
  · have zero {f : Graph → NodeId × Graph} (hf : Constant τ f) :
        (f g).2.WellTyped b ∧ (∀ z ∈ (τ, (f g).1) :: zeros, (f g).2.Supplies (some z.1) z.2) ∧
          (f g).2.Supplies (some τ) (f g).1 := by
      obtain ⟨hg, hw, hn⟩ := hf.sound h
      exact ⟨hw, forall_mem_cons.mpr ⟨hn, fun z hm => (hz z hm).of_extends hg⟩, hn⟩
    cases τ with
    | i32 => exact zero (.int32 0)
    | i64 => exact zero (.int64 0)
    | f32 => exact zero (.float32 0)
    | f64 => exact zero (.float64 0)
    | _ => cases hτ

theorem zeros_typed {l : List ValType} (zeros : List (ValType × NodeId))
    (h : g.WellTyped b) (hz : ∀ z ∈ zeros, g.Supplies (some z.1) z.2) (hl : ∀ τ ∈ l, τ.isValue = true)
    (hn : g.Values τs ns) :
    let r := l.foldl (fun (ns, zeros, g) t =>
      let (n, zeros, g) := zeroOf zeros t g
      (n :: ns, zeros, g)) (ns, zeros, g)
    r.2.2.WellTyped b ∧ g.Extends r.2.2 ∧ r.2.2.Values (l.reverse ++ τs) r.1 := by
  induction l generalizing τs ns zeros g with
  | nil => exact ⟨h, .refl g, hn⟩
  | cons τ l ih =>
    obtain ⟨hτ, hl⟩ := forall_mem_cons.mp hl
    have hg := (zeroOf_plain zeros τ g).grows
    obtain ⟨hw, hz', hn'⟩ := zeroOf_typed h hz hτ
    obtain ⟨hw', hg', hr⟩ := ih _ hw hz' hl (.cons hn' (hn.of_extends hg))
    rw [reverse_cons, append_assoc]
    exact ⟨hw', hg.trans hg', hr⟩

theorem entryEnv_sound (hl : ∀ τ ∈ b.locals, τ.isValue = true) (h : g.WellTyped b) :
    (entryEnv b g).2.WellTyped b ∧ (entryEnv b g).1.Sound b.localTypes (entryEnv b g).2 := by
  let start := g.emitStart b.signature.params.length
  have hw : start.2.WellTyped b := h.push [] rfl rfl .nil
  have hs : start.2.IsEffect start.2.start := ⟨_, node?_new rfl, Op.noConfusion⟩
  obtain ⟨hw₁, hg₁, hn₁⟩ := params_typed (l := b.signature.params.zipIdx) hw hs.supplies
    (fun c hc => mem_zipIdx_iff_getElem?.mp hc) .nil
  obtain ⟨hw₂, hg₂, hn₂⟩ := zeros_typed [] hw₁ (forall_mem_nil _) hl .nil
  have hs' := (hs.of_extends hg₁).of_extends hg₂
  refine ⟨hw₂, ⟨hs'.supplies, hs'⟩, rel_append ?_ ?_⟩
  · rw [nil_append, zipIdx_map_fst] at hn₁
    exact hn₁.of_extends hg₂
  · rw [append_nil] at hn₂
    have hn₂ := rel_reverse hn₂
    rw [reverse_reverse] at hn₂
    exact hn₂

theorem entry_sound (hl : ∀ τ ∈ b.localTypes, τ.isValue = true) (analysis : Bool) :
    State.Sound ⟨b, analysis, b.localTypes⟩ (entryEnv b { signature := b.signature }).2 (.entry b) := by
  have hw : ({ signature := b.signature } : Graph).WellTyped b := by
    intro n x hx
    simp [node?] at hx
  obtain ⟨hw, he⟩ := entryEnv_sound (fun τ hτ => hl τ (mem_append_right _ hτ)) hw
  exact ⟨rfl, hw, fun _ => he, forall_mem_nil _⟩

theorem take_results (h : b.signature.isValue = true) :
    b.signature.results.take 1 = if b.returnType = .void then [] else [b.returnType] := by
  simp only [FuncType.isValue, Bool.and_eq_true, all_eq_true] at h
  unfold FunctionBody.returnType FuncType.resultType
  cases hr : b.signature.results with
  | nil => rfl
  | cons τ τs => simp [ne_void_of_isValue (h.2 τ (by simp [hr]))]

theorem Finishes.sound {d d' : Decoder} (h : Finishes ctx d d') (hv : ctx.OnlyValues)
    (hs : d.state.Sound ctx g) (hu : d.state.env.live = true → ∀ t ∈ d.trees, Usable g t) :
    ∃ g', d'.state.Sound ctx g' := by
  have hresults := take_results hv.body.signature
  have returns {values : List NodeId} (hn : d.state.env.live = true →
      g.Values (ctx.body.signature.results.take 1) values) :
      ∃ g', State.Sound ctx g' (d.state.emitOn fun g c => g.emitReturn c values).2 := by
    obtain ⟨g', -, hs', -⟩ := hs.emitOn (f := fun g c => g.emitReturn c values) fun hl =>
      emits_return hs.typed (hs.env hl).chain (.inr rfl) (hn hl)
    exact ⟨g', hs'⟩
  cases h with
  | ended => exact ⟨g, hs⟩
  | nothing _ hr =>
    rw [if_pos hr] at hresults
    exact returns fun _ => by rw [hresults]; exact .nil
  | @value t _ hr ht hm =>
    rw [if_neg hr] at hresults
    refine returns fun hl => ?_
    rw [hresults]
    exact .cons ((hu hl t (mem_of_getLast? ht)).supplies hm hr) .nil

theorem exists_typed_of_build {o : Options} {r : Result} (hv : b.OnlyValues) (h : build b o = .ok r) :
    ∃ g, r.graph = some g ∧ g.WellTyped b := by
  obtain ⟨xs, es, ts, s, d, -, hf, hbad, hts, hd, hr⟩ := build_ok h
  have hl := badLocal?_eq_none.mp hbad
  have hctx : Context.OnlyValues ⟨b, o.loopAnalysis, b.localTypes⟩ := ⟨hv, hl⟩
  have hdec := decodes_of_evalAll (codeAll_of_forest hf).2 hts
  have hset : (State.entry b).Settled := fun j hj => by cases hj
  obtain ⟨g, -, hs, hu⟩ := hdec.usable hctx hset (hdec.sound hctx rfl hset (entry_sound hl o.loopAnalysis))
  obtain ⟨g', hs'⟩ := hd.sound hctx hs hu
  exact ⟨g', hr.trans hs'.graph, hs'.typed⟩

/-- The graph of a body is closed and well typed. -/
theorem build_wellTyped {o : Options} {r : Result} (hv : b.OnlyValues) (h : build b o = .ok r) :
    ∃ g, r.graph = some g ∧ g.Closed ∧ g.WellTyped b := by
  obtain ⟨g, hg, hw⟩ := exists_typed_of_build hv h
  exact ⟨g, hg, hw.closed, hw⟩

def summing : FunctionBody where
  module := { globals := [{ type := ⟨.i32, true⟩ }] }
  signature := ⟨[.i32], [.i32]⟩
  locals := [.i32]
  code := [0x02, 0x04, 0x07, 0x01, 0x00, 0x5a, 0x0e, 0x00, 0x0f, 0x01, 0x40, 0x0e, 0x01, 0x0e, 0x00,
    0x0f, 0x00, 0x41, 0x0e, 0x00, 0x09, 0x01, 0x06, 0x00, 0x00, 0x11, 0x00, 0x0e, 0x01]

theorem build_wellTyped_summing :
    ∃ r g, build summing {} = .ok r ∧ r.graph = some g ∧ g.nodes.size = 17 ∧ g.Closed ∧
      g.WellTyped summing := by
  have hv : summing.OnlyValues := ⟨rfl, forall_mem_nil _, forall_mem_nil _, by decide⟩
  have hsize : (build summing {}).toOption.bind (fun r => r.graph.map fun g => g.nodes.size) = some 17 := by
    decide +kernel
  obtain ⟨r, hr, hsize⟩ := Option.bind_eq_some_iff.mp hsize
  have hr := toOption_eq_some.mp hr
  obtain ⟨g, hg, hc, hw⟩ := build_wellTyped hv hr
  rw [hg] at hsize
  exact ⟨r, g, hr, hg, Option.some.inj hsize, hc, hw⟩

end Bodies

end ProtoWasm.Body
