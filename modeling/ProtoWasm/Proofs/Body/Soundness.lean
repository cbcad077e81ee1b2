import ProtoWasm.Proofs.Body.Emission
import ProtoWasm.Proofs.Graph.Typing

/-! # States that refer to typed nodes

Where control gets to, the environment has a node of the right type for every local, and so has every join to
which a value was brought. What the decoder does to environments and joins keeps the graph well typed.
-/
namespace ProtoWasm.Body

open Body.Expr ProtoWasm.Graph List

section Joins

variable {b : FunctionBody} {g g' : Graph} {types : List ValType} {τ : ValType} {join old last : NodeId}
  {e : Env}

/-- The chain of an environment is in the graph, and its locals are values of their types. -/
structure Env.Sound (types : List ValType) (g : Graph) (e : Env) : Prop where
  chain : e.chain.Sound g
  locals : g.Values types e.locals

structure Env.Joinable (types : List ValType) (g : Graph) (e : Env) : Prop where
  sound : e.live = true → e.Sound types g
  gathers : e.reach = .joined → g.Gathers e.chain.control

theorem Env.Sound.of_extends (hg : g.Extends g') (h : e.Sound types g) : e.Sound types g' :=
  ⟨h.chain.of_extends hg, h.locals.of_extends hg⟩

theorem Env.Joinable.of_extends (hg : g.Extends g') (h : e.Joinable types g) : e.Joinable types g' :=
  ⟨fun hl => (h.sound hl).of_extends hg, fun hr => (h.gathers hr).of_extends hg⟩

theorem extendValue_typed (h : g.WellTyped b) (hτ : τ ≠ .void) (hj : g.Supplies none join)
    (ho : g.Supplies (some τ) old) (hl : g.Supplies (some τ) last) :
    (extendValue g τ join old last).2.WellTyped b ∧
      (extendValue g τ join old last).2.Supplies (some τ) (extendValue g τ join old last).1 := by
  have hgrow := (extendValue_merges g τ join old last).builds.extends
  unfold extendValue at hgrow ⊢
  split at hgrow
  · rename_i hp
    rw [if_pos hp]
    refine ⟨h.appendToPhi hj fun x hx => ?_, ho.of_extends hgrow⟩
    obtain ⟨y, hy, hop, hlast⟩ := isPhiOf_eq_true hp
    cases hx.symm.trans hy
    obtain ⟨z, hz, ht⟩ := ho
    cases hx.symm.trans hz
    have ht : x.type = τ := ht τ rfl
    refine ⟨hlast, .inl ⟨hop.resolve_right fun he => hτ ?_, ht ▸ hl⟩⟩
    -- an effect is no value
    have hgath : x.op.gathers = true := by rw [he]; rfl
    exact ht.symm.trans ((Node.wellTyped_of_gathers hgath).mp (h old x hx)).1
  · rename_i hp
    rw [if_neg hp]
    split
    · refine ⟨h.emitPhi (forall_mem_append.mpr ⟨fun n hn => ?_, forall_mem_singleton.mpr hl⟩) hj, supplies_add _ _⟩
      exact eq_of_mem_replicate hn ▸ ho
    · exact ⟨h, ho⟩

theorem extendEffect_typed (h : g.WellTyped b) (hj : g.Supplies none join) (ho : g.IsEffect old)
    (hl : g.Supplies none last) : (extendEffect g join old last).2.WellTyped b ∧
      (extendEffect g join old last).2.IsEffect (extendEffect g join old last).1 := by
  have hgrow := (extendEffect_merges g join old last).builds.extends
  unfold extendEffect at hgrow ⊢
  split at hgrow
  · rename_i hp
    rw [if_pos hp]
    refine ⟨h.appendToPhi hj fun x hx => ?_, ho.of_extends hgrow⟩
    obtain ⟨y, hy, hop, hlast⟩ := isPhiOf_eq_true hp
    cases hx.symm.trans hy
    obtain ⟨z, hz, hne⟩ := ho
    cases hx.symm.trans hz
    exact ⟨hlast, .inr ⟨hop.resolve_left hne, hl⟩⟩
  · rename_i hp
    rw [if_neg hp]
    split
    · refine ⟨h.pushGathers rfl rfl rfl (forall_mem_append.mpr ⟨forall_mem_append.mpr ⟨fun n hn => ?_, ?_⟩, ?_⟩), _,
        node?_new rfl, Op.noConfusion⟩
      · exact eq_of_mem_replicate hn ▸ ho.supplies
      · exact forall_mem_singleton.mpr hl
      · exact forall_mem_singleton.mpr hj
    · exact ⟨h, ho⟩

/-- Joining locals of the same types, one after the other, gives locals of these types. -/
theorem joinLocals_typed {I : Graph → Prop} {f : ValType → NodeId → NodeId → Graph → NodeId × Graph}
    {target source : List NodeId} (h : I g)
    (hf : ∀ τ ∈ types, ∀ a c g, I g → g.Supplies (some τ) a → g.Supplies (some τ) c →
      I (f τ a c g).2 ∧ g.Extends (f τ a c g).2 ∧ (f τ a c g).2.Supplies (some τ) (f τ a c g).1)
    (ht : g.Values types target) (hs : g.Values types source) :
    I (joinLocals f types target source g).2 ∧ g.Extends (joinLocals f types target source g).2 ∧
      (joinLocals f types target source g).2.Values types (joinLocals f types target source g).1 := by
  induction ht generalizing source with
  | nil => exact ⟨h, .refl g, .nil⟩
  | @cons τ a types target ha ht ih =>
    obtain ⟨c, source, hc, hs', rfl⟩ := forall₂_cons_left_iff.mp hs
    obtain ⟨hi, hg, hl⟩ := ih (fun τ' hm => hf τ' (mem_cons_of_mem _ hm)) hs'
    obtain ⟨hi', hg', hn⟩ := hf τ mem_cons_self a c _ hi (ha.of_extends hg) (hc.of_extends hg)
    exact ⟨hi', hg.trans hg', .cons hn (hl.of_extends hg')⟩

variable {source target env : Env}

theorem joinReached_sound (h : g.WellTyped b) (hs : source.Sound types g) (ht : target.Sound types g) :
    (joinReached types source target g).2.WellTyped b ∧
      (joinReached types source target g).1.Joinable types (joinReached types source target g).2 := by
  let merge := g.emitMerge [target.chain.control, source.chain.control]
  let effect := if source.chain.effect ≠ target.chain.effect then
      merge.2.emitEffectPhi merge.1 [target.chain.effect, source.chain.effect]
    else (target.chain.effect, merge.2)
  have hgm : g.Extends merge.2 := .push rfl
  have hm : merge.2.WellTyped b := h.pushGathers rfl rfl rfl <| by
    simpa using ⟨ht.chain.control, hs.chain.control⟩
  have hj : merge.2.Gathers merge.1 := gathers_add g rfl
  have he : effect.2.WellTyped b ∧ merge.2.Extends effect.2 ∧ effect.2.IsEffect effect.1 := by
    have hte := ht.chain.effect.of_extends hgm
    have hse := (hs.chain.effect.of_extends hgm).supplies
    dsimp only [effect]
    split
    · refine ⟨hm.pushGathers rfl rfl rfl ?_, .push rfl, _, node?_new rfl, Op.noConfusion⟩
      simpa using ⟨hte.supplies, hse, hj.supplies⟩
    · exact ⟨hm, .refl _, hte⟩
  have hge := hgm.trans he.2.1
  obtain ⟨⟨hw, hg⟩, hgl, hl⟩ := joinLocals_typed (I := fun g => g.WellTyped b ∧ g.Gathers merge.1)
    (f := fun t a c g => if a ≠ c then g.emitPhi t merge.1 [a, c] else (a, g))
    ⟨he.1, hj.of_extends he.2.1⟩ (fun τ _ a c g hi ha hc => by
      split
      · have hac : ∀ n ∈ [a, c], g.Supplies (some τ) n := by simpa using ⟨ha, hc⟩
        exact ⟨⟨hi.1.emitPhi hac hi.2.supplies, hi.2.of_extends (.push rfl)⟩, .push rfl, supplies_add _ _⟩
      · exact ⟨hi, .refl g, ha⟩)
    (ht.locals.of_extends hge) (hs.locals.of_extends hge)
  exact ⟨hw, fun _ => ⟨⟨hg.supplies, he.2.2.of_extends hgl⟩, hl⟩, fun _ => hg⟩

theorem joinMore_sound (hv : ∀ τ ∈ types, τ ≠ .void) (h : g.WellTyped b) (hs : source.Sound types g)
    (ht : target.Sound types g) (hj : g.Gathers target.chain.control) :
    (joinMore types source target g).2.WellTyped b ∧
      (joinMore types source target g).1.Joinable types (joinMore types source target g).2 := by
  let join := target.chain.control
  let merge := g.appendToMerge join source.chain.control
  let effect := extendEffect merge join target.chain.effect source.chain.effect
  have hgm : g.Extends merge := (appendToMerge_builds g join source.chain.control).extends
  have hm : merge.WellTyped b := by
    refine h.appendToMerge (fun x hx => ?_) hs.chain.control
    obtain ⟨y, hy, ho⟩ := hj
    cases hx.symm.trans hy
    exact ho
  have hjm := hj.of_extends hgm
  have he : effect.2.WellTyped b ∧ effect.2.IsEffect effect.1 :=
    extendEffect_typed hm hjm.supplies (ht.chain.effect.of_extends hgm)
      (hs.chain.effect.of_extends hgm).supplies
  have hge : merge.Extends effect.2 := (extendEffect_merges _ _ _ _).builds.extends
  obtain ⟨⟨hw, hg⟩, hgl, hl⟩ := joinLocals_typed (I := fun g => g.WellTyped b ∧ g.Gathers join)
    (f := fun t a c g => extendValue g t join a c) ⟨he.1, hjm.of_extends hge⟩
    (fun τ hτ a c g hi ha hc => by
      obtain ⟨hw, hn⟩ := extendValue_typed hi.1 (hv τ hτ) hi.2.supplies ha hc
      have hgrow := (extendValue_merges g τ join a c).builds.extends
      exact ⟨⟨hw, hi.2.of_extends hgrow⟩, hgrow, hn⟩)
    (ht.locals.of_extends (hgm.trans hge)) (hs.locals.of_extends (hgm.trans hge))
  exact ⟨hw, fun _ => ⟨⟨hg.supplies, he.2.of_extends hgl⟩, hl⟩, fun _ => hg⟩

theorem goTo_sound {og : Option Graph} (hv : ∀ τ ∈ types, τ ≠ .void) (h : g.WellTyped b)
    (hs : source.live = true → source.Sound types g) (ht : target.Joinable types g)
    (hgo : goTo types source target (some g) = some (env, og)) :
    ∃ g', og = some g' ∧ g'.WellTyped b ∧ env.Joinable types g' := by
  unfold goTo at hgo
  split at hgo
  · cases hgo
    exact ⟨g, rfl, h, ht⟩
  · rename_i hl
    have hs := hs (by simpa using hl)
    split at hgo
    · cases hgo
    · cases hgo
      exact ⟨g, rfl, h, fun _ => ⟨hs.chain, hs.locals⟩, Reach.noConfusion⟩
    · rename_i hr
      cases hgo
      exact ⟨_, rfl, joinReached_sound h hs (ht.sound (by simp [Env.live, hr]))⟩
    · rename_i hr
      cases hgo
      exact ⟨_, rfl, joinMore_sound hv h hs (ht.sound (by simp [Env.live, hr])) (ht.gathers hr)⟩

theorem loopLocals_typed {control : NodeId} {locals : List NodeId} {wanted : List Bool} (h : g.WellTyped b)
    (hj : g.Gathers control) (ht : g.Values types locals) (hw : wanted.length = types.length) :
    let r := (types.zip (locals.zip wanted)).foldr
      (fun (t, n, w) (locals, g) =>
        if w then
          let (phi, g) := Graph.emitPhi g t control [n]
          (phi :: locals, g)
        else (n :: locals, g))
      (([] : List NodeId), g)
    r.2.WellTyped b ∧ g.Extends r.2 ∧ r.2.Values types r.1 := by
  induction ht generalizing wanted with
  | nil => exact ⟨h, .refl g, .nil⟩
  | @cons τ n types locals hn ht ih =>
    obtain ⟨w, wanted, rfl⟩ := exists_cons_of_length_eq_add_one hw
    obtain ⟨hi, hg, hl⟩ := ih (Nat.succ.inj hw)
    simp only [zip_cons_cons, foldr_cons]
    split
    · have hn' := hn.of_extends hg
      have hi' := hi.emitPhi (forall_mem_singleton.mpr hn') (hj.of_extends hg).supplies
      exact ⟨hi', hg.trans (.push rfl), .cons (supplies_add _ _) (hl.of_extends (.push rfl))⟩
    · exact ⟨hi, hg, .cons (hn.of_extends hg) hl⟩

theorem openLoop_sound {assigned : Option (List Bool)} (h : g.WellTyped b) (he : e.Sound types g)
    (ha : ∀ l ∈ assigned, l.length = types.length) : (openLoop types assigned e g).2.WellTyped b ∧
      (openLoop types assigned e g).1.Joinable types (openLoop types assigned e g).2 := by
  let loop := g.emitLoop e.chain.control
  let effect := loop.2.emitEffectPhi loop.1 [e.chain.effect]
  let top := effect.2.emitTerminate ⟨loop.1, effect.1⟩
  have hgl : g.Extends loop.2 := .push rfl
  have hge : loop.2.Extends effect.2 := .push rfl
  have hgt : effect.2.Extends top := .push rfl
  have hl : loop.2.WellTyped b :=
    h.pushGathers rfl rfl rfl (forall_mem_singleton.mpr he.chain.control)
  have hj : loop.2.Gathers loop.1 := gathers_add g rfl
  have heff : effect.2.WellTyped b := hl.pushGathers rfl rfl rfl <| by
    simpa using ⟨(he.chain.effect.of_extends hgl).supplies, hj.supplies⟩
  have hchain : Chain.Sound effect.2 ⟨loop.1, effect.1⟩ :=
    ⟨(hj.of_extends hge).supplies, _, node?_new rfl, Op.noConfusion⟩
  have ht : top.WellTyped b := heff.push [] rfl rfl hchain.dependencies
  have hgg := (hgl.trans hge).trans hgt
  have hlen : (assigned.getD (e.locals.map fun _ => true)).length = types.length := by
    cases hs : assigned with
    | none => simp [he.locals.length_eq]
    | some l => exact ha l hs
  have hjt := (hj.of_extends hge).of_extends hgt
  obtain ⟨hw, hgr, hlocals⟩ := loopLocals_typed ht hjt (he.locals.of_extends hgg) hlen
  exact ⟨hw, fun _ => ⟨(hchain.of_extends hgt).of_extends hgr, hlocals⟩, fun _ => hjt.of_extends hgr⟩

end Joins

section States

variable {ctx : Context} {p p' : Pending} {s s' : State} {g g' : Graph} {t : Tree} {j : Join} {υ : ValType}
  {m : NodeId} {f : Graph.Emitter}
variable {env : Env} {types : List ValType} {τ : ValType} {n : NodeId}

def Carries (g : Graph) (τ : ValType) (n : NodeId) : Prop := τ ≠ .void → g.Supplies (some τ) n

theorem Carries.of_extends (hg : g.Extends g') (h : Carries g τ n) : Carries g' τ n :=
  fun hτ => (h hτ).of_extends hg

structure Join.Sound (types : List ValType) (g : Graph) (j : Join) : Prop where
  env : j.env.Joinable types g
  value : j.env.live = true → Carries g j.type j.node

theorem Join.Sound.of_extends (hg : g.Extends g') (h : j.Sound types g) : j.Sound types g' :=
  ⟨h.env.of_extends hg, fun hl => (h.value hl).of_extends hg⟩

def Target.Sound (types : List ValType) (g : Graph) : Target → Prop
  | .exit j => j.Sound types g
  | .header e => e.Joinable types g

theorem Target.Sound.of_extends {t : Target} (hg : g.Extends g') (h : t.Sound types g) :
    t.Sound types g' := by
  cases t with
  | exit j => exact Join.Sound.of_extends hg h
  | header e => exact Env.Joinable.of_extends hg h

/-- The graph of a state is well typed, and it has all that the environment and the targets refer to. -/
structure State.Sound (ctx : Context) (g : Graph) (s : State) : Prop where
  graph : s.graph = some g
  typed : g.WellTyped ctx.body
  env : s.env.live = true → s.env.Sound ctx.types g
  blocks : ∀ t ∈ s.blocks, t.Sound ctx.types g

theorem Env.joinable_of_dead (h : env.live = false) : env.Joinable types g := by
  refine ⟨fun hl => ?_, fun hr => ?_⟩
  · rw [h] at hl
    cases hl
  · simp [Env.live, hr] at h

section

variable (h : s.Sound ctx g)
include h

theorem State.Sound.at (he : env.live = true → env.Sound ctx.types g)
    (choices : List Choice) : State.Sound ctx g { s with env, choices } :=
  ⟨h.graph, h.typed, he, h.blocks⟩

theorem State.Sound.building (hl : s.env.live = true) : s.building = some g := by
  rw [State.building, if_pos hl, h.graph]

theorem State.Sound.grow (hg : g.Extends g') (ht : g'.WellTyped ctx.body) :
    State.Sound ctx g' { s with graph := some g' } :=
  ⟨rfl, ht, fun hl => (h.env hl).of_extends hg, fun t hm => (h.blocks t hm).of_extends hg⟩

/-- A state was come to whose graph extends another, with a value where control gets there. -/
def Yields (ctx : Context) (g : Graph) (s : State) (τ : ValType) (n : NodeId) : Prop :=
  ∃ g', g.Extends g' ∧ s.Sound ctx g' ∧ (s.env.live = true → Carries g' τ n)

theorem State.Sound.yields_of_dead (hl : s.env.live = false) : Yields ctx g s τ n := by
  refine ⟨g, .refl g, h, fun hl' => ?_⟩
  rw [hl] at hl'
  cases hl'

omit h in
theorem Yields.after (h : Yields ctx g' s τ n) (hg : g.Extends g') : Yields ctx g s τ n := by
  obtain ⟨g'', hg', hs, hn⟩ := h
  exact ⟨g'', hg.trans hg', hs, hn⟩

omit h in
theorem Yields.finishPath (h : Yields ctx g s τ n) : Yields ctx g s.finishPath υ m := by
  obtain ⟨g', hg, hs, -⟩ := h
  exact ⟨g', hg, hs.at (fun hl => by cases hl) s.choices, fun hl => by cases hl⟩

omit h in
theorem Yields.value (h : Yields ctx g s τ n)
    (hm : s.env.live = true → Carries g υ m) : Yields ctx g s υ m := by
  obtain ⟨g', hg, hs, -⟩ := h
  exact ⟨g', hg, hs, fun hl => (hm hl).of_extends hg⟩

theorem State.Sound.emitOn (hf : s.env.live = true → Emits ctx.body g τ (f g s.env.chain)) :
    Yields ctx g (s.emitOn f).2 τ (s.emitOn f).1 := by
  cases hl : s.env.live with
  | false =>
    rw [State.emitOn_of_dead f hl]
    exact h.yields_of_dead hl
  | true =>
    have hr := hf hl
    have hlocals := (h.env hl).locals.of_extends hr.grows
    unfold State.emitOn
    rw [h.building hl]
    exact ⟨_, hr.grows, ⟨rfl, hr.typed, fun _ => ⟨hr.chain, hlocals⟩,
      fun t ht => (h.blocks t ht).of_extends hr.grows⟩, fun _ _ => hr.node⟩

theorem State.Sound.emitAt (offset : Int)
    (hf : s.env.live = true → Emits ctx.body g τ (f g s.env.chain)) :
    Yields ctx g (s.emitAt offset f).2 τ (s.emitAt offset f).1 :=
  h.emitOn fun hl => (hf hl).setOffset offset

theorem State.Sound.emit {f : Graph → NodeId × Graph} (hg : g.Extends (f g).2)
    (ht : (f g).2.WellTyped ctx.body) (hn : (f g).2.Supplies (some τ) (f g).1) :
    Yields ctx g (s.emit f).2 τ (s.emit f).1 := by
  cases hl : s.env.live with
  | false =>
    rw [State.emit_of_dead f hl]
    exact h.yields_of_dead hl
  | true =>
    unfold State.emit
    rw [h.building hl]
    exact ⟨_, hg, h.grow hg ht, fun _ _ => hn⟩

variable {target : Env}

theorem State.Sound.leave (hv : ctx.OnlyValues) (ht : target.Joinable ctx.types g)
    (hl : leave ctx p s target = .ok (env, s')) :
    ∃ g', g.Extends g' ∧ s'.Sound ctx g' ∧ env.Joinable ctx.types g' := by
  have hvalue : ∀ τ ∈ ctx.types, τ ≠ .void := fun τ hτ => ne_void_of_isValue (hv.types τ hτ)
  have hdead := leave_live hl
  obtain ⟨g₁, hg₁, hext⟩ := (leave_builds hl).extends g h.graph
  obtain ⟨og, hgo, rfl⟩ := leave_eq_ok.mp hl
  rw [h.graph] at hgo
  obtain ⟨g', rfl, hw, he⟩ := goTo_sound hvalue h.typed h.env ht hgo
  cases hg₁
  refine ⟨_, hext, ⟨rfl, hw, fun hl => ?_, fun t hm => (h.blocks t hm).of_extends hext⟩, he⟩
  rw [hdead] at hl
  cases hl

omit h in
theorem Join.sound_of_dead (h : j.env.live = false) : j.Sound types g := by
  refine ⟨Env.joinable_of_dead h, fun hl => ?_⟩
  rw [h] at hl
  cases hl

def Usable (g : Graph) (t : Tree) : Prop := t.type ≠ .unreachable ∧ Carries g t.type t.node

omit h in
theorem Usable.of_extends (hg : g.Extends g') (h : Usable g t) : Usable g' t :=
  ⟨h.1, h.2.of_extends hg⟩

theorem State.Sound.bring {j' : Join} (hv : ctx.OnlyValues)
    (hj : j.Sound ctx.types g) (ht : s.env.live = true → Usable g t) (hb : Brings ctx p s j t j' s') :
    ∃ g', g.Extends g' ∧ s'.Sound ctx g' ∧ j'.Sound ctx.types g' := by
  cases hb with
  | dead => exact ⟨g, .refl g, h, hj⟩
  | silent hs _ hu => exact absurd hu (ht hs).1
  | first hs hl =>
    obtain ⟨g', hg, hs', he⟩ := h.leave hv hj.env hl
    exact ⟨g', hg, hs', he, fun _ => (ht hs).2.of_extends hg⟩
  | clash hs hl =>
    obtain ⟨g', hg, hs', he⟩ := h.leave hv hj.env hl
    exact ⟨g', hg, hs', he, fun _ hn => absurd rfl hn⟩
  | same hs hl _ _ _ hvoid =>
    obtain ⟨g', hg, hs', he⟩ := h.leave hv hj.env hl
    refine ⟨g', hg, hs', he, fun _ hn => ?_⟩
    rcases hvoid with hvoid | hvoid
    · exact absurd hvoid hn
    · cases hvoid.symm.trans hs'.graph
  | @merge env s₁ g₁ hs hl _ hr hn hvoid hg₁ =>
    obtain ⟨g', hg, hs', he⟩ := h.leave hv hj.env hl
    cases hg₁.symm.trans hs'.graph
    obtain ⟨og, hgo, -⟩ := leave_eq_ok.mp hl
    have hold := (hj.value (live_of_goTo hgo hs hr) hvoid).of_extends hg
    have hnew : Graph.Supplies g₁ (some j.type) t.node := by
      rw [← hn] at hvoid ⊢
      exact ((ht hs).2 hvoid).of_extends hg
    obtain ⟨hw, hnode⟩ :=
      extendValue_typed hs'.typed hvoid (he.gathers (goTo_joined hgo hs hr)).supplies hold hnew
    have hext := (extendValue_merges g₁ j.type env.chain.control j.node t.node).builds.extends
    exact ⟨_, hg.trans hext, hs'.grow hext hw, he.of_extends hext, fun _ _ => hnode⟩

theorem State.Sound.setTarget (depth : Nat) (new : Target) (hn : new.Sound ctx.types g) :
    State.Sound ctx g { s with blocks := s.blocks.set depth new } := by
  refine ⟨h.graph, h.typed, h.env, fun t hm => ?_⟩
  rcases mem_or_eq_of_mem_set hm with hm | rfl
  · exact h.blocks t hm
  · exact hn

theorem State.Sound.breaks {depth : Nat} (hv : ctx.OnlyValues)
    (ht : s.env.live = true → Usable g t) (hb : Breaks ctx p s depth t s') :
    ∃ g', g.Extends g' ∧ s'.Sound ctx g' := by
  cases hb with
  | header hb hl =>
    obtain ⟨g', hg, hs', he⟩ := h.leave hv (h.blocks _ (mem_of_getElem? hb)) hl
    rw [← (leave_frame hl).1]
    exact ⟨g', hg, hs'.setTarget depth (.header _) he⟩
  | exit hb hj =>
    obtain ⟨g', hg, hs', he⟩ := h.bring hv (h.blocks _ (mem_of_getElem? hb)) ht hj
    rw [← hj.frame.1]
    exact ⟨g', hg, hs'.setTarget depth (.exit _) he⟩

/-- Both directions of a branch: the one that is taken, and the one that ways can be added to. -/
theorem State.Sound.branchOn {c : Tree} (hc : s.env.live = true → g.Supplies (some .i32) c.node) :
    ∃ g', g.Extends g' ∧ State.Sound ctx g' { (branchOn s c).2.2 with env := (Body.branchOn s c).1 } ∧
      (Body.branchOn s c).2.1.Joinable ctx.types g' := by
  cases hl : s.env.live with
  | false =>
    rw [branchOn_of_dead c hl]
    exact ⟨g, .refl g, h.at (fun hl' => by cases hl') s.choices, Env.joinable_of_dead hl⟩
  | true =>
    have he := h.env hl
    have hg := (emitBranch_builds g c.node s.env.chain.control).extends
    obtain ⟨hw, ht, hf⟩ := h.typed.emitBranch (hc hl) he.chain.control
    have he' := he.of_extends hg
    unfold Body.branchOn
    rw [h.building hl]
    refine ⟨_, hg, ⟨rfl, hw, fun _ => ?_, fun t hm => (h.blocks t hm).of_extends hg⟩, ?_, fun _ => hf⟩
    · rw [Env.split, if_pos hl]
      exact ⟨⟨ht.supplies, he'.chain.effect⟩, he'.locals⟩
    · exact fun _ => ⟨⟨hf.supplies, he'.chain.effect⟩, he'.locals⟩

end

section Table

variable {entry : Env} {switch : NodeId}

theorem Env.Sound.split (h : env.live = true → env.Sound types g) (hl : env.split.live = true) :
    env.split.Sound types g := by
  rw [Env.split_live] at hl
  rw [Env.split, if_pos hl]
  exact ⟨(h hl).chain, (h hl).locals⟩

theorem tableCase_sound (last i : Nat) (h : s.Sound ctx g) (he : entry.live = true → entry.Sound ctx.types g)
    (hsw : switch = noNode ∨ g.Supplies none switch) :
    ∃ g', g.Extends g' ∧ State.Sound ctx g' (tableCase entry switch last i s) := by
  unfold tableCase
  split
  · exact ⟨g, .refl g, h.at he s.choices⟩
  · rw [h.graph]
    dsimp only
    split
    · exact ⟨g, .refl g, rfl, h.typed, Env.Sound.split he, h.blocks⟩
    · rename_i hn
      have hsw := hsw.resolve_left hn
      have hcase (x : Node) (ho : x.op.gathers = true) (ht : x.type = .void) (hi : x.inputs = [switch]) :
          g.Extends (g.add x).2 ∧ State.Sound ctx (g.add x).2
            { s with env := entry.split.setControl (g.add x).1, graph := some (g.add x).2 } := by
        have hg : g.Extends (g.add x).2 := .push rfl
        have hinputs : ∀ n ∈ x.inputs, g.Supplies none n := by
          rw [hi]
          exact forall_mem_singleton.mpr hsw
        refine ⟨hg, rfl, h.typed.pushGathers rfl ho ht hinputs, fun hl => ?_,
          fun t hm => (h.blocks t hm).of_extends hg⟩
        · have hs := (Env.Sound.split he hl).of_extends hg
          exact ⟨⟨(gathers_add g ho).supplies, hs.chain.effect⟩, hs.locals⟩
      split
      · exact ⟨_, hcase _ rfl rfl rfl⟩
      · exact ⟨_, hcase _ rfl rfl rfl⟩

theorem branchAll_sound {last : Nat} {cases : List (Nat × Nat)} (hv : ctx.OnlyValues)
    (h : s.Sound ctx g) (he : entry.live = true → entry.Sound ctx.types g)
    (hsw : switch = noNode ∨ g.Supplies none switch)
    (ht : entry.live = true → Usable g t) (hb : branchAll ctx p t entry switch last cases s = .ok s') :
    ∃ g', g.Extends g' ∧ s'.Sound ctx g' := by
  induction cases generalizing s g with
  | nil =>
    cases hb
    exact ⟨g, .refl g, h⟩
  | cons c rest ih =>
    obtain ⟨s₁, hb₁, hb⟩ := bind_eq_ok.mp hb
    obtain ⟨g₁, hg₁, h₁⟩ := tableCase_sound last c.2 h he hsw
    obtain ⟨g₂, hg₂, h₂⟩ := h₁.breaks hv (fun hl => (ht (by simpa using hl)).of_extends hg₁)
      (breaks_of_breakTo hb₁)
    have hg := hg₁.trans hg₂
    obtain ⟨g₃, hg₃, h₃⟩ := ih h₂ (fun hl => (he hl).of_extends hg) (hsw.imp id (·.of_extends hg))
      (fun hl => (ht hl).of_extends hg) hb
    exact ⟨g₃, hg.trans hg₃, h₃⟩

end Table

theorem length_scanAssigned (m : Module) (results : Nat) (assigned : List Bool) (pending : List Nat)
    (i : Input) : (scanAssigned m results assigned pending i).length = assigned.length := by
  fun_induction scanAssigned m results assigned pending i with
  | case5 assigned pending i _ c rest _ form ops j _ n _ assigned' ih =>
    rw [ih]
    dsimp only [assigned']
    clear ih assigned'
    clear_value form
    split
    · exact length_set
    · rfl
  | _ => rfl

theorem length_assignedInLoop {b : FunctionBody} {offset : Int} {l : List Bool}
    (h : assignedInLoop b offset = some l) : l.length = b.localTypes.length := by
  unfold assignedInLoop at h
  dsimp only at h
  split at h
  · cases h
  · split at h
    · cases h
    · split at h
      · cases h
      · split at h <;> cases h
        · rw [length_scanAssigned, length_map]
        · exact length_map _

theorem State.Sound.openBlock (ht : ctx.types = ctx.body.localTypes) (h : s.Sound ctx g) (offset : Int)
    (isLoop : Bool) : ∃ g', g.Extends g' ∧ State.Sound ctx g' (openBlock ctx s offset isLoop) := by
  cases hl : s.env.live with
  | false =>
    rw [openBlock_of_dead offset isLoop hl]
    refine ⟨g, .refl g, h.graph, h.typed, (fun hl' => by cases hl'), fun t hm => ?_⟩
    have hexit : Target.Sound ctx.types g (.exit { env := s.env }) := Join.sound_of_dead hl
    have hhead : Target.Sound ctx.types g (.header .unreached) := Env.joinable_of_dead rfl
    cases isLoop <;> simp only [Bool.false_eq_true, if_true, if_false, nil_append, cons_append,
      mem_cons] at hm
    · rcases hm with rfl | hm
      · exact hexit
      · exact h.blocks t hm
    · rcases hm with rfl | rfl | hm
      · exact hhead
      · exact hexit
      · exact h.blocks t hm
  | true =>
    cases isLoop with
    | false =>
      have hexit : Target.Sound ctx.types g (.exit { env := s.env.vacate }) :=
        Join.sound_of_dead (Env.vacate_live _)
      exact ⟨g, .refl g, h.graph, h.typed, Env.Sound.split h.env, forall_mem_cons.mpr ⟨hexit, h.blocks⟩⟩
    | true =>
      obtain ⟨assigned, ha, ho⟩ : ∃ assigned, _ ∧ Body.openBlock ctx s offset true = _ :=
        openBlock_of_live offset hl h.graph
      have hlen : ∀ l ∈ assigned, l.length = ctx.types.length := by
        rintro l hl
        rcases ha with rfl | rfl
        · cases hl
        · rw [ht]
          exact length_assignedInLoop hl
      obtain ⟨hw, hj⟩ := openLoop_sound h.typed (Env.Sound.split h.env (by simpa using hl)) hlen
      have hg := (openLoop_builds (g := g) ctx.types assigned s.env.split).extends
      have hexit (g : Graph) : Target.Sound ctx.types g (.exit { env := .unreached }) :=
        Join.sound_of_dead rfl
      rw [ho]
      exact ⟨_, hg, rfl, hw, Env.Sound.split hj.sound, forall_mem_cons.mpr ⟨hj,
        forall_mem_cons.mpr ⟨hexit _, fun t hm => (h.blocks t hm).of_extends hg⟩⟩⟩

end States

end ProtoWasm.Body
