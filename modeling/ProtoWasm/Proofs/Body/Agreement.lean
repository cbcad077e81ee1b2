import Mathlib.Data.List.Forall2
import ProtoWasm.Proofs.Body.Reachability
import ProtoWasm.Proofs.Body.Typing

/-! # The decoder finds the types

Without a graph, the decoder and the checker by recursion accept the same bodies and give every
expression the same type. The environments of the decoder say no more than whether control gets there, and
its joins no more than the types that were brought to them.
-/
namespace ProtoWasm.Body

open Body.Expr List

def Target.Agrees : Target → Goal → Prop
  | .exit j, .exit ts => j.env.live = !ts.isEmpty ∧ j.type = commonType ts ∧ j.node = noNode
  | .header _, .header => True
  | _, _ => False

def Target.reach : Target → Reach
  | .exit j => j.env.reach
  | .header e => e.reach

def Goal.isHeader : Goal → Bool
  | .exit _ => false
  | .header => true

/-- What an expression does not change: whether control got to the beginnings of all the blocks around
it, and which of the targets are beginnings of loops. -/
structure Surroundings where
  opened : Bool
  headers : List Bool

structure Agrees (o : Surroundings) (s : State) (σ : Scope) : Prop where
  graph : s.graph = none
  live : s.env.live = σ.reachable
  goals : List.Forall₂ Target.Agrees s.blocks σ.goals
  headers : σ.goals.map Goal.isHeader = o.headers
  opened : s.env.live = true → o.opened = true
  going : o.opened = true → ∀ t ∈ s.blocks, t.reach ≠ .ended

theorem commonType_cons (t : ValType) {ts : List ValType} (hts : ts ≠ []) :
    commonType (t :: ts) = if t = commonType ts then t else .void := by
  obtain ⟨u, us, rfl⟩ := exists_cons_of_ne_nil hts
  by_cases hu : us.all (· = u) = true
  · have hc : commonType (u :: us) = u := if_pos hu
    rw [hc]
    by_cases ht : t = u
    · subst ht
      simp [commonType, hu]
    · simp [commonType, ht, Ne.symm ht]
  · have hc : commonType (u :: us) = .void := if_neg hu
    have hn : ¬(u :: us).all (· = t) = true := by
      simp only [all_cons, Bool.and_eq_true, decide_eq_true_eq]
      rintro ⟨rfl, h⟩
      exact hu h
    have hl : commonType (t :: u :: us) = .void := if_neg hn
    rw [hc, hl]
    split
    · rename_i h
      exact h.symm
    · rfl

variable {ctx : Context} {p p' : Pending} {s s' : State} {o : Surroundings} {σ : Scope} {t : Tree}
  {ts : List Tree} {depth i n : Nat} {isLoop : Bool} {τ : ValType} {x : Instruction} {cs : List Expr}
  {target : Env} {j : Join} {params : List ValType} {e : Expr} {es : List Expr}

theorem goTo_none (types : List ValType) {source : Env} (hs : source.live = true) (ht : target.reach ≠ .ended) :
    ∃ env, goTo types source target none = some (env, none) ∧ env.live = true := by
  unfold goTo
  simp only [hs, Bool.not_true, Bool.false_eq_true, if_false]
  cases hr : target.reach with
  | ended => exact absurd hr ht
  | unreached => exact ⟨_, rfl, rfl⟩
  | once => exact ⟨_, rfl, rfl⟩
  | joined => exact ⟨_, rfl, by simp [Env.live, hr]⟩

theorem leave_none (ctx : Context) (p : Pending) (hg : s.graph = none)
    (ht : s.env.live = true → target.reach ≠ .ended) :
    ∃ env, leave ctx p s target = .ok (env, { s with env := if s.env.live then .ended else s.env }) ∧
      env.live = (s.env.live || target.live) ∧ (target.reach ≠ .ended → env.reach ≠ .ended) := by
  by_cases hs : s.env.live = true
  · obtain ⟨env, he, hl⟩ := goTo_none ctx.types hs (ht hs)
    refine ⟨env, leave_eq_ok.mpr ⟨none, by rw [hg]; exact he, by simp [hs, hg]⟩, by simp [hs, hl], ?_⟩
    intro _ hr
    simp [Env.live, hr] at hl
  · have hs : s.env.live = false := by simpa using hs
    exact ⟨target, by rw [leave_of_dead _ hs]; simp [hs], by simp [hs], id⟩

theorem bring_agrees (ctx : Context) (p : Pending) {ts : List ValType}
    (hg : s.graph = none) (hr : s.env.live = true → j.env.reach ≠ .ended)
    (ht : s.env.live = true → t.type ≠ .unreachable) (hn : t.node = noNode)
    (hj : Target.Agrees (.exit j) (.exit ts)) :
    ∃ j', bring ctx p s j t = .ok (j', { s with env := if s.env.live then .ended else s.env }) ∧
      Target.Agrees (.exit j') (.exit (if s.env.live then t.type :: ts else ts)) ∧
      (j.env.reach ≠ .ended → j'.env.reach ≠ .ended) := by
  obtain ⟨hl, hty, hno⟩ := hj
  by_cases hs : s.env.live = true
  · obtain ⟨env, he, hlive, hend⟩ := leave_none ctx p hg hr
    have hlive : env.live = true := by simp [hlive, hs]
    have hfirst : j.env.reach = .unreached ↔ ts = [] := by
      have := hr hs
      cases hreach : j.env.reach <;> simp_all [Env.live]
    unfold bring
    simp only [hs, Bool.not_true, Bool.false_eq_true, if_false, he, ok_bind, ht hs, if_true, hfirst,
      hty, hg]
    by_cases h0 : ts = []
    · subst h0
      exact ⟨_, rfl, ⟨hlive, rfl, hn⟩, hend⟩
    · have hc := commonType_cons t.type h0
      simp only [h0, if_false]
      by_cases hne : t.type = commonType ts
      · rw [if_pos hne] at hc
        simp only [hne, ne_eq, not_true_eq_false, if_false]
        split <;> exact ⟨_, rfl, ⟨hlive, by rw [← hne, hc], hno⟩, hend⟩
      · simp only [hne, ne_eq, not_false_eq_true, if_true]
        rw [if_neg hne] at hc
        exact ⟨_, rfl, ⟨hlive, hc.symm, rfl⟩, hend⟩
  · have hs : s.env.live = false := by simpa using hs
    exact ⟨j, by simp [bring, hs], by simp [hs, Target.Agrees, hl, hty, hno], id⟩

theorem Agrees.setEnv (h : Agrees o s σ) (env : Env) (he : env.live = true → o.opened = true) :
    Agrees o { s with env } { σ with reachable := env.live } :=
  ⟨h.graph, rfl, h.goals, h.headers, he, h.going⟩

theorem Agrees.stop (h : Agrees o s σ) : Agrees o s.finishPath σ.stop :=
  h.setEnv .ended Bool.noConfusion

theorem Agrees.split (h : Agrees o s σ) : Agrees o { s with env := s.env.split } σ := by
  have he := h.setEnv s.env.split (by simpa using h.opened)
  rwa [Env.split_live, h.live] at he

theorem Agrees.length (h : Agrees o s σ) : s.blocks.length = o.headers.length := by
  rw [h.goals.length_eq, ← h.headers, length_map]

@[simp] theorem Scope.bring_reachable (τ : ValType) (depth : Nat) :
    (σ.bring τ depth).reachable = σ.reachable := by
  unfold Scope.bring
  split <;> rfl

@[simp] theorem Scope.bring_headers (τ : ValType) (depth : Nat) :
    (σ.bring τ depth).goals.map Goal.isHeader = σ.goals.map Goal.isHeader := by
  unfold Scope.bring
  split
  · refine ext_getElem (by simp) fun i h₁ h₂ => ?_
    simp only [getElem_map, getElem_modify]
    split
    · split <;> (rename_i h; simp [h, Goal.isHeader])
    · rfl
  · rfl

theorem forall₂_set {α β : Type} {R : α → β → Prop} {xs : List α} {ys : List β} {x : α}
    (h : List.Forall₂ R xs ys) (hx : xs[i]? = some x) :
    ∃ y, R x y ∧ ∀ x' (f : β → β), R x' (f y) → List.Forall₂ R (xs.set i x') (ys.modify i f) := by
  induction h generalizing i with
  | nil => cases hx
  | @cons a b xs ys hab hrest ih =>
    cases i with
    | zero =>
      obtain rfl : a = x := by simpa using hx
      exact ⟨b, hab, fun x' f hf => .cons hf hrest⟩
    | succ i =>
      obtain ⟨y, hy, hset⟩ := ih (by simpa using hx)
      exact ⟨y, hy, fun x' f hf => .cons hab (hset x' f hf)⟩

theorem breakTo_of_dead (hd : depth < s.blocks.length)
    (hs : s.env.live = false) : breakTo ctx p s depth t = .ok s := by
  have hb : s.blocks[depth]? = some s.blocks[depth] := getElem?_eq_getElem hd
  unfold breakTo
  rw [hb]
  cases ht : s.blocks[depth] with
  | header e =>
    simp only [leave_of_dead e hs, ok_bind]
    rw [ht] at hb
    rw [set_of_getElem? hb]
    rfl
  | exit j =>
    simp only [bring, hs, Bool.not_false, if_true, ok_bind]
    rw [ht] at hb
    rw [set_of_getElem? hb]
    rfl

theorem breakTo_agrees (ctx : Context) (p : Pending) (ha : Agrees o s σ)
    (hd : depth < s.blocks.length) (ht : s.env.live = true → t.type ≠ .unreachable) (hn : t.node = noNode) :
    ∃ s', breakTo ctx p s depth t = .ok s' ∧ Agrees o s' (σ.bring t.type depth).stop := by
  have hσ := ha.live
  have hheaders : (σ.bring t.type depth).goals.map Goal.isHeader = o.headers :=
    (Scope.bring_headers _ _).trans ha.headers
  by_cases hs : s.env.live = true
  · have hgo := ha.going (ha.opened hs)
    have hb : s.blocks[depth]? = some s.blocks[depth] := getElem?_eq_getElem hd
    have hm : s.blocks[depth] ∈ s.blocks := getElem_mem hd
    obtain ⟨y, hy, hset⟩ := forall₂_set ha.goals hb
    -- a target that replaces the one that control goes to
    have go {target : Target} (hr : target.reach ≠ .ended) :
        ∀ t ∈ s.blocks.set depth target, t.reach ≠ .ended := by
      intro t' ht'
      rcases mem_or_eq_of_mem_set ht' with h | rfl
      · exact hgo t' h
      · exact hr
    cases htarget : s.blocks[depth] with
    | header e =>
      rw [htarget] at hb hm hy
      obtain ⟨env, he, -, hend⟩ := leave_none ctx p ha.graph fun _ => hgo _ hm
      have hbreak : breakTo ctx p s depth t =
          .ok ⟨.ended, s.blocks.set depth (.header env), s.choices, s.graph⟩ := by
        simp only [breakTo, hb, he, ok_bind, hs, if_true]
        rfl
      refine ⟨_, hbreak, ⟨ha.graph, rfl, ?_, hheaders, Bool.noConfusion, fun _ => go (hend (hgo _ hm))⟩⟩
      obtain _ | _ := y
      · cases hy
      · simp only [Scope.bring, Scope.stop, ← hσ, hs, if_true]
        exact hset _ _ trivial
    | exit j =>
      rw [htarget] at hb hm hy
      obtain ts | _ := y
      · obtain ⟨j', hj, hagree, hend⟩ := bring_agrees ctx p ha.graph (fun _ => hgo _ hm) ht hn hy
        have hbreak : breakTo ctx p s depth t =
            .ok ⟨.ended, s.blocks.set depth (.exit j'), s.choices, s.graph⟩ := by
          simp only [breakTo, hb, hj, ok_bind, hs, if_true]
          rfl
        refine ⟨_, hbreak, ⟨ha.graph, rfl, ?_, hheaders, Bool.noConfusion, fun _ => go (hend (hgo _ hm))⟩⟩
        simp only [hs, if_true] at hagree
        simp only [Scope.bring, Scope.stop, ← hσ, hs, if_true]
        exact hset _ _ hagree
      · cases hy
  · have hs : s.env.live = false := by simpa using hs
    refine ⟨s, breakTo_of_dead hd hs, ⟨ha.graph, hs, ?_, hheaders, ha.opened, ha.going⟩⟩
    simp only [Scope.bring, Scope.stop, ← hσ, hs]
    exact ha.goals

section Table

variable {entry : Env}

theorem tableCase_of_none (entry : Env) (last i : Nat) (hg : s.graph = none) :
    ∃ env, tableCase entry noNode last i s = { s with env } ∧ env.live = entry.live := by
  unfold tableCase
  split
  · exact ⟨_, rfl, rfl⟩
  · simp only [hg]
    exact ⟨_, rfl, Env.split_live _⟩

theorem branchAll_agrees (ctx : Context) (p : Pending) (last : Nat) {cases : List (Nat × Nat)}
    (ha : Agrees o { s with env := entry } σ) (hd : ∀ c ∈ cases, c.1 < s.blocks.length)
    (ht : entry.live = true → t.type ≠ .unreachable) (hn : t.node = noNode) :
    ∃ s', branchAll ctx p t entry noNode last cases s = .ok s' ∧
      Agrees o { s' with env := entry } (cases.foldl (fun σ c => σ.bring t.type c.1) σ) := by
  induction cases generalizing s σ with
  | nil => exact ⟨s, rfl, ha⟩
  | cons c rest ih =>
    obtain ⟨hc, hrest⟩ := forall_mem_cons.mp hd
    obtain ⟨env, hcase, hlive⟩ := tableCase_of_none (s := s) entry last c.2 ha.graph
    have hσ : σ.reachable = entry.live := ha.live.symm
    have hcur : Agrees o { s with env } σ := by
      have h := ha.setEnv env (by rw [hlive]; exact ha.opened)
      rwa [hlive, ← hσ] at h
    obtain ⟨s₁, hb, h₁⟩ := breakTo_agrees ctx p hcur hc (by rwa [hlive]) hn
    have hnext : Agrees o { s₁ with env := entry } (σ.bring t.type c.1) := by
      have h := h₁.setEnv entry ha.opened
      have heq : { (σ.bring t.type c.1).stop with reachable := entry.live } = σ.bring t.type c.1 := by
        rw [← hσ, ← Scope.bring_reachable t.type c.1]
        rfl
      rwa [heq] at h
    have hlen : s₁.blocks.length = s.blocks.length := h₁.length.trans ha.length.symm
    obtain ⟨s', hs', h'⟩ := ih hnext (by rwa [hlen])
    refine ⟨s', ?_, h'⟩
    rw [branchAll, hcase, hb, ok_bind]
    exact hs'

end Table

section NoGraph

variable (hg : s.graph = none)
include hg

theorem State.building_of_none : s.building = none := by simp [State.building, hg]

theorem State.emit_of_none (f : Graph → NodeId × Graph) : s.emit f = (noNode, s) := by
  simp [State.emit, State.building_of_none hg]

theorem State.emitOn_of_none (f : Graph.Emitter) : s.emitOn f = (noNode, s) := by
  simp [State.emitOn, State.building_of_none hg]

theorem State.emitAt_of_none (offset : Int) (f : Graph.Emitter) : s.emitAt offset f = (noNode, s) :=
  State.emitOn_of_none hg _

theorem branchOn_of_none (c : Tree) : branchOn s c = (s.env.split, s.env, s) := by
  simp [branchOn, State.building_of_none hg]

theorem State.choose_of_none (c : Tree) :
    s.choose c = { s with env := s.env.split, choices := ⟨s.env, { env := .unreached }⟩ :: s.choices } := by
  simp [State.choose, branchOn_of_none hg]

theorem openBlock_of_none (ctx : Context) (offset : Int) (isLoop : Bool) :
    ∃ env head, openBlock ctx s offset isLoop = { s with
        env
        blocks := (if isLoop then [.header head] else []) ++ .exit { env := s.env.vacate } :: s.blocks } ∧
      env.live = s.env.live ∧ (s.env.live = true → head.reach ≠ .ended) := by
  cases isLoop with
  | false => exact ⟨_, .unreached, rfl, Env.split_live _, fun _ => Reach.noConfusion⟩
  | true =>
    unfold openBlock
    simp only [Bool.not_true, Bool.false_eq_true, if_false, Env.split_live, hg]
    by_cases hs : s.env.live = true
    · simp only [hs, Bool.not_true, Bool.false_eq_true, if_false]
      exact ⟨_, _, rfl, Env.split_live _, fun _ => Reach.noConfusion⟩
    · simp only [hs, Bool.not_false, if_true]
      refine ⟨_, _, rfl, ?_, fun h => absurd h (by simp)⟩
      simpa using hs

end NoGraph

def Surroundings.inside (o : Surroundings) (live isLoop : Bool) : Surroundings :=
  ⟨live, (if isLoop then [true] else []) ++ false :: o.headers⟩

theorem openBlock_agrees (ha : Agrees o s σ) (offset : Int) (isLoop : Bool) :
    Agrees (o.inside s.env.live isLoop) (openBlock ctx s offset isLoop) (σ.enterBlock isLoop) := by
  obtain ⟨env, head, hb, hlive, hhead⟩ := openBlock_of_none ha.graph ctx offset isLoop
  rw [hb]
  have hexit : Target.Agrees (.exit { env := s.env.vacate }) (.exit []) :=
    ⟨Env.vacate_live _, rfl, rfl⟩
  refine ⟨ha.graph, hlive.trans ha.live, ?_, ?_, by simp [hlive, Surroundings.inside], ?_⟩
  · cases isLoop with
    | false => exact .cons hexit ha.goals
    | true => exact .cons trivial (.cons hexit ha.goals)
  · cases isLoop <;> simp [Scope.enterBlock, Surroundings.inside, Goal.isHeader, ha.headers]
  · intro (hs : s.env.live = true) t ht
    have hvac : (Target.exit { env := s.env.vacate }).reach ≠ .ended := by
      simp [Target.reach, Env.vacate, hs, Env.unreached]
    rcases mem_append.mp ht with ht | ht
    · cases isLoop with
      | false => cases ht
      | true =>
        obtain rfl := mem_singleton.mp ht
        exact hhead hs
    · rcases mem_cons.mp ht with rfl | ht
      · exact hvac
      · exact ha.going (ha.opened hs) t ht

theorem closeBlock_agrees (ctx : Context) {rest : List Target} {ts : List ValType}
    (hb : s.blocks = .exit j :: rest) (hl : p.done.getLast? = some t) (hg : s.graph = none)
    (hr : s.env.live = true → j.env.reach ≠ .ended) (ht : s.env.live = true → t.type ≠ .unreachable)
    (hn : t.node = noNode) (hj : Target.Agrees (.exit j) (.exit ts)) :
    ∃ env, env.live = !(if s.env.live then t.type :: ts else ts).isEmpty ∧ closeBlock ctx p s = .ok
      ({ p with type := commonType (if s.env.live then t.type :: ts else ts), node := noNode },
        { s with env, blocks := rest }) := by
  obtain ⟨j', hbring, ⟨hlive, htype, hnode⟩, -⟩ := bring_agrees ctx p hg hr ht hn hj
  refine ⟨j'.env, hlive, ?_⟩
  unfold closeBlock
  simp only [hb, lastChild_eq_ok.mpr hl, ok_bind, hbring, htype, hnode]
  rfl

theorem Agrees.exit {live : Bool} (h : Agrees (o.inside live isLoop) s σ) :
    ∃ j rest ts goals, (if isLoop then s.blocks.drop 1 else s.blocks) = .exit j :: rest ∧
      (if isLoop then σ.goals.drop 1 else σ.goals) = .exit ts :: goals ∧
      Target.Agrees (.exit j) (.exit ts) ∧ List.Forall₂ Target.Agrees rest goals ∧
      goals.map Goal.isHeader = o.headers := by
  -- the goals end in that of the block
  have top {bs : List Target} {gs : List Goal} (hb : List.Forall₂ Target.Agrees bs gs)
      (hg : gs.map Goal.isHeader = false :: o.headers) :
      ∃ j rest ts goals, bs = .exit j :: rest ∧ gs = .exit ts :: goals ∧
        Target.Agrees (.exit j) (.exit ts) ∧ List.Forall₂ Target.Agrees rest goals ∧
        goals.map Goal.isHeader = o.headers := by
    cases hb with
    | nil => cases hg
    | @cons b g rest goals hbg hrest =>
      obtain ⟨hg, hgoals⟩ := List.cons.inj hg
      obtain ts | _ := g
      · obtain j | _ := b
        · exact ⟨j, rest, ts, goals, rfl, rfl, hbg, hrest, hgoals⟩
        · cases hbg
      · cases hg
  cases isLoop with
  | false => exact top h.goals h.headers
  | true =>
    have hh : (σ.goals.drop 1).map Goal.isHeader = false :: o.headers := by
      rw [map_drop, h.headers]
      rfl
    exact top (forall₂_drop 1 h.goals) hh

theorem reduce_block (hr : p.rule = if isLoop then .loop else .block) (hc : p.complete = true) :
    reduce ctx p s = closeBlock ctx p { s with blocks := if isLoop then s.blocks.drop 1 else s.blocks } := by
  unfold reduce
  cases isLoop with
  | false => simp [hr, hc]
  | true => simp [hr, hc]

theorem fitAll_replicate_none (n : Nat) (ts : List Tree) : fitAll (List.replicate n none) ts = true := by
  induction n generalizing ts with
  | zero => rfl
  | succ n ih =>
    cases ts with
    | nil => rfl
    | cons t ts => exact ih ts

section Operands

theorem typeMatches_eq_accepts (h : τ ≠ .void) (found : ValType) :
    typeMatches τ found = accepts τ found := by
  simp [typeMatches, accepts, h]

theorem fitAll_eq_acceptAll (hl : ts.length = params.length)
    (hv : ∀ τ ∈ params, τ ≠ .void) : fitAll (params.map some) ts = acceptAll params ts := by
  induction params generalizing ts with
  | nil =>
    obtain rfl := length_eq_zero_iff.mp hl
    rfl
  | cons τ params ih =>
    obtain ⟨hτ, hv⟩ := forall_mem_cons.mp hv
    match ts, hl with
    | t :: ts, hl =>
      have hl : ts.length = params.length := by simpa using hl
      simp only [map_cons, fitAll, fits, Option.all_some, acceptAll, ih hl hv,
        typeMatches_eq_accepts hτ]

theorem fitAll_getElem? {ws : List (Option ValType)}
    (h : fitAll ws ts = true) (hw : ws[i]? = some (some τ)) (ht : ts[i]? = some t) :
    typeMatches τ t.type = true := by
  induction ts generalizing ws i with
  | nil => cases ht
  | cons u ts ih =>
    match ws with
    | w :: ws =>
      simp only [fitAll, Bool.and_eq_true] at h
      cases i with
      | zero =>
        obtain rfl : w = some τ := by simpa using hw
        obtain rfl : u = t := by simpa using ht
        simpa [fits] using h.1
      | succ i => exact ih h.2 (by simpa using hw) (by simpa using ht)

theorem lastFits_of_fitAll (h : fitAll (p.wants ctx) p.done = true) : p.LastFits ctx := by
  intro t τ ht hw
  rw [getLast?_eq_getElem?] at ht
  exact fitAll_getElem? h hw ht

theorem Rule.patient_of_plain {r : Rule} (h : r.plain = true) : r.patient = true := by
  cases r <;> first | rfl | cases h

/-- Without a graph nothing happens once the operands are there. Only a call can have none. -/
theorem reduce_plain (hr : p.rule.plain = true) (hp : p.Regular ctx) (ha : p.done.length = p.arity)
    (hl : p.LastFits ctx) (hd : p.done = [] → ∃ i sig, p.rule = .call i sig)
    (hn : ∀ t ∈ p.done, t.node = noNode) (hnode : p.node = noNode) (hg : s.graph = none) :
    reduce ctx p s = .ok (p, s) := by
  have hc : p.complete = true := by simp [Pending.complete, ha]
  have hself : { p with node := noNode } = p := by rw [← hnode]
  -- the check of a list of types
  have listed {ts : List ValType} (hw : p.wants ctx = ts.map some) (hd : p.done ≠ []) :
      ∃ τ t, expectedAt p ts (p.done.length - 1) = .ok τ ∧ checkLast p τ = .ok t :=
    checkLast_of_lastFits hw hp (Nat.le_of_eq ha) hd hl
  -- the check of the only operand
  have single {τ : ValType} (hw : p.wants ctx = [some τ]) :
      ∃ t, checkLast p τ = .ok t ∧ t.node = noNode := by
    have h1 : p.done.length = 1 := by rw [ha, ← hp, hw]; rfl
    obtain ⟨t, ht⟩ := length_eq_one_iff.mp h1
    refine ⟨t, checkLast_eq_ok.mpr ⟨by simp [ht], hl t τ (by simp [ht]) (by simp [hw, ht])⟩, ?_⟩
    exact hn t (by simp [ht])
  have hcall (hn : ∀ i sig, p.rule ≠ .call i sig) : p.done ≠ [] := by
    intro h0
    obtain ⟨i, sig, hi⟩ := hd h0
    exact hn i sig hi
  have hmap : p.done ≠ [] → childNodes p ≠ [] := by simp [childNodes]
  unfold reduce
  cases h : p.rule with
  | setLocal i τ =>
    obtain ⟨t, ht, hz⟩ := single (by rw [Pending.wants, h])
    simp only [reduceSetLocal, ht, ok_bind, State.building_of_none hg, hz, hself]
    rfl
  | setGlobal i =>
    obtain ⟨t, ht, hz⟩ := single (by rw [Pending.wants, h])
    simp only [reduceSetGlobal, ht, ok_bind, State.emitOn_of_none hg, hz, hself]
    rfl
  | growMemory =>
    obtain ⟨t, ht, -⟩ := single (by rw [Pending.wants, h])
    rw [h] at hself
    simp only [ht, ok_bind, State.emitOn_of_none hg, hself]
    rfl
  | call i sig =>
    obtain hd | hd := eq_or_ne p.done []
    · have hz : (!p.done.isEmpty) = false := by simp [hd]
      simp [reduceCall, hz, hc, State.emitAt_of_none hg, hself, pure, Except.pure]
    · obtain ⟨τ, t, he, ht⟩ := listed (by rw [Pending.wants, h]) hd
      simp [reduceCall, hd, he, ht, hc, State.emitAt_of_none hg, hself, ok_bind, pure, Except.pure]
  | callIndirect i sig =>
    have hd := hcall (by simp [h])
    have hw : p.wants ctx = (ValType.i32 :: sig.params).map some := by rw [Pending.wants, h]; rfl
    obtain ⟨τ, t, he, ht⟩ := listed hw hd
    obtain ⟨k, args, hk⟩ := exists_cons_of_ne_nil (hmap hd)
    simp [reduceCallIndirect, he, ht, hc, hk, State.emitAt_of_none hg, hself, ok_bind, pure, Except.pure]
  | numeric sig =>
    have hd := hcall (by simp [h])
    obtain ⟨τ, t, he, ht⟩ := listed (by rw [Pending.wants, h]) hd
    obtain ⟨k, rest, hk⟩ := exists_cons_of_ne_nil (hmap hd)
    cases rest with
    | nil | cons =>
      simp [reduceNumeric, he, ht, hc, hk, State.emitAt_of_none hg, hself, ok_bind, pure, Except.pure]
  | access a offset =>
    have hw : p.wants ctx = some .i32 :: if a.store then [some a.type] else [] := by rw [Pending.wants, h]
    have hlen : p.done.length = if a.store then 2 else 1 := by
      rw [ha, ← hp, hw]
      split <;> rfl
    have hd : p.done ≠ [] := fun h0 => by
      rw [h0] at hlen
      split at hlen <;> cases hlen
    have ht : p.done.getLast? = some (p.done.getLast hd) := getLast?_eq_some_getLast hd
    have hm : typeMatches (if p.done.length = 2 then a.type else .i32) (p.done.getLast hd).type = true := by
      refine hl _ _ ht ?_
      rw [hw, hlen]
      cases a.store <;> rfl
    simp [reduceAccess, checkLast_eq_ok.mpr ⟨ht, hm⟩, hc, State.building_of_none hg, ok_bind, pure,
      Except.pure]
  | block | loop | ifThen | ifElse | select | br | brIf | brTable | ret =>
    rw [h] at hr
    cases hr

end Operands

inductive Plays (ctx : Context) (s : State) (x : Instruction) : Role → Entry → Prop
  | leaf {τ : ValType} : Plays ctx s x (.value [] τ) (.leaf (x.leaf τ noNode) s)
  | halt : Plays ctx s x (.stop []) (.leaf (x.leaf .unreachable noNode) s.finishPath)
  | value {rule : Rule} (params : List ValType) {τ : ValType} (hr : rule.plain = true)
    (hw : (x.await rule τ params.length).wants ctx = params.map some)
    (hv : ∀ τ ∈ params, τ.isValue = true) (hd : params = [] → ∃ i sig, rule = .call i sig) :
    Plays ctx s x (.value params τ) (.wait (x.await rule τ params.length) s)
  | ret (hr : ctx.body.signature.results ≠ []) : Plays ctx s x (.stop ctx.body.signature.results)
    (.wait (x.await .ret .unreachable ctx.body.signature.results.length) s)
  | block {n : Nat} {isLoop : Bool} (hn : n ≠ 0) : Plays ctx s x (.block isLoop)
    (.wait (x.await (if isLoop then .loop else .block) .unreachable n) (openBlock ctx s x.offset isLoop))
  | ifThen : Plays ctx s x .ifThen (.wait (x.await .ifThen .void 2) s)
  | ifElse : Plays ctx s x .ifElse (.wait (x.await .ifElse .unreachable 3) s)
  | select : Plays ctx s x .select (.wait (x.await .select .unreachable 3) s)
  | br {depth : Nat} (hd : depth < s.blocks.length) :
    Plays ctx s x (.br depth) (.wait (x.await (.br depth) .unreachable 1) s)
  | brIf {depth : Nat} (hd : depth < s.blocks.length) :
    Plays ctx s x (.brIf depth) (.wait (x.await (.brIf depth) .void 2) s)
  | brTable {depths : List Nat} (hd : ∀ depth ∈ depths, depth < s.blocks.length) :
    Plays ctx s x (.brTable depths) (.wait (x.await (.brTable depths) .unreachable 2) s)

/-- An instruction begins exactly if it has a role. -/
theorem plays (hv : ctx.OnlyValues) (ht : ctx.types = ctx.body.localTypes) (hg : s.graph = none)
    (x : Instruction) :
    Option.Rel (Plays ctx s x) (role? ctx.body s.blocks.length x) (enter ctx s x).toOption := by
  have hemit (f : Graph → NodeId × Graph) := State.emit_of_none hg f
  have hemitOn (f : Graph.Emitter) := State.emitOn_of_none hg f
  have hemitAt (f : Graph.Emitter) := State.emitAt_of_none hg x.offset f
  have hbuild := State.building_of_none hg
  unfold role?
  simp only [enter]
  split <;> simp only [*]
  · exact .some .leaf
  · split
    · exact .some .leaf
    · exact .some (.block ‹_›)
  · split
    · exact .some .leaf
    · exact .some (.block ‹_›)
  · exact .some .ifThen
  · exact .some .ifElse
  · exact .some .select
  · rename_i d _ _
    by_cases hd : d < s.blocks.length
    · rw [if_pos hd, if_neg (Nat.not_le.mpr hd)]
      exact .some (.br hd)
    · rw [if_neg hd, if_pos (Nat.not_lt.mp hd)]
      exact .none
  · rename_i d _ _
    by_cases hd : d < s.blocks.length
    · rw [if_pos hd, if_neg (Nat.not_le.mpr hd)]
      exact .some (.brIf hd)
    · rw [if_neg hd, if_pos (Nat.not_lt.mp hd)]
      exact .none
  · rename_i ds _ _
    by_cases hd : ∀ d ∈ ds, d < s.blocks.length
    · have hall : (ds.all fun d => decide (d < s.blocks.length)) = true := by simpa using hd
      rw [if_pos hall, find?_depth_eq_none.mpr hd]
      exact .some (.brTable hd)
    · have hall : ¬(ds.all fun d => decide (d < s.blocks.length)) = true := by simpa using hd
      rw [if_neg hall]
      obtain ⟨c, hc⟩ := Option.ne_none_iff_exists'.mp (mt find?_depth_eq_none.mp hd)
      rw [hc]
      exact .none
  · cases hr : ctx.body.signature.results with
    | nil => exact .some .halt
    | cons τ τs =>
      rw [← hr, if_neg (by simp [hr])]
      exact .some (.ret (by simp [hr]))
  · exact .some .halt
  · exact .some .leaf
  · exact .some .leaf
  · exact .some .leaf
  · exact .some .leaf
  · exact .some .leaf
  · rename_i i _ _
    cases ctx.body.localTypes[i]? with
    | none => exact .none
    | some τ => exact .some .leaf
  · rename_i i _ _
    cases hi : ctx.body.localTypes[i]? with
    | none => exact .none
    | some τ =>
      have hτ : τ.isValue = true := hv.types τ (by rw [ht]; exact mem_of_getElem? hi)
      exact .some (.value [τ] rfl rfl (by simpa using hτ) (by simp))
  · rename_i i _ _
    cases ctx.body.module.globals[i]? with
    | none => exact .none
    | some v => exact .some .leaf
  · rename_i i _ _
    cases hi : ctx.body.module.globals[i]? with
    | none => exact .none
    | some v =>
      have hτ : v.type.valType.isValue = true := hv.body.globals v (mem_of_getElem? hi)
      cases hm : v.type.isMutable with
      | false =>
        simp only [Option.filter, hm]
        exact .none
      | true =>
        simp only [Option.filter, hm, if_true]
        exact .some (.value [v.type.valType] rfl rfl (by simpa using hτ) (by simp))
  · rename_i i _ _
    cases hi : ctx.body.module.functionType? i with
    | none => exact .none
    | some sig =>
      obtain ⟨f, hf, rfl⟩ := Option.map_eq_some_iff.mp hi
      have hsig := hv.body.functions f (mem_of_getElem? hf)
      exact .some (.value _ rfl rfl (FuncType.isValue_of_mem_params hsig) fun _ => ⟨_, _, rfl⟩)
  · rename_i i _ _
    cases hi : ctx.body.module.tables.isEmpty with
    | true => exact .none
    | false =>
      cases hi : ctx.body.module.signatures[i]? with
      | none => exact .none
      | some sig =>
        have hsig := hv.body.signatures sig (mem_of_getElem? hi)
        have h : Plays ctx s x (.value (.i32 :: sig.params) sig.resultType)
            (.wait (x.await (.callIndirect i sig) sig.resultType (sig.params.length + 1)) s) :=
          .value _ rfl rfl (forall_mem_cons.mpr ⟨rfl, FuncType.isValue_of_mem_params hsig⟩) (by simp)
        rw [Nat.add_comm] at h
        exact .some h
  · cases ctx.body.module.memory with
    | none => exact .none
    | some m => exact .some (.value [.i32] rfl rfl (by simp [ValType.isValue]) (by simp))
  · cases ctx.body.module.memory with
    | none => exact .none
    | some m => exact .some .leaf
  · rename_i a alignment _ hf _
    cases ctx.body.module.memory with
    | none => exact .none
    | some m =>
      have hτ := Opcode.isValue_of_access? (Opcode.access?_of_form hf)
      by_cases hl : alignment ≤ a.maxAlignment
      · simp only [Option.isSome_some, hl, and_self, if_true, Option.isNone_some, Nat.not_lt.mpr hl,
          Bool.false_eq_true, if_false, MemoryAccess.arity]
        cases hs : a.store with
        | false => exact .some (.value [.i32] rfl (by simp [Pending.wants, Instruction.await, hs])
            (forall_mem_singleton.mpr rfl) (by simp))
        | true => exact .some (.value [.i32, a.type] rfl (by simp [Pending.wants, Instruction.await, hs])
            (forall_mem_cons.mpr ⟨rfl, forall_mem_singleton.mpr hτ⟩) (by simp))
      · simp only [hl, and_false, if_false, Option.isNone_some, Nat.lt_of_not_le hl, Bool.false_eq_true,
          if_true]
        exact .none
  · rename_i sig hf
    have hn := Opcode.numeric?_of_form hf
    have hsig := FuncType.isValue_of_mem_params (Opcode.isValue_of_numeric? hn)
    exact .some (.value _ rfl rfl hsig fun h => absurd h (Opcode.params_ne_nil_of_numeric? hn))
  · split <;> first | exact .none | (exfalso; grind)

section Expressions

theorem rel_bind {α α' β β' : Type} {R : α → β → Prop} {S : α' → β' → Prop} {x : Option α} {y : Option β}
    {f : α → Option α'} {g : β → Option β'} (h : Option.Rel R x y)
    (hf : ∀ a c, x = some a → R a c → Option.Rel S (f a) (g c)) : Option.Rel S (x.bind f) (y.bind g) := by
  cases h with
  | none => exact .none
  | some h => exact hf _ _ rfl h

structure Matches (o : Surroundings) (a : Tree × State) (c : Tree × Scope) : Prop where
  tree : a.1 = c.1
  node : a.1.node = noNode
  state : Agrees o a.2 c.2

def Agreeing (ctx : Context) (e : Expr) : Prop :=
  ∀ o s σ, Agrees o s σ → s.Settled → Option.Rel (Matches o) (eval ctx e s).toOption (infer ctx.body e σ)

structure MatchesAll (o : Surroundings) (a : List Tree × State) (c : List Tree × Scope) : Prop where
  trees : a.1 = c.1
  nodes : ∀ t ∈ a.1, t.node = noNode
  state : Agrees o a.2 c.2

variable {c a : Expr} (hv : ctx.OnlyValues)
include hv

theorem settled_of_eval (he : Shaped ctx.body e) (h : (eval ctx e s).toOption = some (t, s')) (hs : s.Settled) :
    s'.Settled ∧ (s'.env.live = true → t.type ≠ .unreachable) := by
  obtain ⟨hs', ht⟩ := (decodes_of_eval he (toOption_eq_some.mp h)).settled hv hs
  exact ⟨hs', fun hl => ht hl t (by simp)⟩

theorem evalAll_agrees (hes : ShapedAll ctx.body es) (he : ∀ e ∈ es, Agreeing ctx e)
    (ha : Agrees o s σ) (hs : s.Settled) :
    Option.Rel (MatchesAll o) (evalAll ctx es s).toOption (inferAll ctx.body es σ) := by
  induction es generalizing s σ with
  | nil => exact .some ⟨rfl, forall_mem_nil _, ha⟩
  | cons e es ih =>
    obtain ⟨h₁, hrest⟩ := forall_mem_cons.mp he
    simp only [evalAll, inferAll, toOption_bind, Option.bind_eq_bind]
    refine rel_bind (h₁ o s σ ha hs) ?_
    rintro ⟨t, s₁⟩ ⟨t', σ₁⟩ ht hm
    have hs₁ := (settled_of_eval hv hes.1 ht hs).1
    refine rel_bind (ih hes.2 hrest hm.state hs₁) ?_
    rintro ⟨ts, s₂⟩ ⟨ts', σ₂⟩ _ hms
    obtain rfl : t = t' := hm.tree
    obtain rfl : ts = ts' := hms.trees
    exact .some ⟨rfl, forall_mem_cons.mpr ⟨hm.node, hms.nodes⟩, hms.state⟩

section Operands

variable (hcs : ShapedAll ctx.body cs) (hi : ∀ e ∈ cs, Agreeing ctx e) (hs : s.Settled)
include hcs hi hs

omit hs in
/-- An expression that decodes its children first is checked by checking them first. -/
theorem patient_agrees {s₁ : State} {o' : Surroundings} {σ₁ : Scope}
    {f : List Tree × Scope → Option (Tree × Scope)} (hs : s₁.Settled) (he : enter ctx s x = .ok (.wait p s₁))
    (hr : p.rule.patient = true) (hl : cs.length = p.arity) (ha : Agrees o' s₁ σ₁)
    (hf : ∀ ts s₂ σ₂, evalAll ctx cs s₁ = .ok (ts, s₂) → (∀ t ∈ ts, t.node = noNode) →
      (s₂.env.live = true → ∀ t ∈ ts, t.type ≠ .unreachable) → Agrees o' s₂ σ₂ →
      Option.Rel (Matches o) (if fitAll (p.wants ctx) ts then
        (reduce ctx (p.add ts) s₂).toOption.map fun r => (r.1.tree, r.2) else none) (f (ts, σ₂))) :
    Option.Rel (Matches o) (eval ctx (.node x cs) s).toOption ((inferAll ctx.body cs σ₁).bind f) := by
  rw [eval_patient he hr hl]
  refine rel_bind (evalAll_agrees hv hcs hi ha hs) fun ⟨ts, s₂⟩ ⟨ts', σ₂⟩ hts hm => ?_
  obtain rfl : ts = ts' := hm.trees
  have hts := toOption_eq_some.mp hts
  have htypes := ((decodes_of_evalAll hcs hts).settled hv hs).2
  exact hf ts s₂ σ₂ hts hm.nodes htypes hm.state

variable (ha : Agrees o s σ)
include ha

theorem operands_agree {rule : Rule} {after : State → State} {after' : Scope → Scope}
    (he : enter ctx s x = .ok (.wait (x.await rule τ params.length) s)) (hr : rule.patient = true)
    (hw : (x.await rule τ params.length).wants ctx = params.map some)
    (hparams : ∀ τ ∈ params, τ.isValue = true) (hl : cs.length = params.length)
    (hafter : ∀ s σ, Agrees o s σ → Agrees o (after s) (after' σ))
    (hreduce : ∀ s ts, ts.length = params.length → (∀ t ∈ ts, t.node = noNode) → s.graph = none →
      fitAll (params.map some) ts = true →
      reduce ctx ((x.await rule τ params.length).add ts) s =
        .ok ((x.await rule τ params.length).add ts, after s)) :
    Option.Rel (Matches o) (eval ctx (.node x cs) s).toOption ((inferAll ctx.body cs σ).bind fun r =>
      if acceptAll params r.1 then some (x.tree τ r.1, after' r.2) else none) := by
  refine patient_agrees hv hcs hi hs he hr hl ha fun ts s₂ σ₂ hts hn _ h₂ => ?_
  have hlen : ts.length = params.length := (evalAll_length hts).trans hl
  have hvoid : ∀ τ ∈ params, τ ≠ .void := by
    rintro τ hτ rfl
    cases hparams _ hτ
  rw [hw, ← fitAll_eq_acceptAll hlen hvoid]
  split
  · rename_i hfit
    rw [hreduce s₂ ts hlen hn h₂.graph hfit]
    exact .some ⟨rfl, rfl, hafter _ _ h₂⟩
  · exact .none

theorem block_agrees (hn : n ≠ 0) (hp : p = x.await (if isLoop then .loop else .block) .unreachable n)
    (he : enter ctx s x = .ok (.wait p (openBlock ctx s x.offset isLoop))) (hl : cs.length = n) :
    Option.Rel (Matches o) (eval ctx (.node x cs) s).toOption
      ((inferAll ctx.body cs (σ.enterBlock isLoop)).bind fun r => r.1.getLast?.bind fun last =>
        (r.2.closeBlock isLoop last.type).bind fun r' => some (x.tree r'.1 r.1, r'.2)) := by
  have hr : p.rule.patient = true := by
    rw [hp]
    cases isLoop <;> rfl
  have hla : cs.length = p.arity := by rw [hl, hp]; rfl
  have hs₁ := openBlock_settled ctx x.offset isLoop hs
  refine patient_agrees hv hcs hi hs₁ he hr hla (openBlock_agrees ha _ _) fun ts s₂ σ₂ hts hnode ht h₂ => ?_
  have hlen := evalAll_length hts
  have hne : ts ≠ [] := by
    rintro rfl
    exact hn (hl.symm.trans hlen.symm)
  have hfit : fitAll (p.wants ctx) ts = true := by
    rw [hp]
    cases isLoop <;> exact fitAll_replicate_none n ts
  have hc : (p.add ts).complete = true := by simp [Pending.complete, Pending.add, hlen, hla]
  have hrule : (p.add ts).rule = if isLoop then .loop else .block := by rw [hp]; rfl
  have hlast : ts.getLast? = some (ts.getLast hne) := getLast?_eq_some_getLast hne
  have hdone : (p.add ts).done.getLast? = some (ts.getLast hne) := by rw [hp]; exact hlast
  have hmem := getLast_mem hne
  obtain ⟨j, rest, τs, goals, hb, hgoals, hj, hrest, hheaders⟩ := h₂.exit
  have hsub : ∀ t ∈ Target.exit j :: rest, t ∈ s₂.blocks := by
    rw [← hb]
    cases isLoop with
    | false => exact fun t ht => ht
    | true => exact fun t ht => mem_of_mem_drop ht
  have hgoing (h : s₂.env.live = true) : j.env.reach ≠ .ended :=
    h₂.going (h₂.opened h) (.exit j) (hsub _ (by simp))
  obtain ⟨env, hlive, hclose⟩ := closeBlock_agrees ctx
    (s := { s₂ with blocks := if isLoop then s₂.blocks.drop 1 else s₂.blocks }) hb hdone h₂.graph hgoing
    (fun h => ht h _ hmem) (hnode _ hmem) hj
  have hscope : σ₂.closeBlock isLoop (ts.getLast hne).type =
      some (commonType (if s₂.env.live then (ts.getLast hne).type :: τs else τs),
        ⟨!(if s₂.env.live then (ts.getLast hne).type :: τs else τs).isEmpty, goals⟩) := by
    simp only [Scope.closeBlock, hgoals, ← h₂.live]
  rw [if_pos hfit, reduce_block hrule hc, hclose, hlast, Option.bind_some, hscope]
  subst hp
  by_cases hopen : s.env.live = true
  · exact .some ⟨rfl, rfl, ⟨h₂.graph, hlive, hrest, hheaders, fun _ => ha.opened hopen,
      fun _ t ht => h₂.going hopen t (hsub t (by simp [ht]))⟩⟩
  · -- nothing was brought to the end of a block that control does not get to
    have hopen : s.env.live = false := by simpa using hopen
    rw [openBlock_of_dead _ _ hopen] at hts
    have hq := (decodes_of_evalAll hcs hts).quiet rfl
    have hblocks : Target.exit j :: rest = .exit { env := s.env } :: s.blocks := by
      rw [← hb, hq.blocks]
      cases isLoop <;> rfl
    cases hblocks
    have hdead : env.live = false := by
      rw [hlive, hq.live, if_neg Bool.false_ne_true, ← hj.1]
      exact hopen
    refine .some ⟨rfl, rfl, ⟨h₂.graph, hlive, hrest, hheaders, fun h => ?_, ha.going⟩⟩
    rw [hdead] at h
    cases h

theorem br_agrees (hd : depth < s.blocks.length) (hl : cs.length = 1)
    (he : enter ctx s x = .ok (.wait (x.await (.br depth) .unreachable 1) s)) :
    Option.Rel (Matches o) (eval ctx (.node x cs) s).toOption ((inferAll ctx.body cs σ).bind fun
      | ([v], σ) => some (x.tree .unreachable [v], (σ.bring v.type depth).stop)
      | _ => none) := by
  refine patient_agrees hv hcs hi hs he rfl hl ha fun ts s₂ σ₂ hts hnode ht h₂ => ?_
  obtain ⟨v, rfl⟩ := length_eq_one_iff.mp ((evalAll_length hts).trans hl)
  have hd₂ : depth < s₂.blocks.length := by rwa [h₂.length, ← ha.length]
  obtain ⟨s₃, hbreak, h₃⟩ := breakTo_agrees ctx ((x.await (.br depth) .unreachable 1).add [v]) h₂ hd₂
    (fun h => ht h v (by simp)) (hnode v (by simp))
  have hred : reduce ctx ((x.await (.br depth) .unreachable 1).add [v]) s₂ =
      .ok ((x.await (.br depth) .unreachable 1).add [v], s₃) := by
    change (breakTo ctx _ s₂ depth v >>= fun s => .ok (_, s)) = _
    rw [hbreak, ok_bind]
  have hfit : fitAll ((x.await (.br depth) .unreachable 1).wants ctx) [v] = true := rfl
  rw [if_pos hfit, hred]
  exact .some ⟨rfl, rfl, h₃⟩

theorem brIf_agrees (hd : depth < s.blocks.length) (hl : cs.length = 2)
    (he : enter ctx s x = .ok (.wait (x.await (.brIf depth) .void 2) s)) :
    Option.Rel (Matches o) (eval ctx (.node x cs) s).toOption ((inferAll ctx.body cs σ).bind fun
      | ([v, c], σ) =>
        if accepts .i32 c.type then some (x.tree .void [v, c], σ.bring v.type depth) else none
      | _ => none) := by
  refine patient_agrees hv hcs hi hs he rfl hl ha fun ts s₂ σ₂ hts hnode ht h₂ => ?_
  obtain ⟨v, c, rfl⟩ := length_eq_two.mp ((evalAll_length hts).trans hl)
  have hfit : fitAll ((x.await (.brIf depth) .void 2).wants ctx) [v, c] = accepts .i32 c.type := by
    rw [← typeMatches_eq_accepts (by decide)]
    exact Bool.and_true _
  dsimp only
  rw [hfit]
  split
  · rename_i hc
    have hd₂ : depth < s₂.blocks.length := by rwa [h₂.length, ← ha.length]
    obtain ⟨s₃, hbreak, h₃⟩ := breakTo_agrees ctx ((x.await (.brIf depth) .void 2).add [v, c]) h₂.split hd₂
      (fun h => ht (by simpa using h) v (by simp)) (hnode v (by simp))
    have hred : reduce ctx ((x.await (.brIf depth) .void 2).add [v, c]) s₂ =
        .ok ((x.await (.brIf depth) .void 2).add [v, c], { s₃ with env := s₂.env }) := by
      have hcheck : checkLast ((x.await (.brIf depth) .void 2).add [v, c]) .i32 = .ok c :=
        checkLast_eq_ok.mpr ⟨rfl, by rwa [typeMatches_eq_accepts (by decide)]⟩
      have hchild : child ((x.await (.brIf depth) .void 2).add [v, c]) 0 = .ok v := rfl
      change reduceBrIf ctx _ s₂ depth = _
      simp only [reduceBrIf, hcheck, hchild, ok_bind, branchOn_of_none h₂.graph, hbreak]
      rfl
    rw [hred]
    refine .some ⟨rfl, rfl, ?_⟩
    have h := h₃.setEnv s₂.env h₂.opened
    have heq : { (σ₂.bring v.type depth).stop with reachable := s₂.env.live } = σ₂.bring v.type depth := by
      rw [h₂.live, ← Scope.bring_reachable v.type depth]
      rfl
    rwa [heq] at h
  · exact .none

theorem brTable_agrees {depths : List Nat} (hd : ∀ depth ∈ depths, depth < s.blocks.length)
    (hl : cs.length = 2) (he : enter ctx s x = .ok (.wait (x.await (.brTable depths) .unreachable 2) s)) :
    Option.Rel (Matches o) (eval ctx (.node x cs) s).toOption ((inferAll ctx.body cs σ).bind fun
      | ([v, k], σ) =>
        if accepts .i32 k.type then
          some (x.tree .unreachable [v, k], (depths.foldl (·.bring v.type ·) σ).stop)
        else none
      | _ => none) := by
  refine patient_agrees hv hcs hi hs he rfl hl ha fun ts s₂ σ₂ hts hnode ht h₂ => ?_
  obtain ⟨v, k, rfl⟩ := length_eq_two.mp ((evalAll_length hts).trans hl)
  have hfit : fitAll ((x.await (.brTable depths) .unreachable 2).wants ctx) [v, k] = accepts .i32 k.type := by
    rw [← typeMatches_eq_accepts (by decide)]
    exact Bool.and_true _
  dsimp only
  rw [hfit]
  split
  · rename_i hc
    have hd₂ : ∀ c ∈ depths.zipIdx, c.1 < s₂.blocks.length := by
      intro c hc
      rw [h₂.length, ← ha.length]
      exact hd c.1 (mem_of_getElem? (mem_zipIdx_iff_getElem?.mp hc))
    obtain ⟨s₃, hbranch, h₃⟩ := branchAll_agrees ctx ((x.await (.brTable depths) .unreachable 2).add [v, k])
      (depths.length - 1) h₂.split hd₂ (fun h => ht (by simpa using h) v (by simp)) (hnode v (by simp))
    have hred : reduce ctx ((x.await (.brTable depths) .unreachable 2).add [v, k]) s₂ =
        .ok ((x.await (.brTable depths) .unreachable 2).add [v, k], s₃.finishPath) := by
      have hcheck : checkLast ((x.await (.brTable depths) .unreachable 2).add [v, k]) .i32 = .ok k :=
        checkLast_eq_ok.mpr ⟨rfl, by rwa [typeMatches_eq_accepts (by decide)]⟩
      have hchild : child ((x.await (.brTable depths) .unreachable 2).add [v, k]) 0 = .ok v := rfl
      change reduceBrTable ctx _ s₂ depths = _
      simp only [reduceBrTable, hcheck, hchild, ok_bind, State.emit_of_none h₂.graph, ite_self, hbranch]
      rfl
    rw [hred]
    refine .some ⟨rfl, rfl, ?_⟩
    have hfold : depths.zipIdx.foldl (fun σ c => σ.bring v.type c.1) σ₂ =
        depths.foldl (·.bring v.type ·) σ₂ := by
      conv_rhs => rw [← zipIdx_map_fst 0 depths, foldl_map]
    rw [hfold] at h₃
    exact h₃.stop
  · exact .none

end Operands

omit hv in
theorem Agrees.choose (ha : Agrees o s σ) (c : Tree) : Agrees o (s.choose c) σ := by
  rw [State.choose_of_none ha.graph]
  have h := ha.split
  exact ⟨h.graph, h.live, h.goals, h.headers, h.opened, h.going⟩

omit hv in
theorem live_of_arm {c : Tree} (hse : Shaped ctx.body e)
    (h : eval ctx e (s.choose c) = .ok (t, s')) (hs : s'.env.live = true) : s.env.live = true := by
  have hl := (decodes_of_eval hse h).live hs
  simpa [State.choose] using hl

theorem ifThen_agrees (hc : Shaped ctx.body c) (hsa : Shaped ctx.body a)
    (hic : Agreeing ctx c) (hia : Agreeing ctx a)
    (he : enter ctx s x = .ok (.wait (x.await .ifThen .void 2) s)) (ha : Agrees o s σ) (hs : s.Settled) :
    Option.Rel (Matches o) (eval ctx (.node x [c, a]) s).toOption (inferIf ctx.body x [c, a] σ) := by
  rw [eval_wait he (Nat.succ_ne_zero 1), feed_choice (.inl rfl) rfl, Option.map_bind]
  simp only [inferIf, Option.bind_eq_bind]
  refine rel_bind (hic o s σ ha hs) ?_
  rintro ⟨tc, s₁⟩ ⟨tc', σ₁⟩ hec hmc
  obtain rfl : tc = tc' := hmc.tree
  have h₁ : Agrees o s₁ σ₁ := hmc.state
  have hs₁ := (settled_of_eval hv hc hec hs).1.choose tc
  dsimp only [Function.comp]
  rw [← typeMatches_eq_accepts (by decide)]
  split
  · rw [Option.map_bind]
    refine rel_bind (hia o _ σ₁ (h₁.choose tc) hs₁) ?_
    rintro ⟨ta, s₂⟩ ⟨ta', σ₂⟩ hea hma
    obtain rfl : ta = ta' := hma.tree
    have hea := toOption_eq_some.mp hea
    have h₂ : Agrees o s₂ σ₂ := hma.state
    have hch : s₂.choices = ⟨s₁.env, { env := .unreached }⟩ :: s₁.choices := by
      rw [eval_choices hsa hea, State.choose_of_none h₁.graph]
    have hreach (h : s₂.env.live = true) : s₁.env.reach ≠ .ended := by
      intro hr
      have hl := live_of_arm hsa hea h
      simp [Env.live, hr] at hl
    obtain ⟨env, hleave, hlive, -⟩ := leave_none ctx ((x.await .ifThen .void 2).add [tc, ta]) h₂.graph hreach
    have hlive : env.live = σ₁.reachable := by
      rw [hlive, ← h₁.live]
      cases h : s₂.env.live with
      | false => exact Bool.false_or _
      | true => exact (live_of_arm hsa hea h).symm
    dsimp only [Function.comp]
    rw [reduce_ifThen rfl rfl hch, hleave, ok_bind]
    refine .some ⟨rfl, rfl, ?_⟩
    exact ⟨h₂.graph, hlive, h₂.goals, h₂.headers, fun h => h₁.opened (h₁.live.trans (hlive.symm.trans h)),
      h₂.going⟩
  · exact .none

theorem ifElse_agrees (hc : Shaped ctx.body c) (hsa : Shaped ctx.body a)
    (hse : Shaped ctx.body e) (hic : Agreeing ctx c) (hia : Agreeing ctx a) (hie : Agreeing ctx e)
    (he : enter ctx s x = .ok (.wait (x.await .ifElse .unreachable 3) s)) (ha : Agrees o s σ) (hs : s.Settled) :
    Option.Rel (Matches o) (eval ctx (.node x [c, a, e]) s).toOption
      (inferIfElse ctx.body x [c, a, e] σ) := by
  rw [eval_wait he (Nat.succ_ne_zero 2), feed_choice (.inr rfl) rfl, Option.map_bind]
  simp only [inferIfElse, Option.bind_eq_bind]
  refine rel_bind (hic o s σ ha hs) ?_
  rintro ⟨tc, s₁⟩ ⟨tc', σ₁⟩ hec hmc
  obtain rfl : tc = tc' := hmc.tree
  have h₁ : Agrees o s₁ σ₁ := hmc.state
  have hs₁ := (settled_of_eval hv hc hec hs).1.choose tc
  dsimp only [Function.comp]
  rw [← typeMatches_eq_accepts (by decide)]
  split
  · rw [Option.map_bind]
    refine rel_bind (hia o _ σ₁ (h₁.choose tc) hs₁) ?_
    rintro ⟨ta, s₂⟩ ⟨ta', σ₂⟩ hea hma
    obtain rfl : ta = ta' := hma.tree
    obtain ⟨hs₂, hta⟩ := settled_of_eval hv hsa hea hs₁
    have hea := toOption_eq_some.mp hea
    have h₂ : Agrees o s₂ σ₂ := hma.state
    have hch : s₂.choices = ⟨s₁.env, { env := .unreached }⟩ :: s₁.choices := by
      rw [eval_choices hsa hea, State.choose_of_none h₁.graph]
    have hz : Target.Agrees (.exit { env := .unreached }) (.exit []) := ⟨rfl, rfl, rfl⟩
    obtain ⟨j, hj, hja, hjr⟩ := bring_agrees ctx ((x.await .ifElse .unreachable 3).add [tc, ta]) h₂.graph
      (fun _ => Reach.noConfusion) hta hma.node hz
    dsimp only [Function.comp]
    rw [reduce_otherwise rfl rfl hch, hj, ok_bind]
    let s₃ : State := ⟨s₁.env, s₂.blocks, ⟨s₁.env, j⟩ :: s₁.choices, s₂.graph⟩
    have h₃ : Agrees o s₃ ⟨σ₁.reachable, σ₂.goals⟩ :=
      ⟨h₂.graph, h₁.live, h₂.goals, h₂.headers, h₁.opened, h₂.going⟩
    change Option.Rel (Matches o)
      ((feed ctx [e] ((x.await .ifElse .unreachable 3).add [tc, ta]) s₃).toOption.map _) _
    rw [feed, toOption_bind, Option.map_bind]
    refine rel_bind (hie o s₃ _ h₃ hs₂) ?_
    rintro ⟨te, s₄⟩ ⟨te', σ₄⟩ hee hme
    obtain rfl : te = te' := hme.tree
    have hte := (settled_of_eval hv hse hee hs₂).2
    have hee := toOption_eq_some.mp hee
    have h₄ : Agrees o s₄ σ₄ := hme.state
    obtain ⟨j', hj', hja', -⟩ := bring_agrees ctx ((x.await .ifElse .unreachable 3).add [tc, ta, te]) h₄.graph
      (fun _ => hjr Reach.noConfusion) hte hme.node hja
    have htypes : (if s₄.env.live then te.type :: (if s₂.env.live then [ta.type] else [])
        else if s₂.env.live then [ta.type] else []) =
        (if σ₄.reachable then [te.type] else []) ++ if σ₂.reachable then [ta.type] else [] := by
      rw [h₄.live, h₂.live]
      split <;> rfl
    rw [htypes] at hja'
    obtain ⟨hlive, htype, hnode⟩ := hja'
    change Option.Rel (Matches o)
      ((reduce ctx ((x.await .ifElse .unreachable 3).add [tc, ta, te]) s₄ >>= .ok).toOption.map _) _
    rw [reduce_ifElse rfl rfl (eval_choices hse hee), hj', ok_bind]
    refine .some ⟨?_, hnode, ⟨h₄.graph, hlive, h₄.goals, h₄.headers, fun h => ?_, h₄.going⟩⟩
    · dsimp only [Pending.tree, Instruction.tree]
      rw [htype, hnode]
      rfl
    · -- control got to the end of one of the arms
      by_cases hl₄ : s₄.env.live = true
      · exact h₄.opened hl₄
      · refine h₂.opened ?_
        by_contra hl₂
        rw [hlive, ← h₄.live, ← h₂.live] at h
        simp [hl₄, hl₂] at h
  · exact .none

omit hv in
theorem selectedType_eq (a b : ValType) : selectedType a b =
      if (if a = .unreachable then b else a) ≠ .void ∧
        accepts (if a = .unreachable then b else a) b = true then
        some (if a = .unreachable then b else a)
      else none := by
  unfold selectedType
  by_cases hv : a = .void
  · simp [hv]
  · by_cases hu : a = .unreachable
    · by_cases hb : b = .void <;> simp [hu, hb, accepts]
    · simp [hv, hu, typeMatches_eq_accepts hv]

theorem select_agrees {b : Expr} (hsa : Shaped ctx.body a) (hsb : Shaped ctx.body b)
    (hia : Agreeing ctx a) (hib : Agreeing ctx b) (hic : Agreeing ctx c)
    (he : enter ctx s x = .ok (.wait (x.await .select .unreachable 3) s)) (ha : Agrees o s σ) (hs : s.Settled) :
    Option.Rel (Matches o) (eval ctx (.node x [a, b, c]) s).toOption
      ((inferAll ctx.body [a, b, c] σ).bind fun
        | ([u, v, c], σ) =>
          let t := if u.type = .unreachable then v.type else u.type
          if t ≠ .void ∧ accepts t v.type ∧ accepts .i32 c.type then some (x.tree t [u, v, c], σ) else none
        | _ => none) := by
  rw [eval_wait he (Nat.succ_ne_zero 2), feed_select rfl rfl]
  simp only [inferAll, Option.bind_eq_bind, Option.map_bind, Option.bind_assoc]
  refine rel_bind (hia o s σ ha hs) ?_
  rintro ⟨ta, s₁⟩ ⟨ta', σ₁⟩ hea hma
  obtain rfl : ta = ta' := hma.tree
  have hs₁ := (settled_of_eval hv hsa hea hs).1
  dsimp only [Function.comp]
  rw [Option.map_bind]
  refine rel_bind (hib o s₁ σ₁ hma.state hs₁) ?_
  rintro ⟨tb, s₂⟩ ⟨tb', σ₂⟩ heb hmb
  obtain rfl : tb = tb' := hmb.tree
  have hs₂ := (settled_of_eval hv hsb heb hs₁).1
  dsimp only [Function.comp]
  rw [Option.map_bind]
  refine rel_bind (hic o s₂ σ₂ hmb.state hs₂) ?_
  rintro ⟨tc, s₃⟩ ⟨tc', σ₃⟩ _ hmc
  obtain rfl : tc = tc' := hmc.tree
  have h₃ : Agrees o s₃ σ₃ := hmc.state
  dsimp only [Function.comp, Option.bind_some]
  rw [selectedType_eq, typeMatches_eq_accepts (by decide)]
  generalize (if ta.type = .unreachable then tb.type else ta.type) = τ
  by_cases hτ : τ ≠ .void ∧ accepts τ tb.type = true
  · rw [if_pos hτ, Option.bind_some]
    by_cases hc : accepts .i32 tc.type = true
    · have hall : τ ≠ .void ∧ accepts τ tb.type = true ∧ accepts .i32 tc.type = true := ⟨hτ.1, hτ.2, hc⟩
      simp only [if_pos hc, if_pos hall, selected, State.emitOn_of_none h₃.graph]
      exact .some ⟨rfl, rfl, h₃⟩
    · have hno : ¬(τ ≠ .void ∧ accepts τ tb.type = true ∧ accepts .i32 tc.type = true) := fun h => hc h.2.2
      simp only [if_neg hc, if_neg hno]
      exact .none
  · have hno : ¬(τ ≠ .void ∧ accepts τ tb.type = true ∧ accepts .i32 tc.type = true) :=
      fun h => hτ ⟨h.1, h.2.1⟩
    simp only [if_neg hτ, if_neg hno]
    exact .none

omit hv in
theorem reduce_ret (hr : p.rule = .ret) (hp : p.Regular ctx) (ha : p.done.length = p.arity)
    (hd : p.done ≠ []) (hl : p.LastFits ctx) (hg : s.graph = none) :
    reduce ctx p s = .ok (p, s.finishPath) := by
  have hc : p.complete = true := by simp [Pending.complete, ha]
  obtain ⟨τ, t, he, ht⟩ := checkLast_of_lastFits (by rw [Pending.wants, hr]) hp (Nat.le_of_eq ha) hd hl
  unfold reduce
  simp only [hr, reduceReturn, he, ht, hc, ok_bind, State.emitOn_of_none hg]
  rfl

theorem eval_agrees (htypes : ctx.types = ctx.body.localTypes) (he : Shaped ctx.body e) :
    Agreeing ctx e := by
  induction e using Expr.induction with
  | h x cs ih =>
    intro o s σ ha hs
    obtain ⟨hx, hcs⟩ := he
    have hi : ∀ e ∈ cs, Agreeing ctx e := fun e hm => ih e hm (shapedAll_iff.mp hcs e hm)
    have hplays := plays hv htypes ha.graph x
    rw [ha.goals.length_eq] at hplays
    rw [infer]
    generalize hrole : role? ctx.body σ.goals.length x = role at hplays ⊢
    generalize hentry : (enter ctx s x).toOption = entry at hplays
    cases hplays with
    | none =>
      simp only [eval, toOption_bind, hentry]
      exact .none
    | some hplays =>
      have hentry := toOption_eq_some.mp hentry
      have hl := arity_of_enter hentry
      rw [hx, Option.some.injEq] at hl
      cases hplays with
      | leaf =>
        obtain rfl := length_eq_zero_iff.mp hl
        simp only [eval, hentry]
        exact .some ⟨rfl, rfl, ha⟩
      | halt =>
        obtain rfl := length_eq_zero_iff.mp hl
        simp only [eval, hentry]
        exact .some ⟨rfl, rfl, ha.stop⟩
      | @value rule params τ hr hw hparams hd =>
        refine operands_agree hv hcs hi hs ha hentry (Rule.patient_of_plain hr) hw hparams hl
          (fun _ _ h => h) fun s ts hlen hn hg hfit => ?_
        rw [← hw] at hfit
        have hp : ((x.await rule τ params.length).add ts).Regular ctx := by
          rw [Pending.Regular, Pending.add_wants, hw, length_map]
          rfl
        exact reduce_plain hr hp hlen (lastFits_of_fitAll hfit)
          (fun h0 => hd (length_eq_zero_iff.mp (hlen ▸ length_eq_zero_iff.mpr h0))) hn rfl hg
      | ret hr =>
        have hvalues : ∀ τ ∈ ctx.body.signature.results, τ.isValue = true := by
          have h := hv.body.signature
          simp only [FuncType.isValue, Bool.and_eq_true, all_eq_true] at h
          exact h.2
        refine operands_agree hv hcs hi hs ha hentry rfl rfl hvalues hl (fun _ _ h => h.stop)
          fun s ts hlen hn hg hfit => ?_
        have hd : ts ≠ [] := by
          rintro rfl
          exact hr (length_eq_zero_iff.mp hlen.symm)
        exact reduce_ret rfl (length_map _) hlen hd (lastFits_of_fitAll hfit) hg
      | block hn => exact block_agrees hv hcs hi hs ha hn rfl hentry hl
      | ifThen =>
        obtain ⟨c, a, rfl⟩ := length_eq_two.mp hl
        exact ifThen_agrees hv hcs.1 hcs.2.1 (hi c (by simp)) (hi a (by simp)) hentry ha hs
      | ifElse =>
        obtain ⟨c, a, e, rfl⟩ := length_eq_three.mp hl
        exact ifElse_agrees hv hcs.1 hcs.2.1 hcs.2.2.1 (hi c (by simp)) (hi a (by simp)) (hi e (by simp))
          hentry ha hs
      | select =>
        obtain ⟨a, b, c, rfl⟩ := length_eq_three.mp hl
        exact select_agrees hv hcs.1 hcs.2.1 (hi a (by simp)) (hi b (by simp)) (hi c (by simp)) hentry ha hs
      | br hd => exact br_agrees hv hcs hi hs ha hd hl hentry
      | brIf hd => exact brIf_agrees hv hcs hi hs ha hd hl hentry
      | brTable hd => exact brTable_agrees hv hcs hi hs ha hd hl hentry

end Expressions

section Bodies

theorem finish_agrees {k : Nat} (hs : s.env.live = σ.reachable) :
    (finish ctx ⟨[], ts, s, n, k⟩).toOption.map Decoder.trees =
      if returns ctx.body ts σ then some ts else none := by
  unfold finish returns
  rw [← hs]
  cases hl : s.env.live with
  | false => simp [hl, Except.toOption]
  | true =>
    by_cases hv : ctx.body.returnType = .void
    · simp [hl, hv, Except.toOption]
    · cases hlast : ts.getLast? with
      | none => simp [hl, hv, Except.toOption]
      | some t =>
        by_cases ha : accepts ctx.body.returnType t.type = true
        · simp [hl, hv, typeMatches_eq_accepts hv, ha, Except.toOption]
        · simp [hl, hv, typeMatches_eq_accepts hv, ha, Except.toOption]

theorem run_agrees (hv : ctx.OnlyValues) (ht : ctx.types = ctx.body.localTypes) (i : Input) :
    (run ctx { state := { env := { reach := .once } } } i >>= finish ctx).toOption.map Decoder.trees =
      if childrenFit i then (instructions i).bind fun xs => (forest ctx.body xs).bind fun es =>
        (inferAll ctx.body es {}).bind fun r => if returns ctx.body r.1 r.2 then some r.1 else none
      else none := by
  by_cases hparse : childrenFit i = true ∧ ∃ xs es, instructions i = some xs ∧ forest ctx.body xs = some es
  · obtain ⟨hfit, xs, es, hi, hf⟩ := hparse
    have hs : ShapedAll ctx.body es := (codeAll_of_forest hf).2
    have ha : Agrees ⟨true, []⟩ { env := { reach := .once } } {} :=
      ⟨rfl, rfl, .nil, rfl, fun _ => rfl, fun _ => forall_mem_nil _⟩
    have hall := evalAll_agrees hv hs (fun e hm => eval_agrees hv ht (shapedAll_iff.mp hs e hm)) ha
      fun j hj => by cases hj
    rw [run_of_forest _ hi hf hfit, bind_assoc, toOption_bind, Option.map_bind, if_pos hfit, hi, Option.bind_some,
      hf, Option.bind_some]
    generalize (evalAll ctx es _).toOption = decoded at hall ⊢
    generalize inferAll ctx.body es {} = inferred at hall ⊢
    cases hall with
    | none => rfl
    | @some a c hm =>
      rw [Option.bind_some, Option.bind_some, ← hm.trees]
      exact finish_agrees hm.state.live
  · have hrun : (run ctx { state := { env := { reach := .once } } } i >>= finish ctx).toOption = none := by
      refine Option.eq_none_iff_forall_not_mem.mpr fun d h => hparse ?_
      obtain ⟨d', hr, hd⟩ := bind_eq_ok.mp (toOption_eq_some.mp h)
      exact forest_of_run hr (finishes_of_finish hd).1
    rw [hrun]
    by_cases hfit : childrenFit i = true
    · rw [if_pos hfit]
      cases hi : instructions i with
      | none => rfl
      | some xs =>
        cases hf : forest ctx.body xs with
        | none => simp [hf]
        | some es => exact absurd ⟨hfit, xs, es, hi, hf⟩ hparse
    · rw [if_neg hfit]
      rfl

/-- A loop that goes on while its parameter is not zero. -/
def waiting : FunctionBody where
  signature := ⟨[.i32], [.i32]⟩
  code := [0x02, 0x02, 0x03, 0x0e, 0x00, 0x06, 0x00, 0x00, 0x06, 0x01, 0x0e, 0x00]

/-- A block with one child, and after it so many instructions that do nothing. The first of them is the child. -/
def padded (n : Nat) : FunctionBody where
  signature := ⟨[], []⟩
  code := 0x01 :: 0x01 :: replicate n 0x00

end Bodies

end ProtoWasm.Body
