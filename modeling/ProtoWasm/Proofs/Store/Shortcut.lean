import ProtoWasm.Proofs.Store.Mirroring
import ProtoWasm.Proofs.Store.Nesting
import ProtoWasm.Proofs.Store.Wired

/-! # Calls with and without shortcuts

A call in a store and the call in its mirror are followed side by side. Where the store enters the code of another
instance, its mirror goes by way of that instance. Both come to the same, unless a call is too deep only because of the
shortcuts before it.
-/
namespace ProtoWasm

namespace CodeTable

variable {t : CodeTable} {k : Nat}

theorem exists_entry? {c : Code} (h : t.entries[k]? = some c) : ∃ c', t.entry? k = some c' := by
  unfold entry?
  cases t.wrapper? k with
  | none => exact ⟨c, h⟩
  | some w => exact ⟨w, rfl⟩

theorem Joined.entry?_eq_none (h : t.Joined) (hk : t.entries[k]? = none) : t.entry? k = none := by
  unfold entry?
  cases hw : t.wrapper? k with
  | none => exact hk
  | some w =>
    obtain ⟨p, r, -, -, hr⟩ := h k w hw
    cases hk.symm.trans hr

theorem Joined.plain (h : t.Joined) : t.plain.Joined := by
  intro k w hw
  rw [wrapper?_plain] at hw
  obtain ⟨w', hw', rfl⟩ := Option.map_eq_some_iff.mp hw
  obtain ⟨p, r, rfl, hreloc, hr⟩ := h k w' hw'
  refine ⟨p, r.plain, rfl, ?_, ?_⟩
  · rw [relocs_plain, hreloc]
    rfl
  · rw [entries_plain, hr]
    rfl

end CodeTable

namespace Store

open StoreM

variable {s t : Store} {fr : Frame} {o : Outcome} {x : Instance} {code : LinkedCode}
  {r : Except Defect (Outcome × Store)}

theorem Connects.usable_entry? {c : Code} {table : CodeTable} {k : Nat} (h : s.Connects table)
    (hc : table.entry? k = some c) : s.Usable c := by
  rcases Option.or_eq_some_iff.mp hc with hw | ⟨-, he⟩
  · obtain ⟨p, r, rfl, -⟩ := h.joined k c hw
    exact usable_of_kind CodeKind.noConfusion
  · exact h.entries c (List.mem_of_getElem? he)

theorem Wired.usable {c : Code} (h : s.Wired) (hc : s.Offers c) : s.Usable c := by
  obtain ⟨i, x, code, hx, hcode, hc⟩ := hc
  have hconnects := h.code i x code hx hcode
  rcases hc with hc | ⟨k, hc⟩ | ⟨r, hr, rfl⟩
  · exact hconnects.entries c hc
  · exact hconnects.usable_entry? hc
  · exact hconnects.places r hr

namespace Config

variable {canceled : Bool} {c c' d : Config} {K K' : List Waiting} {o' : Outcome}

def Wired (c : Config) : Prop :=
  c.store.Wired ∧ match c.control with
    | .enter e => c.store.Usable e.code
    | _ => True

theorem wired_take {t : Turn} {depth : Nat} (hs : s.Wired) (ht : t.Leads depth s) : (t.config K s).Wired := by
  cases t with
  | pass e => exact ⟨hs, hs.usable ht.2⟩
  | call plan =>
    cases plan with
    | give o => exact ⟨hs, trivial⟩
    | enter e post => exact ⟨hs, hs.usable ht.2⟩
  | run fr p => exact ⟨hs, trivial⟩
  | host fr p => exact ⟨hs, trivial⟩

theorem Step.wired (h : c.Step canceled d) (hc : c.Wired) : d.Wired := by
  cases h with
  | turn hd hn h =>
    obtain ⟨hs, ht⟩ := (does_turn _ _).of_eq h
    exact wired_take (hs.stays.wired hc.1) ht
  | @ask fr r next K s plan s' h =>
    obtain ⟨hs, hplan⟩ := (plans_answer fr r s).of_eq h
    have hs := hs.stays.wired hc.1
    cases plan with
    | give a => exact ⟨hs, trivial⟩
    | enter e post => exact ⟨hs, hs.usable hplan.2⟩
  | overflow | cancel | stuck | done | defect | resume | leave | leaveHost => exact ⟨hc.1, trivial⟩

/-- A depth in the store and in its mirror. They are the same as long as the first counts the functions of its chain and
no shortcuts. -/
def Levels (n n' : Nat) (K : List Waiting) : Prop := n' ≤ n ∧ (n ≤ (latest (Store.chains K)).length → n' = n)

/-- What waits in the store waits in the mirror, where calls by way of an instance wait as well that are shortcuts in
the store. -/
inductive StacksAlike : List Waiting → List Waiting → Prop
  | nil : StacksAlike [] []
  | caller {fr : Frame} {n' : Nat} {next next' : Outcome → Process Outcome} {K K' : List Waiting}
      (hn : Levels fr.depth n' K)
      (h : ∀ o o', SameResult Eq o o' → (next o).Alike (SameResult Eq) (next' o')) (hK : StacksAlike K K') :
      StacksAlike (.caller fr next :: K) (.caller (fr.at n') next' :: K')
  | via (i : InstanceId) {post post' : Outcome → Outcome} {K K' : List Waiting}
      (h : ∀ o o', SameResult Eq o o' → SameResult Eq (post o) (post' o')) (hK : StacksAlike K K') :
      StacksAlike (.via i post :: K) (.via i post' :: K')
  | shortcut (i : InstanceId) {post' : Outcome → Outcome} {K K' : List Waiting}
      (h : ∀ o o', SameResult Eq o o' → SameResult Eq o (post' o')) (hK : StacksAlike K K') :
      StacksAlike K (.via i post' :: K')
  | host {K K' : List Waiting} (hK : StacksAlike K K') : StacksAlike (.host :: K) (.host :: K')

/-- The machines do the same in a store and in its mirror. -/
inductive Alike : Config → Config → Prop
  | enter {e : Entry} {n' : Nat} {K K' : List Waiting} {s t : Store} (hn : Levels e.depth n' K) (hK : StacksAlike K K')
      (hs : s.Mirror t) : Alike ⟨.enter e, K, s⟩ ⟨.enter ⟨e.owner, e.code.plain, e.params, n'⟩, K', t⟩
  | run {fr : Frame} {n' : Nat} {p p' : Process Outcome} {K K' : List Waiting} {s t : Store}
      (hn : Levels fr.depth n' K) (hp : p.Alike (SameResult Eq) p') (hK : StacksAlike K K') (hs : s.Mirror t) :
      Alike ⟨.run fr p, K, s⟩ ⟨.run (fr.at n') p', K', t⟩
  | give {o o' : Outcome} {K K' : List Waiting} {s t : Store} (ho : SameResult Eq o o') (hK : StacksAlike K K')
      (hs : s.Mirror t) : Alike ⟨.give o, K, s⟩ ⟨.give o', K', t⟩
  | fail (x : Defect) (K K' : List Waiting) (s t : Store) : Alike ⟨.fail x, K, s⟩ ⟨.fail x, K', t⟩

theorem levels_zero (K : List Waiting) : Levels 0 0 K := ⟨Nat.le_refl 0, fun _ => rfl⟩

theorem Levels.succ {n n' : Nat} {next : Outcome → Process Outcome} (h : Levels n n' K) :
    Levels (n + 1) (n' + 1) (.caller fr next :: K) := by
  refine ⟨Nat.succ_le_succ h.1, fun hle => congrArg (· + 1) (h.2 ?_)⟩
  have hlength := length_latest_chained fr (Store.chains K)
  exact Nat.le_of_succ_le_succ (Nat.le_trans hle hlength)

theorem alike_take {T T' : Turn} {n n' : Nat} (h : T.Alike n n' T') (hn : Levels n n' K) (hK : StacksAlike K K')
    (hs : s.Mirror t) : (T.config K s).Alike (T'.config K' t) := by
  cases h with
  | pass i code params => exact .enter hn hK hs
  | call h =>
    cases h with
    | give ho => exact .give ho hK hs
    | enter hdepth hpost =>
      refine .enter ?_ (.via _ hpost hK) hs
      obtain ⟨rfl, rfl⟩ | ⟨rfl, rfl⟩ := hdepth
      · exact levels_zero _
      · exact ⟨Nat.succ_le_succ hn.1, fun hle => absurd hle (Nat.not_succ_le_zero n)⟩
  | run i body hp => exact .run hn hp hK hs
  | host i body hp => exact .run hn hp (.host hK) hs

theorem alike_answer {α : Type} {R : α → α → Prop} {plan plan' : Plan α} {n' : Nat}
    {next next' : α → Process Outcome} (h : plan.Alike R fr.depth n' plan') (hn : Levels fr.depth n' K)
    (hnext : ∀ a a', R a a' → (next a).Alike (SameResult Eq) (next' a')) (hK : StacksAlike K K') (hs : s.Mirror t) :
    (plan.config fr next K s).Alike (plan'.config (fr.at n') next' K' t) := by
  cases h with
  | give ha => exact .run hn (hnext _ _ ha) hK hs
  | enter hdepth hpost =>
    have hcaller := StacksAlike.caller hn (fun o o' ho => hnext _ _ (hpost o o' ho)) hK
    obtain ⟨rfl, rfl⟩ | ⟨rfl, rfl⟩ := hdepth
    · exact .enter (levels_zero _) (.via _ (fun o o' ho => ho) hcaller) hs
    · exact .enter hn.succ hcaller hs

/-- An outcome is given to what waits. In the mirror it passes the calls that are shortcuts in the store. -/
theorem StacksAlike.give (hK : StacksAlike K K') (ho : SameResult Eq o o') (hs : s.Mirror t)
    (h : Step canceled ⟨.give o, K, s⟩ d) : ∃ d', Reaches canceled ⟨.give o', K', t⟩ d' ∧ d.Alike d' := by
  induction hK generalizing o' with
  | nil => cases h
  | caller hn hnext hK =>
    cases h
    exact ⟨_, .step .resume (.refl _), .run hn (hnext _ _ ho) hK hs⟩
  | via i hpost hK =>
    cases h
    exact ⟨_, .step .leave (.refl _), .give (hpost _ _ ho) hK hs⟩
  | shortcut i hpost _ ih =>
    obtain ⟨d', hd', hd⟩ := ih (hpost _ _ ho) h
    exact ⟨d', .step .leave hd', hd⟩
  | host hK =>
    cases h
    exact ⟨_, .step .leaveHost (.refl _), .give ho.host hK hs⟩

theorem StacksAlike.ends (hK : StacksAlike [] K') (ho : SameResult Eq o o') (canceled : Bool)
    (t : Store) : ∃ o'', Reaches canceled ⟨.give o', K', t⟩ ⟨.give o'', [], t⟩ ∧ SameResult Eq o o'' := by
  generalize hnil : [] = K at hK
  induction hK generalizing o' with
  | nil => exact ⟨o', .refl _, ho⟩
  | shortcut i hpost _ ih =>
    obtain ⟨o'', hreaches, ho''⟩ := ih (hpost _ _ ho) hnil
    exact ⟨o'', .step .leave hreaches, ho''⟩
  | caller | via | host => cases hnil

/-- A call is too deep, and its depth counts more than the functions of its chain: shortcuts count twice. -/
def Strained (c : Config) : Prop :=
  ∃ e, c.control = .enter e ∧ maxCallDepth ≤ e.depth ∧ (latest c.chains).length < e.depth

/-- A function of another instance is given another number of parameters than it takes. -/
def Miscounts (c : Config) : Prop :=
  ∃ e k f g, c.control = .enter e ∧ e.code = .reuse k f ∧ c.store.functions[f]? = some g ∧
    e.params.length ≠ g.type.params.length

section Reuse

variable {i : InstanceId} {k : Nat} {f : FunctionId} {params : List UInt64} {n n' : Nat} {g : FunctionInstance}

/-- An adapter for a function that is not one of the host calls it by way of its instance. -/
theorem turn_importAdapter (hg : t.functions[f]? = some g) (hhost : g.host = none)
    (hcount : params.length = g.type.params.length) :
    turn ⟨i, .importAdapter k f, params, n'⟩ t = (do return Turn.call (← planThrough g.owner g params)) t := by
  refine (bind_of_ok (getFunction_of_some hg)).trans ?_
  have hplan : planFunction f params t = planThrough g.owner g params t := by
    refine (bind_of_ok (getFunction_of_some hg)).trans ?_
    rw [if_neg (not_not_intro hcount)]
  rw [hhost]
  change (planFunction f params >>= _) t = (planThrough g.owner g params >>= _) t
  cases hthrough : planThrough g.owner g params t with
  | error x => rw [bind_of_error hthrough, bind_of_error (hplan.trans hthrough)]
  | ok r =>
    obtain ⟨plan, t'⟩ := r
    rw [bind_of_ok hthrough, bind_of_ok (hplan.trans hthrough)]

theorem planThrough_of_open (hx : t.instances[g.owner]? = some x)
    (hcode : x.code = some code) (hopen : code.closed = false) (hindex : g.index < x.functions.length) :
    planThrough g.owner g params t = (do
      let target ← expect .index (code.table.entry? g.index)
      return Plan.enter ⟨g.owner, target, params, 0⟩ (nameCall code.name (displayName g))) t := by
  refine (bind_of_ok (getCode_of_some hx hcode)).trans ((bind_of_ok (getInstance_of_some hx)).trans ?_)
  have hfits : ¬(g.owner ≠ g.owner ∨ x.functions.length ≤ g.index) :=
    not_or_intro (not_not_intro rfl) (Nat.not_le.mpr hindex)
  rw [hopen, if_neg Bool.false_ne_true, if_neg hfits]

theorem turn_reuse (hg : s.functions[f]? = some g) : turn ⟨i, .reuse k f, params, n⟩ s = (do
      let callee ← getCode g.owner
      if callee.closed then return Turn.call (.give (.error (.because (.moduleClosed callee.name))))
      else return Turn.pass ⟨g.owner, ← expect .index callee.table.entries[g.index]?, params, n + 1⟩) s :=
  bind_of_ok (getFunction_of_some hg)

/-- Code is entered through an entry point or in its place. -/
theorem reaches_entry? {c target : Code} (hx : t.instances[i]? = some x)
    (hcode : x.code = some code) (hjoined : code.table.Joined) (htarget : code.table.entry? k = some target)
    (hc : code.table.entries[k]? = some c) :
    Reaches false ⟨.enter ⟨i, target, params, 0⟩, K, t⟩ ⟨.enter ⟨i, c, params, 0⟩, K, t⟩ := by
  rcases Option.or_eq_some_iff.mp htarget with hw | ⟨-, he⟩
  · obtain ⟨p, r, rfl, hreloc, hr⟩ := hjoined k target hw
    cases hc.symm.trans hr
    have hturn : turn ⟨i, .exportWrapper k p, params, 0⟩ t = .ok (.pass ⟨i, r.ref, params, 0⟩, t) := by
      refine (bind_of_ok (getCode_of_some hx hcode)).trans ?_
      rw [hreloc]
      rfl
    exact .step (.turn (by decide : 0 < maxCallDepth) rfl hturn) (.refl _)
  · cases hc.symm.trans he
    exact .refl _

/-- A shortcut is taken, and in the mirror the function is called by way of its instance. -/
theorem alike_reuse (hw : s.Wired) (hs : s.Mirror t) (hg : s.functions[f]? = some g) (hhost : g.host = none)
    (hcount : params.length = g.type.params.length) (hlt : n < maxCallDepth) (hn : Levels n n' K)
    (hlength : (latest (Store.chains K)).length ≤ n) (hK : StacksAlike K K')
    (h : Step false ⟨.enter ⟨i, .reuse k f, params, n⟩, K, s⟩ d) :
    ∃ d', Reaches false ⟨.enter ⟨i, .importAdapter k f, params, n'⟩, K', t⟩ d' ∧ d.Alike d' := by
  obtain ⟨log, rfl⟩ := hs
  have hlt' : n' < maxCallDepth := Nat.lt_of_le_of_lt hn.1 hlt
  have hreuse : turn ⟨i, .reuse k f, params, n⟩ s = _ := turn_reuse hg
  have hadapter : turn ⟨i, .importAdapter k f, params, n'⟩ (s.plain log) = _ := turn_importAdapter hg hhost hcount
  have hcodes : MirrorsAt False _ (getCode g.owner) (getCode g.owner) s (s.plain log) :=
    mirrors_getCode g.owner s _ ⟨log, rfl⟩
  rcases hcodes with ⟨⟨⟩, -⟩ | ⟨x, ha, hb⟩ | ⟨code, _, s', t', ha, hb, rfl, -⟩
  · -- the instance has no code
    obtain rfl := h.unique (.stuck hlt rfl (hreuse.trans (bind_of_error ha)))
    exact ⟨_, .step (.stuck hlt' rfl (hadapter.trans (bind_of_error (bind_of_error hb)))) (.refl _), .fail ..⟩
  have hfound : Does False (getCode g.owner) s fun c _ => ∃ x, s.instances[g.owner]? = some x ∧ x.code = some c :=
    does_getCode fun x c hx hc => ⟨x, hx, hc⟩
  obtain ⟨x, hx, hcode⟩ := hfound.of_eq ha
  have hx' : (s.plain log).instances[g.owner]? = some x.plain := by
    rw [getElem?_instances_plain, hx]
    rfl
  have hcode' : x.plain.code = some code.plain := congrArg (Option.map LinkedCode.plain) hcode
  rw [bind_of_ok (getCode_of_some hx hcode)] at hreuse
  have hindex := hw.indices f g x hg hx (hcode ▸ rfl)
  have hconnects := hw.code g.owner x code hx hcode
  cases hclosed : code.closed with
  | true =>
    rw [hclosed, if_pos rfl] at hreuse
    have hplan : planThrough g.owner g params (s.plain log) =
        .ok (.give (.error (.because (.moduleClosed code.name))), s.plain log) := by
      refine (bind_of_ok (getCode_of_some hx' hcode')).trans ((bind_of_ok (getInstance_of_some hx')).trans ?_)
      exact congrFun (if_pos hclosed) _
    obtain rfl := h.unique (.turn hlt rfl hreuse)
    exact ⟨_, .step (.turn hlt' rfl (hadapter.trans (bind_of_ok hplan))) (.refl _), .give (.error rfl) hK ⟨log, rfl⟩⟩
  | false =>
    rw [hclosed, if_neg Bool.false_ne_true] at hreuse
    have hplan : planThrough g.owner g params (s.plain log) = _ := planThrough_of_open hx' hcode' hclosed hindex
    cases hentry : code.table.entries[g.index]? with
    | none =>
      rw [hentry] at hreuse
      have hnone : code.plain.table.entry? g.index = none := by
        rw [LinkedCode.plain, CodeTable.entry?_plain, hconnects.joined.entry?_eq_none hentry]
        rfl
      rw [hnone] at hplan
      obtain rfl := h.unique (.stuck hlt rfl hreuse)
      exact ⟨_, .step (.stuck hlt' rfl (hadapter.trans (bind_of_error hplan))) (.refl _), .fail ..⟩
    | some c =>
      rw [hentry] at hreuse
      have hentry' : code.plain.table.entries[g.index]? = some c.plain := by
        rw [LinkedCode.plain, CodeTable.entries_plain, hentry]
        rfl
      obtain ⟨target, htarget⟩ := CodeTable.exists_entry? hentry'
      rw [htarget] at hplan
      have hlevels : Levels (n + 1) 0 K :=
        ⟨Nat.zero_le _, fun hle => absurd (Nat.le_trans hle hlength) (Nat.not_succ_le_self n)⟩
      obtain rfl := h.unique (.turn hlt rfl hreuse)
      have hreaches : Reaches false ⟨.enter ⟨g.owner, target, params, 0⟩,
          .via g.owner (nameCall code.name (displayName g)) :: K', s.plain log⟩ _ :=
        reaches_entry? hx' hcode' hconnects.joined.plain htarget hentry'
      refine ⟨_, .step (.turn hlt' rfl (hadapter.trans (bind_of_ok hplan))) hreaches, ?_⟩
      exact .enter hlevels (.shortcut _ (fun o o' ho => ho.nameCall _ _) hK) ⟨log, rfl⟩

end Reuse

theorem Alike.step (h : c.Alike c') (hw : c.Wired) (hv : c.DepthValid) (hstrained : ¬c.Strained)
    (hcounts : ¬c.Miscounts) (hstep : c.Step canceled d) : ∃ d', c'.Reaches canceled d' ∧ d.Alike d' := by
  cases h with
  | fail => cases hstep
  | give ho hK hs => exact hK.give ho hs hstep
  | @run fr n' p p' K K' s t hn hp hK hs =>
    cases hp with
    | done ho =>
      cases hstep
      exact ⟨_, .step .done (.refl _), .give ho hK hs⟩
    | ask r hnext =>
      have hplans : MirrorsAt False _ (planAnswer fr r) (planAnswer (fr.at n') r) s t := mirrors_planAnswer fr r s t hs
      rcases hplans with ⟨⟨⟩, -⟩ | ⟨x, ha, hb⟩ | ⟨plan, plan', s', t', ha, hb, hplan, hs'⟩
      · obtain rfl := hstep.unique (.defect ha)
        exact ⟨_, .step (.defect hb) (.refl _), .fail ..⟩
      · obtain rfl := hstep.unique (.ask ha)
        exact ⟨_, .step (.ask hb) (.refl _), alike_answer hplan hn hnext hK hs'⟩
    | note e e' hnext =>
      obtain ⟨log, rfl⟩ := hs
      obtain rfl := hstep.unique (.ask rfl)
      exact ⟨_, .step (.ask rfl) (.refl _), .run hn hnext hK ⟨log.push e', rfl⟩⟩
  | @enter e n' K K' s t hn hK hs =>
    obtain ⟨i, code, params, n⟩ := e
    by_cases hd : maxCallDepth ≤ n
    · -- the depth counts no shortcuts, so it is the same in the mirror
      have hle : n ≤ (latest (Store.chains K)).length := Nat.le_of_not_lt fun hlt => hstrained ⟨_, rfl, hd, hlt⟩
      obtain rfl := hn.2 hle
      obtain rfl := hstep.unique (.overflow hd)
      exact ⟨_, .step (.overflow hd) (.refl _), .give (.error rfl) hK hs⟩
    have hlt : n < maxCallDepth := Nat.lt_of_not_le hd
    have hlt' : n' < maxCallDepth := Nat.lt_of_le_of_lt hn.1 hlt
    cases canceled with
    | true =>
      obtain rfl := hstep.unique (.cancel hlt rfl)
      exact ⟨_, .step (.cancel hlt' rfl) (.refl _), .give (.error rfl) hK hs⟩
    | false =>
      by_cases hcode : code.plain = code
      · have hturns : MirrorsAt False (Turn.Alike n n') (turn ⟨i, code, params, n⟩) (turn ⟨i, code, params, n'⟩) s t :=
          mirrors_turn hcode hs hw.1.executor hw.1.hosts
        dsimp only
        rw [hcode]
        rcases hturns with ⟨⟨⟩, -⟩ | ⟨x, ha, hb⟩ | ⟨T, T', s', t', ha, hb, hT, hs'⟩
        · obtain rfl := hstep.unique (.stuck hlt rfl ha)
          exact ⟨_, .step (.stuck hlt' rfl hb) (.refl _), .fail ..⟩
        · obtain rfl := hstep.unique (.turn hlt rfl ha)
          exact ⟨_, .step (.turn hlt' rfl hb) (.refl _), alike_take hT hn hK hs'⟩
      · obtain ⟨k, f, rfl⟩ := Code.eq_reuse_of_plain_ne hcode
        obtain ⟨g, hg, hhost⟩ := hw.2 k f rfl
        have hcount : params.length = g.type.params.length :=
          not_imp_comm.mp (fun hne => ⟨_, k, f, g, rfl, rfl, hg, hne⟩) hcounts
        exact alike_reuse hw.1 hs hg hhost hcount hlt hn hv.2 hK hstep

/-- No call is too deep only because of shortcuts, and functions of other instances are given as many parameters as they
take, whatever the machine comes to. -/
def Uniform (canceled : Bool) (c : Config) : Prop := ∀ d, c.Reaches canceled d → ¬d.Strained ∧ ¬d.Miscounts

theorem Alike.reaches (h : c.Alike c') (hw : c.Wired) (hv : c.DepthValid) (hu : c.Uniform canceled)
    (hr : c.Reaches canceled d) : ∃ d', c'.Reaches canceled d' ∧ d.Alike d' := by
  induction hr generalizing c' with
  | refl c => exact ⟨c', .refl c', h⟩
  | @step c b d hstep _ ih =>
    obtain ⟨hstrained, hcounts⟩ := hu c (.refl c)
    obtain ⟨b', hb', hb⟩ := h.step hw hv hstrained hcounts hstep
    obtain ⟨d', hd', hd⟩ := ih hb (hstep.wired hw) (hstep.depthValid hv) fun e he => hu e (.step hstep he)
    exact ⟨d', hb'.trans hd', hd⟩

theorem Leads.eq_error {x : Defect} (h : c.Leads canceled [] r)
    (hr : c.Reaches canceled ⟨.fail x, K, s⟩) : r = .error .nesting ∨ r = .error x := by
  cases r with
  | ok r => cases hr.unique trivial h trivial
  | error y =>
    obtain rfl | ⟨K', s', hy⟩ := h
    · exact .inl rfl
    · cases hr.unique trivial hy trivial
      exact .inr rfl

theorem Leads.eq_ok (h : c.Leads canceled [] r)
    (hr : c.Reaches canceled ⟨.give o, [], s⟩) : r = .error .nesting ∨ r = .ok (o, s) := by
  cases r with
  | ok r =>
    cases hr.unique trivial h trivial
    exact .inr rfl
  | error y =>
    obtain rfl | ⟨K', s', hy⟩ := h
    · exact .inl rfl
    · cases hr.unique trivial hy trivial

theorem alike_start (f : FunctionId) (params : List UInt64) (hs : s.Mirror t) :
    (start f params s).Alike (start f params t) := by
  have hplans : MirrorsAt False (Plan.Alike (SameResult Eq) 0 0) (planFunction f params) (planFunction f params) s t :=
    mirrors_planFunction f params s t hs
  unfold start
  rcases hplans with ⟨⟨⟩, -⟩ | ⟨x, ha, hb⟩ | ⟨plan, plan', s', t', ha, hb, hplan, hs'⟩
  · rw [ha, hb]
    exact .fail ..
  · rw [ha, hb]
    exact alike_take (.call hplan) (levels_zero []) .nil hs'

theorem wired_start (f : FunctionId) (params : List UInt64) (hs : s.Wired) : (start f params s).Wired := by
  unfold start
  split
  · rename_i plan s' h
    obtain ⟨hs', hplan⟩ := (plans_function 0 f params s).of_eq h
    have hcall : Turn.Leads 0 s' (.call plan) := hplan
    exact wired_take (hs'.stays.wired hs) hcall
  · exact ⟨hs, trivial⟩

end Config

open Config in
theorem mirrors_call (hs : s.Mirror t) (hw : s.Wired) (f : FunctionId) (params : List UInt64) (canceled : Bool)
    (hu : (start f params s).Uniform canceled) :
    MirrorsAt True (SameResult Eq) (call f params canceled) (call f params canceled) s t := by
  have hleads := leads_call f params canceled s
  have hleads' := leads_call f params canceled t
  have hruns {d : Config} (hd : (start f params s).Reaches canceled d) :
      ∃ d', (start f params t).Reaches canceled d' ∧ d.Alike d' :=
    (alike_start f params hs).reaches (wired_start f params hw) (depthValid_start f params s) hu hd
  cases hcall : call f params canceled s with
  | error x =>
    rw [hcall] at hleads
    obtain rfl | ⟨K, s', hd⟩ := hleads
    · exact .inl ⟨trivial, .inl hcall⟩
    · obtain ⟨_, hd', ⟨⟩⟩ := hruns hd
      obtain h | h := hleads'.eq_error hd'
      · exact .inl ⟨trivial, .inr h⟩
      · exact .inr (.inl ⟨x, hcall, h⟩)
  | ok r =>
    obtain ⟨o, s'⟩ := r
    rw [hcall] at hleads
    obtain ⟨_, hd', hd⟩ := hruns hleads
    cases hd with
    | give ho hK hs' =>
      obtain ⟨o', hend, ho'⟩ := hK.ends ho canceled _
      obtain h | h := hleads'.eq_ok (hd'.trans hend)
      · exact .inl ⟨trivial, .inr h⟩
      · exact .inr (.inr ⟨o, o', s', _, hcall, h, ho', hs'⟩)

end Store

end ProtoWasm
