import ProtoWasm.Proofs.Store.Machine
import ProtoWasm.Proofs.Store.Plain

/-! # What calls do to a store and its mirror

Processes that run at different depths in a store and in its mirror are answered the same: they are given the same
values, or the same code is entered for them. Code that is no shortcut does the same in both.
-/
namespace ProtoWasm

theorem Error.bare_nameCall (m f : String) (e : Error) :
    (if e.call?.isSome then e else .call m f e).bare = e.bare := by
  split <;> rfl

namespace SameResult

variable {o o' : Outcome} (h : SameResult Eq o o')

include h

theorem nameCall (m f : String) : SameResult Eq o (Store.nameCall m f o') := by
  cases h with
  | ok h => exact .ok h
  | error h => exact .error (h.trans (Error.bare_nameCall m f _).symm)

theorem nameCalls (m f : String) : SameResult Eq (Store.nameCall m f o) (Store.nameCall m f o') := by
  cases h with
  | ok h => exact .ok h
  | error h => exact .error ((Error.bare_nameCall m f _).trans (h.trans (Error.bare_nameCall m f _).symm))

theorem host : SameResult Eq (Store.hostOutcome o) (Store.hostOutcome o') := by
  cases h with
  | ok h => exact .ok h
  | error h => exact .error (congrArg (fun e => Error.trap .hostFunction 0 (some e)) h)

end SameResult

namespace Store

open StoreM

variable {loose : Prop} {s t : Store}

/-- The plans give results that are related, or enter the same code, by way of its instance or one deeper than the
processes for which it is entered. -/
inductive Plan.Alike {α β : Type} (R : α → β → Prop) (depth depth' : Nat) : Plan α → Plan β → Prop
  | give {a : α} {b : β} (h : R a b) : Alike R depth depth' (.give a) (.give b)
  | enter {i : InstanceId} {c : Code} {params : List UInt64} {n n' : Nat} {post : Outcome → α} {post' : Outcome → β}
      (hn : (n = 0 ∧ n' = 0) ∨ (n = depth + 1 ∧ n' = depth' + 1))
      (h : ∀ o o', SameResult Eq o o' → R (post o) (post' o')) :
      Alike R depth depth' (.enter ⟨i, c, params, n⟩ post) (.enter ⟨i, c.plain, params, n'⟩ post')

variable {d d' : Nat}

theorem Plan.Alike.map {α β γ δ : Type} {R : α → β → Prop} {Q : γ → δ → Prop} {f : α → γ} {g : β → δ} {p : Plan α}
    {q : Plan β} (h : p.Alike R d d' q) (hf : ∀ x y, R x y → Q (f x) (g y)) : (p.map f).Alike Q d d' (q.map g) := by
  cases h with
  | give h => exact .give (hf _ _ h)
  | enter hn h => exact .enter hn fun o o' ho => hf _ _ (h o o' ho)

theorem mirrors_planThrough (i : InstanceId) (f : FunctionInstance) (params : List UInt64) :
    Mirrors loose (Plan.Alike (SameResult Eq) d d') (planThrough i f params) (planThrough i f params) := by
  refine (mirrors_getCode i).bind ?_
  rintro code _ rfl
  refine (mirrors_getInstance i).bind ?_
  rintro x _ rfl
  refine mirrors_ite (mirrors_pure (.give (.error rfl))) (mirrors_ite (mirrors_pure (.give (.error rfl))) ?_)
  dsimp only [LinkedCode.plain]
  rw [CodeTable.entry?_plain]
  refine (mirrors_expect_map .index (code.table.entry? f.index) Code.plain).bind ?_
  rintro c _ rfl
  exact mirrors_pure (.enter (.inl ⟨rfl, rfl⟩) fun o o' ho => ho.nameCalls _ _)

theorem mirrors_planFunction (f : FunctionId) (params : List UInt64) :
    Mirrors loose (Plan.Alike (SameResult Eq) d d') (planFunction f params) (planFunction f params) :=
  (mirrors_getFunction f).then fun g =>
    mirrors_ite (mirrors_pure (.give (.error rfl))) (mirrors_planThrough g.owner g params)

def Frame.at (fr : Frame) (depth : Nat) : Frame := { fr with depth }

theorem mirrors_planCall (fr : Frame) (site : NodeId) (params : List UInt64) :
    Mirrors loose (Plan.Alike (SameResult Eq) fr.depth d') (planCall fr site params)
      (planCall (fr.at d') site params) := by
  obtain ⟨i, body, depth⟩ := fr
  cases body with
  | none => exact mirrors_pure (.give (.error rfl))
  | some body =>
    refine (mirrors_getCode i).bind ?_
    rintro code _ rfl
    dsimp only [LinkedCode.plain]
    cases code.compiled.table.site? body.1 site with
    | none => exact mirrors_pure (.give (.error rfl))
    | some k =>
      dsimp only
      rw [CodeTable.relocs_plain]
      refine (mirrors_expect_map .index code.table.relocs[k]? Reloc.plain).bind ?_
      rintro r _ rfl
      exact mirrors_pure (.enter (.inr ⟨rfl, rfl⟩) fun o o' ho => ho)

theorem mirrors_callNode (g : Graph) (site : NodeId) : Mirrors loose Eq (callNode g site) (callNode g site) :=
  mirrors_ite (mirrors_pure rfl) (mirrors_expect_eq _ _)

theorem mirrors_findCallee (x : Instance) (node : Node) (key : Nat) :
    Mirrors loose Eq (findCallee x node key) (findCallee x.plain node key) := by
  unfold findCallee
  dsimp only [Instance.plain]
  cases x.tables with
  | nil => exact mirrors_pure rfl
  | cons table rest =>
    refine Mirrors.then (mirrors_expect_eq _ _) fun type => (mirrors_typeId type).then fun id => ?_
    exact (mirrors_expect_eq _ _).then fun k => (mirrors_getTable k).then fun table => mirrors_pure rfl

theorem mirrors_planIndirect (fr : Frame) (site : NodeId) (key : Nat) (params : List UInt64) :
    Mirrors loose (Plan.Alike (SameResult Eq) fr.depth d') (planIndirect fr site key params)
      (planIndirect (fr.at d') site key params) := by
  obtain ⟨i, body, depth⟩ := fr
  cases body with
  | none => exact mirrors_pure (.give (.error rfl))
  | some body =>
    refine (mirrors_callNode body.2 site).then fun node => mirrors_ite (mirrors_pure (.give (.error rfl))) ?_
    refine (mirrors_getInstance i).bind ?_
    rintro x _ rfl
    refine (mirrors_findCallee x node key).then fun found => ?_
    cases found with
    | error k => exact mirrors_pure (.give (.error rfl))
    | ok f =>
      refine (mirrors_getFunction f).then fun callee => mirrors_ite ?_ (mirrors_planFunction f params)
      refine (mirrors_getCode i).bind ?_
      rintro code _ rfl
      dsimp only [LinkedCode.plain]
      rw [CodeTable.entries_plain]
      refine (mirrors_expect_map .index code.table.entries[callee.index]? Code.plain).bind ?_
      rintro c _ rfl
      exact mirrors_pure (.enter (.inr ⟨rfl, rfl⟩) fun o o' ho => ho)

theorem mirrors_note (e e' : Event) : Mirrors loose Eq (note e) (note e') :=
  mirrors_modify fun _ log => ⟨log.push e', rfl⟩

theorem mirrors_referenceAt (fr : Frame) (node : NodeId) :
    Mirrors loose Eq (referenceAt fr node) (referenceAt (fr.at d') node) := by
  obtain ⟨i, body, depth⟩ := fr
  cases body with
  | none => exact mirrors_pure rfl
  | some body =>
    refine (mirrors_getCode i).bind ?_
    rintro code _ rfl
    have hvalue : code.plain.memoryValue? body.1 node = code.memoryValue? body.1 node := rfl
    rw [hvalue]
    cases code.memoryValue? body.1 node with
    | none => exact mirrors_pure rfl
    | some v =>
      cases v with
      | size n => exact mirrors_pure rfl
      | base a =>
        refine (mirrors_getInstance i).bind ?_
        rintro x _ rfl
        exact Mirrors.then (mirrors_expect_eq _ x.memory) fun id => (mirrors_getMemory id).then fun mem =>
          mirrors_pure rfl

theorem mirrors_storeBytes (i : InstanceId) (address : Nat) (bytes : List UInt8) :
    Mirrors loose Eq (storeBytes i address bytes) (storeBytes i address bytes) := by
  refine (mirrors_getInstance i).bind ?_
  rintro x _ rfl
  refine Mirrors.then (mirrors_expect_eq _ x.memory) fun id => (mirrors_getMemory id).then fun mem => ?_
  exact mirrors_ite (mirrors_defect _) (mirrors_setMemory _ _)

theorem attempts_forM {α : Type} {xs : List α} {f g : α → Action PUnit} (h : ∀ x, Attempts loose Eq (f x) (g x)) :
    Attempts loose Eq (xs.forM f) (xs.forM g) := by
  induction xs with
  | nil => exact attempts_pure rfl
  | cons x xs ih => exact (h x).then fun _ => ih

theorem attempts_growMemory (i : InstanceId) (delta : Nat) :
    Attempts loose Eq (growMemory i delta) (growMemory i delta) := by
  refine (mirrors_getInstance i).lift.bind ?_
  rintro x _ rfl
  dsimp only [Instance.plain]
  cases x.memory with
  | none => exact attempts_throw rfl
  | some id =>
    refine (mirrors_getMemory id).lift.then fun mem => ?_
    cases mem.grow delta with
    | error r => exact attempts_throw rfl
    | ok grown =>
      refine (mirrors_setMemory _ _).lift.then fun _ => ?_
      refine (attempts_forM fun k => (mirrors_modifyInstance k fun y => ?_).lift).then fun _ => ?_
      · cases hcode : y.code <;> simp [Instance.plain, LinkedCode.plain, LinkedCode.relocate, hcode]
      · exact Attempts.then (mirrors_modify fun _ log => ⟨log, rfl⟩).lift fun _ => attempts_pure rfl

/-- A process is answered the same whatever its depth. -/
theorem mirrors_planAnswer (fr : Frame) (r : Request) :
    Mirrors loose (Plan.Alike r.SameAnswer fr.depth d') (planAnswer fr r) (planAnswer (fr.at d') r) := by
  cases r with
  | call site params => exact mirrors_planCall fr site params
  | callIndirect site key params => exact mirrors_planIndirect fr site key params
  | callExport name params =>
    refine (mirrors_getInstance fr.owner).bind ?_
    rintro x _ rfl
    have hexport : x.plain.exportedFunction? name = x.exportedFunction? name := rfl
    rw [hexport]
    cases x.exportedFunction? name with
    | none => exact mirrors_pure (.give .none)
    | some f =>
      exact (mirrors_planFunction f params).bind fun plan plan' h => mirrors_pure (h.map fun o o' ho => .some ho)
  | reference node => exact (mirrors_referenceAt fr node).then fun _ => mirrors_pure (.give rfl)
  | getGlobal k =>
    refine (mirrors_getInstance fr.owner).bind ?_
    rintro x _ rfl
    exact Mirrors.then (mirrors_entry x.globals k) fun g =>
      (mirrors_globalValue g).then fun v => mirrors_pure (.give rfl)
  | setGlobal k v =>
    refine (mirrors_getInstance fr.owner).bind ?_
    rintro x _ rfl
    exact Mirrors.then (mirrors_entry x.globals k) fun g =>
      (mirrors_setGlobal g v).then fun _ => mirrors_pure (.give rfl)
  | load address n =>
    refine (mirrors_getInstance fr.owner).bind ?_
    rintro x _ rfl
    refine Mirrors.then (mirrors_expect_eq _ x.memory) fun id => (mirrors_getMemory id).then fun mem => ?_
    exact (mirrors_checked _).then fun bytes => mirrors_pure (.give rfl)
  | store address bytes => exact (mirrors_storeBytes fr.owner address bytes).then fun _ => mirrors_pure (.give rfl)
  | hasMemory =>
    refine (mirrors_getInstance fr.owner).bind ?_
    rintro x _ rfl
    exact mirrors_pure (.give rfl)
  | grow delta => exact Mirrors.bind (attempts_growMemory fr.owner delta) fun r r' h => mirrors_pure (.give h)
  | note e => exact (mirrors_note e e).then fun _ => mirrors_pure (.give rfl)

/-- The turns do the same, at depths that are given. -/
inductive Turn.Alike (depth depth' : Nat) : Turn → Turn → Prop
  | pass (i : InstanceId) (c : Code) (params : List UInt64) :
      Alike depth depth' (.pass ⟨i, c, params, depth⟩) (.pass ⟨i, c.plain, params, depth'⟩)
  | call {plan plan' : Plan Outcome} (h : plan.Alike (SameResult Eq) depth depth' plan') :
      Alike depth depth' (.call plan) (.call plan')
  | run (i : InstanceId) (body : Option (Nat × Graph)) {p p' : Process Outcome} (h : p.Alike (SameResult Eq) p') :
      Alike depth depth' (.run ⟨i, body, depth⟩ p) (.run ⟨i, body, depth'⟩ p')
  | host (i : InstanceId) (body : Option (Nat × Graph)) {p p' : Process Outcome} (h : p.Alike (SameResult Eq) p') :
      Alike depth depth' (.host ⟨i, body, depth⟩ p) (.host ⟨i, body, depth'⟩ p')

theorem mirrors_turn {i : InstanceId} {c : Code} {params : List UInt64} (hc : c.plain = c) (hs : s.Mirror t)
    (hexecutor : s.config.executor.Blind)
    (hhosts : ∀ (f : FunctionId) g, s.functions[f]? = some g → ∀ h, g.host = some h → h.Blind) :
    MirrorsAt loose (Turn.Alike d d') (turn ⟨i, c, params, d⟩) (turn ⟨i, c, params, d'⟩) s t := by
  cases c with
  | placeholder k => exact mirrors_pure (.call (.give (.error rfl))) s t hs
  | unknown b k => exact mirrors_pure (.call (.give (.error rfl))) s t hs
  | reuse k f => cases hc
  | function index graph =>
    refine (mirrors_getInstance i s t hs).bind ?_
    rintro x _ s' t' hx rfl hs'
    have hsame : Does False (getInstance i) s fun _ s' => s' = s := does_getInstance False.elim fun _ _ => rfl
    obtain ⟨log, rfl⟩ := hs'
    rw [← hsame.of_eq hx] at hexecutor
    exact mirrors_pure (.run i (some (index, graph)) (hexecutor _)) s' _ ⟨log, rfl⟩
  | exportWrapper k p =>
    refine (mirrors_getCode i s t hs).bind ?_
    rintro code _ s' t' - rfl hs'
    dsimp only [LinkedCode.plain]
    rw [CodeTable.relocs_plain]
    refine (mirrors_expect_map .index code.table.relocs[p]? Reloc.plain).bind ?_ s' t' hs'
    rintro r _ rfl
    exact mirrors_pure (.pass i r.ref params)
  | importAdapter k f =>
    refine (mirrors_getFunction f s t hs).bind ?_
    rintro g _ s' t' hg rfl hs'
    have hfound : Does False (getFunction f) s fun g _ => s.functions[f]? = some g :=
      does_getFunction False.elim fun _ h => h
    cases hhost : g.host with
    | none => exact ((mirrors_planFunction f params).bind fun plan plan' h => mirrors_pure (.call h)) s' t' hs'
    | some h =>
      refine (mirrors_getInstance i).bind ?_ s' t' hs'
      rintro x _ rfl
      exact mirrors_pure (.host i none (hhosts f g (hfound.of_eq hg) h hhost _ _))

end Store

end ProtoWasm
