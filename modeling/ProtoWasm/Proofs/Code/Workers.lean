import Mathlib.Data.List.Nodup
import Mathlib.Logic.Relation
import ProtoWasm.Proofs.Body.Erasure
import ProtoWasm.Proofs.Code.Compiled

/-! # Compiling with many workers

Functions of a module are claimed one after the other, and whoever claimed one builds its graph and reports. Reports
come in any order, yet all that comes out is what one worker makes of the module, and it fails as the module does when
it is checked.
-/
namespace ProtoWasm

open List

theorem UnitResult.failed_iff {r : UnitResult} : r.failed = true ↔ ∃ e, r.error? = some e := by
  unfold failed error?
  cases r.outcome <;> simp

/-- The first so many of the functions settle what is reported: they are all, or a failure is among them and one is
enough. -/
def Decisive (reportAll : Bool) (units : List UnitResult) (n : Nat) : Prop :=
  units.length ≤ n ∨ reportAll = false ∧ ∃ r ∈ units.take n, r.failed = true

structure Pool where
  /-- Workers that did not look for failures yet. -/
  idle : Nat
  /-- Workers that are about to claim a function. -/
  ready : Nat := 0
  /-- How many functions were claimed. -/
  claimed : Nat := 0
  /-- What is to be reported for functions that were claimed. -/
  running : List UnitResult := []
  /-- A function failed. -/
  failed : Bool := false
  /-- The reports, in the order in which they came. -/
  finished : List UnitResult := []

namespace Pool

variable {units : List UnitResult} {reportAll : Bool} {tasks : Nat} {p q : Pool}

/-- What one of the workers does next. Failures are noted before they are reported. -/
inductive Step (units : List UnitResult) (reportAll : Bool) (p : Pool) : Pool → Prop
  | look {n} (hi : p.idle = n + 1) (h : p.failed = true → reportAll = true) :
      Step units reportAll p { p with idle := n, ready := p.ready + 1 }
  | quit {n} (hi : p.idle = n + 1) (hf : p.failed = true) (h : reportAll = false) :
      Step units reportAll p { p with idle := n }
  | claim {n r} (hn : p.ready = n + 1) (hr : units[p.claimed]? = some r) :
      Step units reportAll p { p with ready := n, claimed := p.claimed + 1, running := p.running ++ [r] }
  | leave {n} (hn : p.ready = n + 1) (h : units.length ≤ p.claimed) :
      Step units reportAll p { p with ready := n }
  | fail {r} (hr : r ∈ p.running) (h : r.failed = true) (hf : p.failed = false) :
      Step units reportAll p { p with failed := true }
  | report {before r after} (hr : p.running = before ++ r :: after) (h : r.failed = true → p.failed = true) :
      Step units reportAll p
        { p with idle := p.idle + 1, running := before ++ after, finished := p.finished ++ [r] }

/-- What comes to be if so many workers set out. -/
def Reaches (units : List UnitResult) (reportAll : Bool) (tasks : Nat) (p : Pool) : Prop :=
  Relation.ReflTransGen (Step units reportAll) { idle := tasks } p

structure Stopped (p : Pool) : Prop where
  idle : p.idle = 0
  ready : p.ready = 0
  running : p.running = []

/-- Functions that were claimed are those that come first, and nobody goes before what is reported is settled. -/
structure Orderly (units : List UnitResult) (reportAll : Bool) (tasks : Nat) (p : Pool) : Prop where
  reports : (p.finished ++ p.running).Perm (units.take p.claimed)
  failure : p.failed = true → ∃ r ∈ units.take p.claimed, r.failed = true
  settled : p.idle + p.ready + p.running.length < tasks →
    units.length ≤ p.claimed ∨ reportAll = false ∧ p.failed = true

theorem orderly_start (units : List UnitResult) (reportAll : Bool) (tasks : Nat) :
    Orderly units reportAll tasks { idle := tasks } where
  reports := by simp
  failure h := nomatch h
  settled h := absurd h (by simp)

theorem Step.orderly (h : Step units reportAll p q) (hp : p.Orderly units reportAll tasks) :
    q.Orderly units reportAll tasks := by
  have hsettled := hp.settled
  cases h with
  | look hi h => exact { hp with settled := fun hlt => hsettled (by simp only at hlt; omega) }
  | quit hi hf h => exact { hp with settled := fun _ => .inr ⟨h, hf⟩ }
  | @claim n r hn hr =>
    have hlt := (List.getElem?_eq_some_iff.mp hr).1
    have htake : units.take (p.claimed + 1) = units.take p.claimed ++ [r] := by
      rw [take_add_one, hr]
      rfl
    constructor
    · rw [htake, ← append_assoc]
      exact hp.reports.append_right [r]
    · intro hf
      obtain ⟨x, hx, hxf⟩ := hp.failure hf
      exact ⟨x, htake ▸ mem_append_left _ hx, hxf⟩
    · intro hgone
      simp only [length_append, length_singleton] at hgone
      rcases hsettled (by omega) with h | h
      · exact absurd hlt (Nat.not_lt.mpr h)
      · exact .inr h
  | leave hn h => exact { hp with settled := fun _ => .inl h }
  | @fail r hr h hf =>
    have hmem := hp.reports.mem_iff.mp (mem_append_right _ hr)
    exact { hp with
      failure := fun _ => ⟨r, hmem, h⟩
      settled := fun hlt => (hsettled hlt).imp_right fun h => ⟨h.1, rfl⟩ }
  | @report before r after hr h =>
    have hperm : (p.finished ++ [r] ++ (before ++ after)).Perm (p.finished ++ p.running) := by
      rw [hr, append_assoc]
      have hmiddle : (r :: (before ++ after)).Perm (before ++ r :: after) := perm_middle.symm
      exact hmiddle.append_left p.finished
    refine ⟨hperm.trans hp.reports, hp.failure, fun hlt => hsettled ?_⟩
    rw [hr]
    simp only [length_append, length_cons] at hlt ⊢
    omega

theorem Reaches.orderly (h : Reaches units reportAll tasks p) : p.Orderly units reportAll tasks := by
  induction h with
  | refl => exact orderly_start units reportAll tasks
  | tail _ hs ih => exact hs.orderly ih

/-- Workers that are gone reported for functions that settle what is reported. -/
theorem Orderly.decisive (hp : p.Orderly units reportAll tasks) (ht : 0 < tasks) (h : p.Stopped) :
    p.finished.Perm (units.take p.claimed) ∧ Decisive reportAll units p.claimed := by
  have hreports := hp.reports
  rw [h.running, append_nil] at hreports
  have hgone : p.idle + p.ready + p.running.length < tasks := by
    rw [h.idle, h.ready, h.running]
    exact ht
  exact ⟨hreports, (hp.settled hgone).imp_right fun ⟨hall, hf⟩ => ⟨hall, hp.failure hf⟩⟩

def rest (units : List UnitResult) (p : Pool) : Nat :=
  3 * (units.length - p.claimed) + 3 * p.running.length + 2 * p.idle + p.ready + (!p.failed).toNat

theorem Step.rest_lt (h : Step units reportAll p q) : q.rest units < p.rest units := by
  unfold rest
  cases h with
  | look hi h =>
    rw [hi]
    dsimp only
    omega
  | quit hi hf h =>
    rw [hi]
    dsimp only
    omega
  | claim hn hr =>
    have hlt := (List.getElem?_eq_some_iff.mp hr).1
    rw [hn]
    simp only [length_append, length_singleton]
    omega
  | leave hn h =>
    rw [hn]
    dsimp only
    omega
  | fail hr h hf =>
    rw [hf]
    simp
  | report hr h =>
    rw [hr]
    simp only [length_append, length_cons]
    omega

theorem stopped_or_step (units : List UnitResult) (reportAll : Bool) (p : Pool) :
    p.Stopped ∨ ∃ q, Step units reportAll p q := by
  cases hrunning : p.running with
  | cons r after =>
    right
    by_cases h : r.failed = true ∧ p.failed = false
    · exact ⟨_, .fail (hrunning ▸ mem_cons_self) h.1 h.2⟩
    · have hrunning : p.running = [] ++ r :: after := hrunning
      exact ⟨_, .report hrunning fun hr => by simpa [hr] using h⟩
  | nil =>
    cases hready : p.ready with
    | succ n =>
      right
      by_cases h : units.length ≤ p.claimed
      · exact ⟨_, .leave hready h⟩
      · exact ⟨_, .claim hready (getElem?_eq_getElem (Nat.lt_of_not_le h))⟩
    | zero =>
      cases hidle : p.idle with
      | succ n =>
        right
        by_cases h : p.failed = true ∧ reportAll = false
        · exact ⟨_, .quit hidle h.1 h.2⟩
        · exact ⟨_, .look hidle fun hf => by simpa [hf] using h⟩
      | zero => exact .inl ⟨hidle, hready, hrunning⟩

theorem exists_stopped (units : List UnitResult) (reportAll : Bool) (p : Pool) :
    ∃ q, Relation.ReflTransGen (Step units reportAll) p q ∧ q.Stopped := by
  induction hn : p.rest units using Nat.strongRecOn generalizing p with
  | ind n ih =>
    rcases stopped_or_step units reportAll p with h | ⟨p', h⟩
    · exact ⟨p, .refl, h⟩
    · obtain ⟨q, hq, hstopped⟩ := ih _ (hn ▸ h.rest_lt) p' rfl
      exact ⟨q, .head h hq, hstopped⟩

end Pool

section Collect

variable {reportAll : Bool} {units reports : List UnitResult} {n : Nat}

theorem collect_of_sort (h : reports.mergeSort (fun a b => a.index ≤ b.index) = units) :
    collect reportAll reports =
      match Module.report? reportAll (units.filterMap UnitResult.error?) with
      | some e => .error e
      | none => .ok (units.filterMap UnitResult.graph?) := by
  subst h
  rfl

theorem collect_of_pairwise (h : units.Pairwise fun a b => a.index ≤ b.index) :
    collect reportAll units =
      match Module.report? reportAll (units.filterMap UnitResult.error?) with
      | some e => .error e
      | none => .ok (units.filterMap UnitResult.graph?) :=
  collect_of_sort (mergeSort_of_pairwise (by simpa using h))

theorem collect_perm (h : units.Pairwise fun a b => a.index < b.index)
    (hp : reports.Perm units) : collect reportAll reports = collect reportAll units := by
  have hle : units.Pairwise fun a b => a.index ≤ b.index := h.imp Nat.le_of_lt
  have hnodup : (units.map UnitResult.index).Nodup := pairwise_map.mpr (h.imp Nat.ne_of_lt)
  have hperm := (mergeSort_perm reports fun a b => a.index ≤ b.index).trans hp
  have hsorted : (reports.mergeSort fun a b => a.index ≤ b.index).Pairwise fun a b => a.index ≤ b.index := by
    refine (pairwise_mergeSort (fun a b c => ?_) (fun a b => ?_) reports).imp of_decide_eq_true
    · simp only [decide_eq_true_eq]
      exact Nat.le_trans
    · simp only [Bool.or_eq_true, decide_eq_true_eq]
      exact Nat.le_total _ _
  have hsort : reports.mergeSort (fun a b => a.index ≤ b.index) = units := by
    refine List.Perm.eq_of_pairwise (fun a b ha hb hab hba => ?_) hsorted hle hperm
    exact inj_on_of_nodup_map hnodup (hperm.mem_iff.mp ha) hb (Nat.le_antisymm hab hba)
  exact (collect_of_sort hsort).trans (collect_of_pairwise hle).symm

/-- Functions after those that settle what is reported make no difference. -/
theorem collect_take (h : units.Pairwise fun a b => a.index ≤ b.index) (hd : Decisive reportAll units n) :
    collect reportAll (units.take n) = collect reportAll units := by
  rcases hd with hall | ⟨rfl, r, hr, hf⟩
  · rw [take_of_length_le hall]
  · obtain ⟨e, he⟩ := UnitResult.failed_iff.mp hf
    have hmem : e ∈ (units.take n).filterMap UnitResult.error? := mem_filterMap.mpr ⟨r, hr, he⟩
    have hhead : ∃ e', ((units.take n).filterMap UnitResult.error?).head? = some e' := by
      cases hs : (units.take n).filterMap UnitResult.error? with
      | nil => rw [hs] at hmem; cases hmem
      | cons e' _ => exact ⟨e', rfl⟩
    obtain ⟨e', he'⟩ := hhead
    have hfull : (units.filterMap UnitResult.error?).head? = some e' := by
      rw [← take_append_drop n units, filterMap_append, head?_append, he']
      rfl
    rw [collect_of_pairwise h, collect_of_pairwise (h.sublist (take_sublist n units))]
    simp only [Module.report?, he', hfull]
    rfl

theorem exists_claimed_eq_take (reportAll : Bool) (units : List UnitResult) :
    ∃ n, claimed reportAll units = units.take n ∧ Decisive reportAll units n := by
  induction units with
  | nil => exact ⟨0, rfl, .inl (Nat.le_refl 0)⟩
  | cons r units ih =>
    unfold claimed
    split
    · rename_i h
      have h : r.failed = true ∧ reportAll = false := by simpa using h
      exact ⟨1, rfl, .inr ⟨h.2, r, mem_cons_self, h.1⟩⟩
    · obtain ⟨n, hn, hd⟩ := ih
      refine ⟨n + 1, by rw [hn, take_succ_cons], ?_⟩
      rcases hd with hall | ⟨hone, x, hx, hf⟩
      · exact .inl (Nat.succ_le_succ hall)
      · exact .inr ⟨hone, x, mem_cons_of_mem _ hx, hf⟩

theorem collect_claimed (h : units.Pairwise fun a b => a.index ≤ b.index) :
    collect reportAll (claimed reportAll units) = collect reportAll units := by
  obtain ⟨n, hn, hd⟩ := exists_claimed_eq_take reportAll units
  rw [hn, collect_take h hd]

end Collect

namespace Body

/-- A body is built exactly if it passes its check, and fails with the same error. -/
theorem check_outcome (b : FunctionBody) (o : Options) (loops : Bool) :
    (check b o).map (fun _ => ()) = (build b { o with loopAnalysis := loops }).map fun _ => () := by
  unfold check build
  rw [decodeWith_erase b o loops { signature := b.signature }]
  cases decodeWith b { o with loopAnalysis := loops } (some { signature := b.signature }) <;> rfl

end Body

namespace Module

variable {m : Module} {o : CompileOptions} {e : Error} {i maxPages : Nat} {source : List UInt8}

def units (m : Module) (o : CompileOptions) : List UnitResult :=
  m.definedIndices.map (compileFunction m o.loopAnalysis)

theorem pairwise_definedIndices (m : Module) : m.definedIndices.Pairwise (· < ·) := by
  unfold definedIndices
  rw [pairwise_map]
  exact pairwise_lt_range.imp fun h => Nat.add_lt_add_left h _

theorem pairwise_units (m : Module) (o : CompileOptions) : (m.units o).Pairwise fun a b => a.index < b.index :=
  pairwise_map.mpr m.pairwise_definedIndices

theorem validateFunction_eq (m : Module) (loopAnalysis : Bool) (i : Nat) :
    m.validateFunction i = (compileFunction m loopAnalysis i).outcome.map fun _ => () := by
  have h := Body.check_outcome (.ofModule m i) {} loopAnalysis
  unfold validateFunction compileFunction
  dsimp only at h ⊢
  cases hc : Body.check (.ofModule m i) {} <;>
    cases hb : Body.build (.ofModule m i) { loopAnalysis } <;> rw [hc, hb] at h <;> cases h <;> rfl

theorem failed_compileFunction {loopAnalysis : Bool} :
    (compileFunction m loopAnalysis i).failed = true ↔ ∃ e, m.validateFunction i = .error e := by
  rw [validateFunction_eq m loopAnalysis]
  unfold UnitResult.failed
  cases (compileFunction m loopAnalysis i).outcome <;> simp [Except.map]

/-- Functions that cannot be built are those that do not pass their checks. -/
theorem functionErrors_eq (m : Module) (o : CompileOptions) :
    m.functionErrors = (m.units o).filterMap UnitResult.error? := by
  unfold functionErrors errorsUnder units
  rw [filterMap_map]
  congr 1
  funext i
  rw [validateFunction_eq m o.loopAnalysis i]
  unfold Function.comp UnitResult.error?
  cases (compileFunction m o.loopAnalysis i).outcome <;> rfl

theorem compile_eq_collect (m : Module) (o : CompileOptions) :
    m.compile o false = (collect o.reportAll (m.units o)).map (CompiledModule.ofGraphs m) := by
  unfold compile compileWith compileUnits
  rw [← collect_claimed ((m.pairwise_units o).imp Nat.le_of_lt)]
  rfl

theorem compile_eq_error : m.compile o false = .error e ↔ report? o.reportAll m.functionErrors = some e := by
  rw [compile_eq_collect, collect_of_pairwise ((m.pairwise_units o).imp Nat.le_of_lt), ← functionErrors_eq]
  cases report? o.reportAll m.functionErrors with
  | none => simp [Except.map]
  | some e' => simp [Except.map]

theorem decodeValid_eq_error (hm : decode source maxPages = .ok m) {reportAll : Bool} :
    decodeValid source maxPages reportAll = .error e ↔ report? reportAll m.functionErrors = some e := by
  unfold decodeValid decodeUnder
  rw [hm]
  dsimp only [bind, Except.bind, Option.bind]
  change (match report? reportAll m.functionErrors with | some e => Except.error e | none => .ok m) = .error e ↔ _
  cases report? reportAll m.functionErrors with
  | none => simp
  | some e' => simp

/-- However many workers there are and in whatever order they report, what comes out is what one worker makes of the
module. -/
theorem compileWith_finished {tasks : Nat} {p : Pool} (ht : 0 < tasks)
    (hp : Pool.Reaches (m.units o) o.reportAll tasks p) (hstopped : p.Stopped) :
    m.compileWith o false p.finished = m.compile o false := by
  obtain ⟨hperm, hd⟩ := hp.orderly.decisive ht hstopped
  have hunits := m.pairwise_units o
  rw [compile_eq_collect, ← collect_take (hunits.imp Nat.le_of_lt) hd,
    ← collect_perm (hunits.sublist (take_sublist _ _)) hperm]
  rfl

theorem errorOf_eq_some :
    (match m.validateFunction i with | .ok _ => none | .error e => some e) = some e ↔
      m.validateFunction i = .error e := by
  cases m.validateFunction i <;> simp

/-- The error that is reported alone is that of the first function which does not pass its check. -/
theorem head?_functionErrors : m.functionErrors.head? = some e ↔ ∃ i ∈ m.definedIndices,
    m.validateFunction i = .error e ∧ ∀ j ∈ m.definedIndices, j < i → m.validateFunction j = .ok () := by
  unfold functionErrors errorsUnder
  rw [head?_filterMap, findSome?_eq_some_iff]
  have hsorted := m.pairwise_definedIndices
  have hpasses {i : Nat} : (match m.validateFunction i with | .ok _ => none | .error e => some e) = none ↔
      m.validateFunction i = .ok () := by
    cases m.validateFunction i <;> simp
  constructor
  · rintro ⟨before, i, after, heq, hi, hbefore⟩
    rw [heq] at hsorted ⊢
    refine ⟨i, by simp, errorOf_eq_some.mp hi, fun j hj hlt => ?_⟩
    rcases mem_append.mp hj with hj | hj
    · exact hpasses.mp (hbefore j hj)
    · have hle := pairwise_append.mp hsorted |>.2.1
      rcases mem_cons.mp hj with rfl | hj
      · omega
      · have := (pairwise_cons.mp hle).1 j hj
        omega
  · rintro ⟨i, hi, he, hfirst⟩
    obtain ⟨before, after, heq⟩ := append_of_mem hi
    refine ⟨before, i, after, heq, errorOf_eq_some.mpr he, fun j hj => hpasses.mpr (hfirst j ?_ ?_)⟩
    · exact heq ▸ mem_append_left _ hj
    · rw [heq] at hsorted
      exact (pairwise_append.mp hsorted).2.2 j hj i mem_cons_self

theorem graph?_of_compile {limit : Nat} {seen : List Section} (hb : m.Built source limit seen)
    {c : CompiledModule} (h : m.compile o false = .ok c) (hi : i ∈ m.definedIndices) :
    ∃ r g, Body.build (.ofModule m i) { loopAnalysis := o.loopAnalysis } = .ok r ∧ r.graph = some g ∧
      c.graph? m i = some g := by
  have hcompiled := hb.compiled h
  obtain ⟨graphs, rfl, hgraphs⟩ := compile_eq_ok h
  have hcount : m.importedFunctions + m.definedCount = m.functions.length := Nat.add_sub_cancel' hb.functionCount
  obtain ⟨j, hj, rfl⟩ := mem_map.mp hi
  have hj := mem_range.mp hj
  have hindex : m.definedIndices[j]? = some (m.importedFunctions + j) := by simp [definedIndices, hj]
  obtain ⟨g, hg, hout⟩ := forall₂_get? hgraphs hindex
  have hentry := CodeTable.entry_of_graph (Nat.le.intro hcount) hg
  have hgraph := hcompiled.graph?_eq_some.mpr ⟨Nat.le_add_right _ j, by omega, hentry⟩
  unfold compileFunction at hout
  dsimp only at hout
  split at hout
  · rename_i r hr
    obtain ⟨g', hg', -⟩ := Body.exists_typed_of_build (hb.onlyValues _) hr
    rw [hg'] at hout
    cases hout
    exact ⟨r, g', hr, hg', hgraph⟩
  · cases hout

/-- What compiling and checking a module have to do with each other. -/
structure Agrees (source : List UInt8) (maxPages : Nat) (m : Module) (o : CompileOptions)
    (outcome : Except Error CompiledModule) : Prop where
  /-- It does not compile exactly if a function does not pass its check. -/
  failure : (∃ e, outcome = .error e) ↔ ∃ i ∈ m.definedIndices, ∃ e, m.validateFunction i = .error e
  /-- It is refused with the error with which it does not compile. -/
  refusal : ∀ e, outcome = .error e ↔ decodeValid source maxPages o.reportAll = .error e
  /-- One error is that of the first function which fails. -/
  first : o.reportAll = false → ∀ e, outcome = .error e ↔ ∃ i ∈ m.definedIndices,
    m.validateFunction i = .error e ∧ ∀ j ∈ m.definedIndices, j < i → m.validateFunction j = .ok ()
  /-- All errors are combined in the order of the functions. -/
  all : o.reportAll = true → ∀ e, outcome = .error e ↔ Error.combine? m.functionErrors = some e
  /-- The graph of a function is that of its own body. -/
  graphs : ∀ c, outcome = .ok c → ∀ i ∈ m.definedIndices, ∃ r g,
    Body.build (.ofModule m i) { loopAnalysis := o.loopAnalysis } = .ok r ∧ r.graph = some g ∧ c.graph? m i = some g

theorem compile_agrees (hm : decode source maxPages = .ok m)
    (o : CompileOptions) : Agrees source maxPages m o (m.compile o false) := by
  obtain ⟨seen, hb, -⟩ := built_decode hm
  constructor
  · simp only [compile_eq_error]
    rw [← Option.isSome_iff_exists, Option.isSome_iff_ne_none, ne_eq, report?_eq_none]
    constructor
    · intro hne
      obtain ⟨e, he⟩ := exists_mem_of_ne_nil _ hne
      obtain ⟨i, hi, he⟩ := mem_filterMap.mp he
      exact ⟨i, hi, e, errorOf_eq_some.mp he⟩
    · rintro ⟨i, hi, e, he⟩ hnil
      have hmem : e ∈ m.functionErrors := mem_filterMap.mpr ⟨i, hi, errorOf_eq_some.mpr he⟩
      rw [hnil] at hmem
      cases hmem
  · intro e
    rw [compile_eq_error, decodeValid_eq_error hm]
  · intro hone e
    rw [compile_eq_error, hone]
    exact head?_functionErrors
  · intro hall e
    rw [compile_eq_error, hall]
    rfl
  · intro c hc i hi
    exact graph?_of_compile hb hc hi

/-- However many workers compile a module and in whatever order they report, they come to an end, and then it
compiles if all functions pass their checks, and fails as the checks do if not. -/
theorem compileWith_agrees {source : List UInt8} {maxPages : Nat} (hm : decode source maxPages = .ok m)
    (o : CompileOptions) {tasks : Nat} (ht : 0 < tasks) {p : Pool}
    (hp : Pool.Reaches (m.units o) o.reportAll tasks p) :
    (∃ q, Pool.Reaches (m.units o) o.reportAll tasks q ∧
      Relation.ReflTransGen (Pool.Step (m.units o) o.reportAll) p q ∧ q.Stopped) ∧
      (p.Stopped → Agrees source maxPages m o (m.compileWith o false p.finished)) := by
  constructor
  · obtain ⟨q, hq, hstopped⟩ := Pool.exists_stopped (m.units o) o.reportAll p
    exact ⟨q, hp.trans hq, hq, hstopped⟩
  · intro hstopped
    rw [compileWith_finished ht hp hstopped]
    exact compile_agrees hm o

/-- A module with three functions, of which the last two get locals that they do not have. -/
def missing : List UInt8 :=
  header ++
    encodeSection "signatures" ([1] ++ encodeSignature ⟨[], []⟩) ++
    encodeSection "function_signatures" [3, 0, 0, 0] ++
    encodeSection "function_bodies" [3, 1, 0, 3, 0, 0x0e, 7, 3, 0, 0x0e, 8]

/-- The third function may be claimed, fail and be reported before the second one, which was claimed before. -/
theorem reaches_overtaken {a b c : UnitResult} (ha : a.failed = false) (hc : c.failed = true) :
    Pool.Reaches [a, b, c] false 2 { idle := 0, claimed := 3, failed := true, finished := [a, c, b] } := by
  unfold Pool.Reaches
  refine .head (.look rfl nofun) (.head (.look rfl nofun) (.head (.claim rfl rfl) (.head (.claim rfl rfl) ?_)))
  have hfirst : [a, b] = [] ++ a :: [b] := rfl
  refine .head (.report hfirst fun h => absurd (ha.symm.trans h) nofun) ?_
  refine .head (.look rfl nofun) (.head (.claim rfl rfl) (.head (.fail (r := c) (by simp) hc rfl) ?_))
  have hthird : [b, c] = [b] ++ c :: [] := rfl
  have hsecond : [b] = [] ++ b :: [] := rfl
  exact .head (.report hthird fun _ => rfl) (.head (.quit rfl rfl rfl)
    (.head (.report hsecond fun _ => rfl) (.head (.quit rfl rfl rfl) .refl)))

theorem compileWith_agrees_missing :
    ∃ m p e, decode missing 0 = .ok m ∧ Pool.Reaches (m.units {}) false 2 p ∧ p.Stopped ∧
      p.finished.map UnitResult.index = [0, 2, 1] ∧ m.validateFunction 1 = .error e ∧
      m.compileWith {} false p.finished = .error e ∧ Agrees missing 0 m {} (m.compileWith {} false p.finished) := by
  have hok : (decode missing 0).toOption.map (fun m => (m.definedIndices, (m.units {}).map UnitResult.failed)) =
      some ([0, 1, 2], [false, true, true]) := by decide +kernel
  cases hm : decode missing 0 with
  | error e => rw [hm] at hok; cases hok
  | ok m =>
    rw [hm] at hok
    obtain ⟨hindices, hfailed⟩ := Prod.mk.inj (Option.some.inj hok)
    have hunits : m.units {} = [compileFunction m false 0, compileFunction m false 1, compileFunction m false 2] := by
      rw [units, hindices]
      rfl
    rw [hunits] at hfailed
    simp only [map_cons, map_nil, List.cons.injEq, and_true] at hfailed
    obtain ⟨hfirst, hsecond, hthird⟩ := hfailed
    have hp := reaches_overtaken (b := compileFunction m false 1) hfirst hthird
    rw [← hunits] at hp
    have hagrees := (compileWith_agrees hm {} Nat.zero_lt_two hp).2 ⟨rfl, rfl, rfl⟩
    have hpass : m.validateFunction 0 = .ok () := by
      cases h : m.validateFunction 0 with
      | ok _ => rfl
      | error e => exact absurd (hfirst.symm.trans (failed_compileFunction.mpr ⟨e, h⟩)) nofun
    obtain ⟨e, he⟩ := failed_compileFunction.mp hsecond
    refine ⟨m, _, e, rfl, hp, ⟨rfl, rfl, rfl⟩, rfl, he, (hagrees.first rfl e).mpr ⟨1, ?_, he, ?_⟩, hagrees⟩
    · simp [hindices]
    · intro j _ hj
      obtain rfl : j = 0 := Nat.lt_one_iff.mp hj
      exact hpass

end Module

end ProtoWasm
