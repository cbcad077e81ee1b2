import ProtoWasm.Execution.Process

/-! # Processes that do not look at names

An error may name the functions whose calls failed. A process that is blind for the names asks the same and ends the
same whichever errors it is answered with, apart from what it notes in the log.
-/
namespace ProtoWasm

namespace Error

mutual

/-- The error without the names of failed calls. -/
def bare : Error → Error
  | because r => because r
  | cursor offset text none => cursor offset text none
  | cursor offset text (some cause) => cursor offset text (some (bare cause))
  | decode offset context text none => decode offset context text none
  | decode offset context text (some cause) => decode offset context text (some (bare cause))
  | validation e => validation e
  | instantiation m stage cause => instantiation m stage (bare cause)
  | call _ _ cause => bare cause
  | trap kind offset none => trap kind offset none
  | trap kind offset (some cause) => trap kind offset (some (bare cause))
  | labelled label cause => labelled label (bare cause)
  | marked m cause => marked m (bare cause)
  | several errors => several (bares errors)

def bares : List Error → List Error
  | [] => []
  | e :: rest => bare e :: bares rest

end

end Error

/-- Related results, or errors that differ in the names of failed calls only. -/
inductive SameResult {α β : Type} (R : α → β → Prop) : Except Error α → Except Error β → Prop
  | ok {x : α} {y : β} (h : R x y) : SameResult R (.ok x) (.ok y)
  | error {e e' : Error} (h : e.bare = e'.bare) : SameResult R (.error e) (.error e')

/-- Answers that a process takes for the same. -/
def Request.SameAnswer : (r : Request) → r.Answer → r.Answer → Prop
  | .call .. | .callIndirect .. | .grow _ => SameResult Eq
  | .callExport .. => Option.Rel (SameResult Eq)
  | .reference _ | .getGlobal _ | .setGlobal .. | .load .. | .store .. | .hasMemory | .note _ => Eq

namespace Process

variable {α : Type}

/-- The processes ask the same, go on alike with answers that are the same to them, and end with related results. What
they note may differ. -/
inductive Alike (R : α → α → Prop) : Process α → Process α → Prop
  | done {a a' : α} (h : R a a') : Alike R (.done a) (.done a')
  | ask (r : Request) {next next' : r.Answer → Process α}
      (h : ∀ x x', r.SameAnswer x x' → Alike R (next x) (next' x')) : Alike R (.ask r next) (.ask r next')
  | note (e e' : Event) {next next' : Unit → Process α} (h : Alike R (next ()) (next' ())) :
      Alike R (.ask (.note e) next) (.ask (.note e') next')

theorem alike_request (r : Request) : Alike r.SameAnswer (request r) (request r) := .ask r fun _ _ h => .done h

end Process

namespace Task

variable {α : Type}

/-- Tasks that end the same are given the same values on the way. -/
def Alike (t t' : Task α) : Prop := Process.Alike (SameResult Eq) t.run t'.run

/-- The task does not look at the names in errors. -/
def Blind (t : Task α) : Prop := t.Alike t

theorem blind_pure (x : α) : Blind (pure x : Task α) := .done (.ok rfl)

theorem blind_call (site : NodeId) (params : List UInt64) : Blind (call site params) :=
  Process.alike_request (.call site params)

end Task

def Executor.Blind (e : Executor) : Prop := ∀ inv, (e inv).Blind

def HostFunction.Blind (f : HostFunction) : Prop := ∀ caller params, (f.run caller params).Blind

end ProtoWasm
