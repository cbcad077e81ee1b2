import ProtoWasm.Proofs.Body.Emission

/-! # By how many ways control gets to a point

The ways are counted up to two, by recursion over the expressions of a body. If control got to the condition of an
alternative without an `else` arm by more than one way and gets to the end of its arm, the decoder adds a way to a
join that is none.
-/
namespace ProtoWasm.Body

open Body.Expr

inductive Ways where
  | none
  | one
  | many
deriving DecidableEq, Repr

namespace Ways

/-- Control gets to a copy of a point by one way. -/
def split : Ways → Ways
  | none => none
  | _ => one

/-- One more way to a point, if control gets to where it comes from. -/
def add (target source : Ways) : Ways :=
  match source, target with
  | none, w => w
  | _, none => one
  | _, _ => many

end Ways

/-- How control gets to the point at hand and to the targets around it. -/
structure Flow where
  here : Ways := .one
  /-- Targets of branches, innermost first. -/
  targets : List Ways := []
  /-- An alternative was met to whose condition control got by more than one way and whose arm it left. -/
  stale : Bool := false
deriving DecidableEq, Repr

namespace Flow

def stop (f : Flow) : Flow := { f with here := .none }

def go (f : Flow) (depth : Nat) : Flow := { f with targets := f.targets.modify depth (·.add f.here) }

def enterBlock (f : Flow) (isLoop : Bool) : Flow :=
  { f with
    here := f.here.split
    targets := (if isLoop then [if f.here = .none then .none else .many] else []) ++ .none :: f.targets }

def leaveBlock (f : Flow) (isLoop : Bool) : Flow :=
  match if isLoop then f.targets.drop 1 else f.targets with
  | [] => f
  | w :: rest => { f with here := w.add f.here, targets := rest }

/-- The end of an alternative without an `else` arm. -/
def rejoin (cond arm : Flow) : Flow :=
  { arm with
    here := cond.here.add arm.here
    stale := arm.stale || (cond.here = .many && arm.here ≠ .none) }

end Flow

mutual

def flow : Expr → Flow → Flow
  | .node x cs, f =>
    match x.conduct with
    | .pass => flowAll cs f
    | .stop => (flowAll cs f).stop
    | .block isLoop => (flowAll cs (f.enterBlock isLoop)).leaveBlock isLoop
    | .ifThen => flowIf cs f
    | .ifElse => flowIfElse cs f
    | .br depth => ((flowAll cs f).go depth).stop
    | .brIf depth => (flowAll cs f).go depth
    | .brTable depths => (depths.foldl Flow.go (flowAll cs f)).stop

def flowIf : List Expr → Flow → Flow
  | [c, a], f =>
    let cond := flow c f
    cond.rejoin (flow a { cond with here := cond.here.split })
  | _, f => f

/-- The `else` arm begins as the condition ends. -/
def flowIfElse : List Expr → Flow → Flow
  | [c, a, e], f =>
    let cond := flow c f
    let arm := flow a { cond with here := cond.here.split }
    let last := flow e { arm with here := cond.here }
    { last with here := (Ways.none.add arm.here).add last.here }
  | _, f => f

def flowAll : List Expr → Flow → Flow
  | [], f => f
  | e :: es, f => flowAll es (flow e f)

end

/-- Some alternative of a body goes on at a join that is none. -/
def staleBody (b : FunctionBody) : Bool :=
  ((instructions b.input).bind (forest b)).any fun es => (flowAll es {}).stale

end ProtoWasm.Body
