import ProtoWasm.Graph.Build

/-! # Environments

An environment is the state of a point of the program: whether control gets there, the chain of
control and effects, and the node that every parameter and local holds. Environments are joined where
ways meet. Without a graph an environment only keeps track of whether control gets there.
-/
namespace ProtoWasm.Body

inductive Reach where
  /-- It never does: the path has ended. -/
  | ended
  /-- No way there is known yet. -/
  | unreached
  /-- By one way. -/
  | once
  /-- By a join, which has a node of its own. -/
  | joined
deriving DecidableEq, Repr, Inhabited

structure Env where
  reach : Reach
  chain : Chain := {}
  locals : List NodeId := []
deriving DecidableEq, Repr, Inhabited

namespace Env

def ended : Env := { reach := .ended }

def unreached : Env := { reach := .unreached }

def live (e : Env) : Bool := e.reach = .once || e.reach = .joined

def split (e : Env) : Env := if e.live then { e with reach := .once } else unreached

/-- What stays of an environment whose contents were moved out by `split`, to be used as a join. -/
def vacate (e : Env) : Env := if e.live then unreached else e

def setControl (e : Env) (control : NodeId) : Env := { e with chain := { e.chain with control } }

end Env

def repeatThen (old last : NodeId) (count : Nat) : List NodeId :=
  List.replicate (count - 1) old ++ [last]

def extendValue (g : Graph) (t : ValType) (join old last : NodeId) : NodeId × Graph :=
  if g.isPhiOf old join then (old, g.appendToPhi join old last)
  else if old ≠ last then g.emitPhi t join (repeatThen old last (g.inputCount join))
  else (old, g)

def extendEffect (g : Graph) (join old last : NodeId) : NodeId × Graph :=
  if g.isPhiOf old join then (old, g.appendToPhi join old last)
  else if old ≠ last then g.emitEffectPhi join (repeatThen old last (g.inputCount join))
  else (old, g)

def joinLocals (join : ValType → NodeId → NodeId → Graph → NodeId × Graph) (types : List ValType)
    (target source : List NodeId) (g : Graph) : List NodeId × Graph :=
  (types.zip (target.zip source)).foldr
    (fun (t, a, f) (locals, g) =>
      let (n, g) := join t a f g
      (n :: locals, g))
    ([], g)

/-- Allocates the join of an environment that was reached once with a second way. -/
def joinReached (types : List ValType) (source target : Env) (g : Graph) : Env × Graph :=
  let (merge, g) := g.emitMerge [target.chain.control, source.chain.control]
  let (effect, g) :=
    if source.chain.effect ≠ target.chain.effect then
      g.emitEffectPhi merge [target.chain.effect, source.chain.effect]
    else (target.chain.effect, g)
  let (locals, g) := joinLocals
    (fun t a f g => if a ≠ f then g.emitPhi t merge [a, f] else (a, g)) types target.locals source.locals g
  (⟨.joined, ⟨merge, effect⟩, locals⟩, g)

def joinMore (types : List ValType) (source target : Env) (g : Graph) : Env × Graph :=
  let merge := target.chain.control
  let g := g.appendToMerge merge source.chain.control
  let (effect, g) := extendEffect g merge target.chain.effect source.chain.effect
  let (locals, g) := joinLocals (fun t a f g => extendValue g t merge a f) types target.locals
    source.locals g
  (⟨.joined, ⟨merge, effect⟩, locals⟩, g)

/-- Goes on from an environment to a join point. Nothing can go on to a path that has ended. -/
def goTo (types : List ValType) (source target : Env) (g : Option Graph) : Option (Env × Option Graph) :=
  if !source.live then some (target, g)
  else match target.reach with
    | .ended => none
    | .unreached => some ({ source with reach := .once }, g)
    | .once => match g with
      | none => some ({ target with reach := .joined }, none)
      | some g =>
        let (env, g) := joinReached types source target g
        some (env, some g)
    | .joined => match g with
      | none => some (target, none)
      | some g =>
        let (env, g) := joinMore types source target g
        some (env, some g)

/-- Turns an environment into the header of a loop. Every local gets a phi, or only those that the
loop assigns, if they are known. -/
def openLoop (types : List ValType) (assigned : Option (List Bool)) (e : Env) (g : Graph) :
    Env × Graph :=
  let (control, g) := g.emitLoop e.chain.control
  let (effect, g) := g.emitEffectPhi control [e.chain.effect]
  let g := g.emitTerminate ⟨control, effect⟩
  let wanted := assigned.getD (e.locals.map fun _ => true)
  let (locals, g) := (types.zip (e.locals.zip wanted)).foldr
    (fun (t, n, w) (locals, g) =>
      if w then
        let (phi, g) := g.emitPhi t control [n]
        (phi :: locals, g)
      else (n :: locals, g))
    ([], g)
  (⟨.joined, ⟨control, effect⟩, locals⟩, g)

end ProtoWasm.Body
