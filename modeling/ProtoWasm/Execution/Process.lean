import ProtoWasm.Error
import ProtoWasm.Graph.Basic

/-! # Processes

The body of a function runs as a process: it asks one thing after another of the instance that it runs
in, goes on with each answer, and ends with results or an error. A process says nothing about how it is
answered; that is up to the store.
-/
namespace ProtoWasm

inductive Event where
  | host (behaviour caller : String) (params : List UInt64)
  | enter (key : String) (params : List UInt64)
  | performed (action : String) (site : NodeId) (results : List UInt64)
  | caught (message : String)
  /-- A node does not embed anything of the memory. -/
  | noReference (site : NodeId)
  /-- A node embeds an address, which is the current one or not. -/
  | baseReference (site : NodeId) (current : Bool)
  | sizeReference (site : NodeId) (bytes : Nat)
deriving DecidableEq, Repr, Inhabited

inductive Reference where
  | base (current : Bool)
  | size (bytes : Nat)
deriving DecidableEq, Repr, Inhabited

inductive Request where
  | call (site : NodeId) (params : List UInt64)
  | callIndirect (site : NodeId) (key : Nat) (params : List UInt64)
  | callExport (name : String) (params : List UInt64)
  | reference (node : NodeId)
  | getGlobal (index : Nat)
  | setGlobal (index : Nat) (v : UInt64)
  | load (address count : Nat)
  | store (address : Nat) (bytes : List UInt8)
  | hasMemory
  | grow (delta : Nat)
  | note (e : Event)
deriving DecidableEq, Repr, Inhabited

abbrev Outcome := Except Error (List UInt64)

abbrev Request.Answer : Request → Type
  | .call .. => Outcome
  | .callIndirect .. => Outcome
  /- There may be no function of that name. -/
  | .callExport .. => Option Outcome
  | .reference _ => Option Reference
  | .getGlobal _ => UInt64
  | .setGlobal .. => Unit
  | .load .. => List UInt8
  | .store .. => Unit
  | .hasMemory => Bool
  /- The number of pages before. -/
  | .grow _ => Except Error Nat
  | .note _ => Unit

inductive Process (α : Type) where
  | done (a : α)
  | ask (r : Request) (next : r.Answer → Process α)

namespace Process

variable {α β : Type}

def bind : Process α → (α → Process β) → Process β
  | done a, f => f a
  | ask r next, f => ask r fun a => (next a).bind f

instance : Monad Process where
  pure := done
  bind := bind

def request (r : Request) : Process r.Answer := ask r done

end Process

abbrev Task := ExceptT Error Process

namespace Task

def request (r : Request) : Task r.Answer := ExceptT.lift (Process.request r)

def note (e : Event) : Task Unit := request (.note e)

def attempt {α : Type} (r : Process (Except Error α)) : Task α := ExceptT.mk r

def call (site : NodeId) (params : List UInt64) : Task (List UInt64) :=
  attempt (Process.request (.call site params))

def callIndirect (site : NodeId) (key : Nat) (params : List UInt64) : Task (List UInt64) :=
  attempt (Process.request (.callIndirect site key params))

def grow (delta : Nat) : Task Nat := attempt (Process.request (.grow delta))

end Task

structure Invocation where
  instanceName : String
  function : Nat
  graph : Graph
  params : List UInt64
deriving Inhabited

abbrev Executor := Invocation → Task (List UInt64)

def Executor.none : Executor := fun _ => throw (.ofMark .noExecutor)

/-- A function of the host. It runs in the instance that calls it. -/
structure HostFunction where
  name : String
  type : FuncType
  /-- What it does, given the name of the calling instance and the parameters. -/
  run : (caller : String) → List UInt64 → Task (List UInt64)

end ProtoWasm
