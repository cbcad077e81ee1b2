import ProtoWasm.Graph.Basic
import ProtoWasm.Module.Basic

/-! # Code tables

The code of a module is a table: one entry for every function of the index space, followed by the entry
points of exported functions, and the places from which entries are called directly. A place refers to
a placeholder until linking finds code for the function that it calls.
-/
namespace ProtoWasm

abbrev FunctionId := Nat

inductive CodeKind where
  | placeholder
  | function
  | importAdapter
  | reuse
  | exportWrapper
  | unknown (code : UInt8)
deriving DecidableEq, Repr, Inhabited

namespace CodeKind

def ofByte (b : UInt8) : CodeKind :=
  if b = 0 then placeholder
  else if b = 1 then function
  else if b = 2 then importAdapter
  else if b = 3 then reuse
  else if b = 4 then exportWrapper
  else unknown b

def name : CodeKind → String
  | placeholder => "placeholder"
  | function => "function"
  | importAdapter => "import_adapter"
  | reuse => "reuse"
  | exportWrapper => "export_wrapper"
  | unknown b => s!"CodeKind({b.toNat})"

end CodeKind

/-- An entry of a code table. Every entry names the function, by its index, that it stands for. -/
inductive Code where
  | placeholder (index : Nat)
  | function (index : Nat) (graph : Graph)
  /-- A call of a function of the host, or of another instance by way of that instance. -/
  | importAdapter (index : Nat) (callee : FunctionId)
  | reuse (index : Nat) (callee : FunctionId)
  /-- The entry point of an exported function, and the place from which it calls the function. -/
  | exportWrapper (index : Nat) (reloc : Nat)
  | unknown (code : UInt8) (index : Nat)
deriving DecidableEq, Repr, Inhabited

namespace Code

def kind : Code → CodeKind
  | placeholder _ => .placeholder
  | function .. => .function
  | importAdapter .. => .importAdapter
  | reuse .. => .reuse
  | exportWrapper .. => .exportWrapper
  | unknown code _ => .unknown code

def index : Code → Nat
  | placeholder i | function i _ | importAdapter i _ | reuse i _ | exportWrapper i _ | unknown _ i => i

def isPlaceholder : Code → Bool
  | placeholder _ => true
  | _ => false

def graph? : Code → Option Graph
  | function _ g => some g
  | _ => none

end Code

structure Reloc where
  caller : Nat
  /-- The node of the call, which the entry point of an export does not have. -/
  site : NodeId
  target : Nat
  ref : Code
deriving DecidableEq, Repr, Inhabited

structure CodeTable where
  entries : List Code := []
  relocs : List Reloc := []
deriving DecidableEq, Repr, Inhabited

namespace CodeTable

/-- The code that a place can be linked to now: it refers to a placeholder, and the table has code for
the function it calls. -/
def codeFor? (entries : List Code) (r : Reloc) : Option Code :=
  if r.ref.isPlaceholder then entries[r.target]?.filter (!·.isPlaceholder) else none

def linkReloc (entries : List Code) (r : Reloc) : Reloc :=
  match codeFor? entries r with
  | some c => { r with ref := c }
  | none => r

def link (t : CodeTable) : CodeTable := { t with relocs := t.relocs.map (linkReloc t.entries) }

def linkable (t : CodeTable) : Nat := t.relocs.countP fun r => (codeFor? t.entries r).isSome

def unresolved (t : CodeTable) : Nat := t.relocs.countP fun r => r.ref.isPlaceholder

def setEntry (t : CodeTable) (i : Nat) (c : Code) : CodeTable :=
  { t with entries := t.entries.set i c }

def wrapper? (t : CodeTable) (index : Nat) : Option Code :=
  t.entries.find? fun c => c.kind == .exportWrapper && c.index == index

def entry? (t : CodeTable) (index : Nat) : Option Code := (t.wrapper? index).or t.entries[index]?

def site? (t : CodeTable) (caller : Nat) (node : NodeId) : Option Nat :=
  t.relocs.findIdx? fun r => r.site != noNode && r.caller == caller && r.site == node

def directCalls (caller : Nat) (g : Graph) : List Reloc :=
  (g.callSites.toList.filter (!·.indirect)).map fun c =>
    { caller, site := c.node, target := c.target, ref := .placeholder c.target }

/-- The entry points of exports and the places from which they call, after a number of entries and
relocs. -/
def wrappers : (entries relocs : Nat) → List Export → List Code × List Reloc
  | _, _, [] => ([], [])
  | n, k, e :: rest =>
    if e.kind = .func then
      let (cs, rs) := wrappers (n + 1) (k + 1) rest
      (.exportWrapper e.index k :: cs,
       { caller := n, site := noNode, target := e.index, ref := .placeholder e.index } :: rs)
    else wrappers n k rest

/-- The table of a module with the graphs of the functions it defines. Nothing is linked. -/
def ofGraphs (m : Module) (graphs : List Graph) : CodeTable :=
  let imports := (List.range (min m.importedFunctions m.functions.length)).map Code.placeholder
  let defined := graphs.zipIdx.map fun (g, i) => (m.importedFunctions + i, g)
  let functions := defined.map fun (i, g) => Code.function i g
  let calls := defined.flatMap fun (i, g) => directCalls i g
  let (entryPoints, exportCalls) := wrappers (imports.length + functions.length) calls.length m.exports
  { entries := imports ++ functions ++ entryPoints, relocs := calls ++ exportCalls }

end CodeTable

end ProtoWasm
