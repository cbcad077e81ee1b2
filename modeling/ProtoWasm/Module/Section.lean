/-! # Sections of a module

A module is a sequence of named sections. Each known section occurs at most once, in any order that
lets a section refer only to what was read before it. The order of the constructors is the order in
which a module is written.
-/
namespace ProtoWasm

inductive Section where
  | signatures
  | importTable
  | functionSignatures
  | table
  | memory
  | globals
  | exportTable
  | startFunction
  | elements
  | functionBodies
  | dataSegments
  | names
  | finish
deriving DecidableEq, Repr, Inhabited

namespace Section

def name : Section → String
  | signatures => "signatures"
  | importTable => "import_table"
  | functionSignatures => "function_signatures"
  | table => "table"
  | memory => "memory"
  | globals => "globals"
  | exportTable => "export_table"
  | startFunction => "start_function"
  | elements => "elements"
  | functionBodies => "function_bodies"
  | dataSegments => "data_segments"
  | names => "names"
  | finish => "end"

def all : List Section :=
  [signatures, importTable, functionSignatures, table, memory, globals, exportTable, startFunction,
   elements, functionBodies, dataSegments, names, finish]

def ofName? (name : String) : Option Section := all.find? fun s => s.name == name

/-- The sections whose index spaces this one refers to. -/
def requires : Section → List Section
  | functionSignatures => [signatures]
  | functionBodies => [functionSignatures]
  | _ => []

/-- The sections that extend an index space past the imports, which imports therefore precede. -/
def precedes : Section → List Section
  | importTable => [functionSignatures, table, memory, globals]
  | _ => []

inductive OrderFault where
  | duplicate (s : Section)
  | missing (s needed : Section)
  | late (s earlier : Section)
deriving DecidableEq, Repr

def OrderFault.message : OrderFault → String
  | duplicate s => s!"duplicate section {s.name}"
  | missing s needed => s!"section {s.name} requires {needed.name}"
  | late s earlier => s!"section {s.name} must precede {earlier.name}"

def checkOrder (seen : List Section) (s : Section) : Option OrderFault :=
  if s ∈ seen then some (.duplicate s)
  else match s.requires.find? (· ∉ seen) with
    | some needed => some (.missing s needed)
    | none => (s.precedes.find? (· ∈ seen)).map (OrderFault.late s)

end Section

end ProtoWasm
