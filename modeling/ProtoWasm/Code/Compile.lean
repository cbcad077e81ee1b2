import ProtoWasm.Code.Basic
import ProtoWasm.Module.Validate

/-! # Compiling modules

Every function of a module is decoded and its graph is built on its own, so that the functions may be
done in any order. What comes out does not depend on the order: the graphs are put in the order of the
functions, and of several failures the one with the lowest index counts, or all of them in their order.
-/
namespace ProtoWasm

structure UnitResult where
  index : Nat
  outcome : Except Error Graph

namespace UnitResult

def failed (r : UnitResult) : Bool :=
  match r.outcome with
  | .ok _ => false
  | .error _ => true

def error? (r : UnitResult) : Option Error :=
  match r.outcome with
  | .ok _ => none
  | .error e => some e

def graph? (r : UnitResult) : Option Graph :=
  match r.outcome with
  | .ok g => some g
  | .error _ => none

end UnitResult

def compileFunction (m : Module) (loopAnalysis : Bool) (index : Nat) : UnitResult where
  index
  outcome := match Body.build (.ofModule m index) { loopAnalysis } with
    | .ok r => .ok (r.graph.getD {})
    | .error e => .error (e.toError index)

/-- The functions that one worker does: all of them, or up to the first that fails. -/
def claimed (reportAll : Bool) : List UnitResult → List UnitResult
  | [] => []
  | r :: rest => if r.failed && !reportAll then [r] else r :: claimed reportAll rest

def collect (reportAll : Bool) (results : List UnitResult) : Except Error (List Graph) :=
  let ordered := results.mergeSort fun a b => a.index ≤ b.index
  match Module.report? reportAll (ordered.filterMap UnitResult.error?) with
  | some e => .error e
  | none => .ok (ordered.filterMap UnitResult.graph?)

structure CompileStats where
  functions : Nat := 0
  nodes : Nat := 0
  /-- Direct calls, those of the entry points of exports among them. -/
  callSites : Nat := 0
  /-- Direct calls that do not go to imports. -/
  linked : Nat := 0
deriving DecidableEq, Repr, Inhabited

structure CompiledModule where
  table : CodeTable := {}
  stats : CompileStats := {}
deriving DecidableEq, Repr, Inhabited

namespace CompiledModule

def ofGraphs (m : Module) (graphs : List Graph) : CompiledModule :=
  let table := CodeTable.ofGraphs m graphs
  { table := table.link
    stats :=
      { functions := graphs.length, nodes := (graphs.map Graph.size).sum
        callSites := table.relocs.length, linked := table.linkable } }

def graph? (c : CompiledModule) (m : Module) (index : Nat) : Option Graph :=
  if index < m.functions.length then c.table.entries[index]?.bind Code.graph? else none

end CompiledModule

structure CompileOptions where
  reportAll : Bool := false
  loopAnalysis : Bool := false
deriving DecidableEq, Repr, Inhabited

/-- What one worker does of a module. A compilation that was canceled does nothing. -/
def compileUnits (m : Module) (o : CompileOptions) (canceled : Bool) : List UnitResult :=
  if canceled then []
  else claimed o.reportAll (m.definedIndices.map (compileFunction m o.loopAnalysis))

/-- Compiles a module from what the workers did. A module without functions of its own is compiled even
if the compilation was canceled. -/
def Module.compileWith (m : Module) (o : CompileOptions) (canceled : Bool) (results : List UnitResult) :
    Except Error CompiledModule :=
  if canceled && m.definedCount != 0 then .error (.labelled "compilation canceled" (.ofMark .canceled))
  else (collect o.reportAll results).map (CompiledModule.ofGraphs m)

def Module.compile (m : Module) (o : CompileOptions) (canceled : Bool) : Except Error CompiledModule :=
  m.compileWith o canceled (compileUnits m o canceled)

/-- The number that tells a module that was loaded from any other, even from an equal one. -/
abbrev ModuleKey := Nat

structure CodeCache where
  modules : List (ModuleKey × CompiledModule) := []
deriving DecidableEq, Repr, Inhabited

namespace CodeCache

def find? (c : CodeCache) (key : ModuleKey) : Option CompiledModule := c.modules.lookup key

def insert (c : CodeCache) (key : ModuleKey) (code : CompiledModule) : CodeCache :=
  ⟨(key, code) :: c.modules.filter fun (k, _) => k != key⟩

def delete (c : CodeCache) (key : ModuleKey) : CodeCache :=
  ⟨c.modules.filter fun (k, _) => k != key⟩

def count (c : CodeCache) : Nat := c.modules.length

def stats? (c : CodeCache) (key : ModuleKey) : Option CompileStats := (c.find? key).map CompiledModule.stats

end CodeCache

end ProtoWasm
