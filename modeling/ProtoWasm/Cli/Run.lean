import ProtoWasm.Cli.Command
import ProtoWasm.Cli.Directory
import ProtoWasm.Embedding.Basic
import ProtoWasm.Graph.Format
import ProtoWasm.Module.Encode
import ProtoWasm.Module.Lookup

/-! # Commands turn the bytes of a file into a report -/
namespace ProtoWasm.Cli

open Text

structure Report where
  output : String := ""
  errors : String := ""
  failed : Bool := false
deriving DecidableEq, Repr, Inhabited

namespace Report

def exitCode (r : Report) : UInt8 := if r.failed then 1 else 0

def line (s : String) : String := s ++ "\n"

def fail (output : String) (messages : List String) : Report :=
  { output, errors := String.join (messages.map line), failed := true }

def logged (r : Report) (verbose : Bool) (lines : List String) : Report :=
  if verbose then { r with errors := String.join (lines.map line) ++ r.errors } else r

end Report

def versionText : String := "dev"

def validate (source : List UInt8) (reportAll : Bool) : Report :=
  match Module.decodeValid source 0 reportAll with
  | .ok _ => { output := "ok\n" }
  | .error e => .fail "" (e.parts.map Error.message)

def statsText (s : CompileStats) : String :=
  s!"functions: {s.functions}\nnodes: {s.nodes}\ncall sites: {s.callSites}\nlinked: {s.linked}\n"

def compiled (source : List UInt8) (options : CompileOptions) : Except Error CompiledModule := do
  if source.length < Embedding.minSource then .error (.because .sourceShort)
  else (← Module.decode source Memory.maxPages).compile options false

def compile (source : List UInt8) (options : CompileOptions) : Report :=
  match compiled source options with
  | .ok code => { output := statsText code.stats }
  | .error e => .fail "" (e.parts.map Error.message)

def functionLine (m : Module) (i : Nat) : String :=
  let f := m.functions[i]?.getD default
  let (start, stop) := f.codeRange
  s!"  [{i}] {m.functionName i} {f.type.text} locals={f.locals.length} code=[{start},{stop})"

def moduleLines (m : Module) : List String :=
  [s!"signatures: {m.signatures.length}"] ++
  m.signatures.zipIdx.map (fun (t, i) => s!"  [{i}] {t.text}") ++
  [s!"imports: {m.imports.length}"] ++
  m.imports.map (fun i => s!"  {i.desc.kind.name} {i.module}.{i.name}") ++
  [s!"functions: {m.functions.length} ({m.importedFunctions} imported)"] ++
  m.definedIndices.map (functionLine m) ++
  (m.memory.map fun t => s!"memory: min={t.min} max={t.max} pages imported={t.imported}").toList ++
  [s!"globals: {m.globals.length} ({m.globalsSize} bytes)", s!"tables: {m.tables.length}",
   s!"element segments: {m.elements.length}", s!"data segments: {m.data.length}",
   s!"exports: {m.exports.length}"] ++
  m.exports.map (fun e => s!"  {e.kind.name} {e.name} -> {e.index}") ++
  (m.start.map fun i => s!"start: {m.functionName i}").toList

def reencodeLine (m : Module) (source : List UInt8) : String :=
  let encoded := m.encode
  if encoded = source then "reencode: identical"
  else s!"reencode: differs ({encoded.length} bytes, source {source.length} bytes)"

def inspectGraph (m : Module) (name output : String) (verbose : Bool) : Report :=
  match m.findFunction? name with
  | none => .fail output [s!"function {quote name} not found"]
  | some i =>
    if (m.functions[i]?.map Function.imported).getD false then
      .fail output [s!"function {quote name} is imported"]
    else
      let report : Report := match m.compile {} false with
        | .error e => .fail output [e.message]
        | .ok code =>
          { output := output ++ s!"graph {name}:\n" ++ ((code.graph? m i).map Graph.text).getD "" }
      report.logged verbose [s!"compiling {m.definedCount} functions"]

def inspect (source : List UInt8) (graph : String) (reencode verbose : Bool) : Report :=
  match Module.decode source 0 with
  | .error e => .fail "" [e.message]
  | .ok m =>
    let lines := moduleLines m ++ if reencode then [reencodeLine m source] else []
    let output := String.join (lines.map Report.line)
    if graph = "" then { output } else inspectGraph m graph output verbose

def overview : String :=
  "Decode, validate and compile pre-MVP binary modules\n\nUsage:\n" ++
    s!"  {program} [command]\n\nAvailable Commands:\n" ++
    String.join (Command.all.map fun c => s!"  {c.name}\n")

def runOn (c : Command) (p : Parsed) (source : List UInt8) : Report :=
  let verbose := p.switch Command.verboseFlag.name
  match c with
  | .validate => validate source (p.switch "report-all")
  | .compile =>
    (compile source ⟨p.switch "report-all", p.switch "loop-analysis"⟩).logged verbose
      [s!"compiling {source.length} bytes"]
  | .inspect => inspect source (p.text "graph") (p.switch "reencode") verbose
  | .version => { output := Report.line versionText }
  | .help | .completion | .completionFor _ => { output := overview }

inductive Plan where
  | report (r : Report)
  | read (path : String) (next : List UInt8 → Report)

def plan (args : List String) : Plan :=
  match readArguments args with
  | .error e => .report (.fail "" [e.message])
  | .ok .overview => .report { output := overview }
  | .ok (.command c p) => match c.arity, p.arguments with
    | .exactly _, path :: _ => .read path (runOn c p)
    | _, _ => .report (runOn c p [])

def Plan.resume (path : String) (next : List UInt8 → Report) : Except FileFault (List UInt8) → Report
  | .ok bytes => next bytes
  | .error e => .fail "" [e.message path]

def run (args : List String) (d : Directory) : Report :=
  match plan args with
  | .report r => r
  | .read path next => Plan.resume path next (d.read path)

end ProtoWasm.Cli
