import ProtoWasm.Module.Decode

/-! # Encoding modules, each section in its order unless it is empty -/
namespace ProtoWasm.Module

open Leb128 (encodeUnsigned)

def encodeName (name : String) : List UInt8 :=
  let bytes := name.toUTF8.data.toList
  encodeUnsigned bytes.length ++ bytes

def encodeSection (name : String) (contents : List UInt8) : List UInt8 :=
  let payload := encodeName name ++ contents
  encodeUnsigned payload.length ++ payload

def encodeVector {α : Type} (s : Section) (encodeElement : α → List UInt8) (xs : List α) :
    List UInt8 :=
  if xs.isEmpty then []
  else encodeSection s.name (encodeUnsigned xs.length ++ xs.flatMap encodeElement)

def encodeTypes (ts : List ValType) : List UInt8 := ts.map ValType.toByte

def encodeSignature (t : FuncType) : List UInt8 :=
  encodeUnsigned t.params.length ++ encodeUnsigned t.results.length ++
    encodeTypes t.params ++ encodeTypes t.results

def encodeLimits (min max : Nat) : List UInt8 := encodeUnsigned min ++ encodeUnsigned max

def encodeFlag (b : Bool) : UInt8 := if b then 1 else 0

def encodeGlobalType (t : GlobalType) : List UInt8 := [t.valType.toByte, encodeFlag t.isMutable]

def encodeDesc : ImportDesc → List UInt8
  | .func signature => encodeUnsigned signature
  | .table t => encodeLimits t.min t.max
  | .memory t => encodeLimits t.min t.max
  | .global t => encodeGlobalType t
  | .unknown _ => []

def encodeImport (i : Import) : List UInt8 :=
  encodeName i.module ++ encodeName i.name ++ i.desc.kind.toByte :: encodeDesc i.desc

def encodeConstExpr (e : ConstExpr) : List UInt8 := e.opcode.code :: e.data ++ [Opcode.finish.code]

def encodeInitializer (e : Option ConstExpr) : List UInt8 := (e.map encodeConstExpr).getD []

def encodeMemory (t : MemoryType) : List UInt8 := encodeLimits t.min t.max ++ [encodeFlag t.exported]

def encodeGlobal (g : Global) : List UInt8 := encodeGlobalType g.type ++ encodeInitializer g.init

def encodeExport (e : Export) : List UInt8 :=
  e.kind.toByte :: encodeUnsigned e.index ++ encodeName e.name

def encodeElement (e : ElementSegment) : List UInt8 :=
  encodeUnsigned e.table ++ encodeInitializer e.offset ++ encodeUnsigned e.init.length ++
    e.init.flatMap encodeUnsigned

def encodeData (d : DataSegment) : List UInt8 :=
  encodeInitializer d.offset ++ encodeUnsigned d.init.length ++ d.init

def runs {α : Type} [DecidableEq α] : List α → List (Nat × α)
  | [] => []
  | x :: xs =>
    match runs xs with
    | (n, y) :: rest => if x = y then (n + 1, y) :: rest else (1, x) :: (n, y) :: rest
    | [] => [(1, x)]

def encodeLocals (ts : List ValType) : List UInt8 :=
  let rs := runs ts
  encodeUnsigned rs.length ++ rs.flatMap fun (n, t) => encodeUnsigned n ++ [t.toByte]

def encodeBody (f : Function) : List UInt8 :=
  let body := encodeLocals f.locals ++ f.body
  encodeUnsigned body.length ++ body

def encodeNames (fs : List Function) : List UInt8 :=
  let named := (fs.reverse.dropWhile (·.name == "")).reverse
  if named.isEmpty then []
  else encodeSection Section.names.name
    (encodeUnsigned named.length ++ named.flatMap fun f => encodeName f.name ++ [0])

def encodeOption {α : Type} (s : Section) (encodeContents : α → List UInt8) : Option α → List UInt8
  | none => []
  | some a => encodeSection s.name (encodeContents a)

def ownMemory (m : Module) : Option MemoryType := m.memory.filter (!·.imported)

def header : List UInt8 := magic ++ LittleEndian.encode 4 version

def encode (m : Module) : List UInt8 :=
  let defined := m.definedFunctions
  header ++
    encodeVector .signatures encodeSignature m.signatures ++
    encodeVector .importTable encodeImport m.imports ++
    encodeVector .functionSignatures (encodeUnsigned ·.typeIndex) defined ++
    encodeVector .table (fun t => encodeLimits t.min t.max) (m.tables.drop m.importedTables) ++
    encodeOption .memory encodeMemory m.ownMemory ++
    encodeVector .globals encodeGlobal (m.globals.drop m.importedGlobals) ++
    encodeVector .exportTable encodeExport m.exports ++
    encodeOption .startFunction encodeUnsigned m.start ++
    encodeVector .elements encodeElement m.elements ++
    encodeVector .functionBodies encodeBody defined ++
    encodeVector .dataSegments encodeData m.data ++
    encodeNames defined

end ProtoWasm.Module
