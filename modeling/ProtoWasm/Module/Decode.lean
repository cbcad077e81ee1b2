import ProtoWasm.Binary.Progress
import ProtoWasm.Error
import ProtoWasm.Module.Basic

/-! # Decoding modules

A module is a magic number, a version and sections. A section has its size and its name in front, so
that one with an unknown name can be skipped. Each known section has a reader that takes the module
read so far and gives it back extended.
-/
namespace ProtoWasm

namespace Module

open Reader

def magic : List UInt8 := [0x00, 0x61, 0x73, 0x6d]

def version : Nat := 0x0b

def maxTableSize : Nat := 10000000

def maxLocals : Nat := 50000

/-- A number of elements. Each takes a byte at least, so that there are no more than bytes. -/
def readCount (what : String) : Reader Nat := do
  let start ← offset
  let n ← u32 (what ++ " count")
  let rest ← remaining
  refuse (rest < n) start (.count what n rest)
  return n

def readValType (what : String) : Reader ValType := do
  let start ← offset
  let b ← byte what
  let t := ValType.ofByte b
  refuse (!t.isValue) start (.valueType what b)
  return t

def readSignatureIndex (m : Module) : Reader (Nat × FuncType) := do
  let start ← offset
  let i ← u32 "signature index"
  match m.signatures[i]? with
  | some t => return (i, t)
  | none => failAt start (.signatureIndex i)

def readSignature (i : Nat) : Reader FuncType := do
  let start ← offset
  let params ← readCount "param"
  let results ← u32 "result count"
  refuse (1 < results) start (.resultCount i results)
  let ps ← times params fun _ => readValType "param type"
  let rs ← times results fun _ => readValType "result type"
  return ⟨ps, rs⟩

def readSignatures (m : Module) : Reader Module := do
  let n ← readCount "signature"
  return { m with signatures := ← times n readSignature }

def readTableType : Reader TableType := do
  let start ← offset
  let min ← u32 "table min"
  let max ← u32 "table max"
  refuse (max < min) start (.tableOrder min max)
  refuse (maxTableSize < max) start (.tableLimit max maxTableSize)
  return { min, max }

def readMemoryType (limit : Nat) : Reader MemoryType := do
  let start ← offset
  let min ← u32 "memory min pages"
  let max ← u32 "memory max pages"
  refuse (limit < max) start (.memoryLimit max limit)
  refuse (max < min) start (.memoryOrder min max)
  return { min, max }

def readGlobalType : Reader GlobalType := do
  let t ← readValType "global type"
  let start ← offset
  let flag ← byte "global mutability"
  refuse (1 < flag.toNat) start (.mutability flag)
  return ⟨t, flag == 1⟩

def readImport (limit : Nat) (m : Module) (i : Nat) : Reader Module := do
  let module ← Reader.name "import module"
  let name ← Reader.name "import field"
  let start ← offset
  let kind ← byte "import kind"
  match ExternKind.ofByte kind with
  | .func =>
    let (typeIndex, type) ← readSignatureIndex m
    return { m with
      imports := m.imports ++ [⟨module, name, .func typeIndex, m.importedFunctions⟩]
      functions := m.functions ++
        [{ typeIndex, type, imported := true, importIndex := m.imports.length }]
      importedFunctions := m.importedFunctions + 1 }
  | .table =>
    refuse (!m.tables.isEmpty) start (.importTable i)
    let t := { ← readTableType with imported := true }
    return { m with
      imports := m.imports ++ [⟨module, name, .table t, 0⟩]
      tables := m.tables ++ [t]
      importedTables := m.importedTables + 1 }
  | .memory =>
    refuse (m.memory.isSome) start (.importMemory i)
    let t := { ← readMemoryType limit with imported := true }
    return { m with
      imports := m.imports ++ [⟨module, name, .memory t, 0⟩]
      memory := some t }
  | .global =>
    let t ← readGlobalType
    return { m with
      imports := m.imports ++ [⟨module, name, .global t, m.importedGlobals⟩]
      globals := m.globals ++ [{ type := t, imported := true }]
      importedGlobals := m.importedGlobals + 1 }
  | .unknown _ => failAt start (.importKind i kind)

def readImports (limit : Nat) (m : Module) : Reader Module := do
  let n ← readCount "import"
  (List.range n).foldlM (readImport limit) m

def readFunctions (m : Module) : Reader Module := do
  let n ← readCount "function"
  let fs ← times n fun _ => do
    let (typeIndex, type) ← readSignatureIndex m
    return ({ typeIndex, type } : Function)
  return { m with functions := m.functions ++ fs }

def readTable (m : Module) : Reader Module := do
  let start ← offset
  let n ← readCount "table"
  refuse (1 < n + m.tables.length) start .secondTable
  let ts ← times n fun _ => readTableType
  return { m with tables := m.tables ++ ts }

def readMemory (limit : Nat) (m : Module) : Reader Module := do
  let start ← offset
  refuse (m.memory.isSome) start .secondMemory
  let t ← readMemoryType limit
  let flag ← byte "memory exported flag"
  refuse (1 < flag.toNat) start (.memoryFlag flag)
  return { m with memory := some { t with exported := flag == 1 } }

def consumed {α : Type} (r : Reader α) : Reader (α × List UInt8) := fun i =>
  match r i with
  | .ok (a, j) => .ok ((a, i.bytes.take (i.remaining - j.remaining)), j)
  | .error e => .error e

/-- The immediate of an initializer and the type of its value. Only imported globals have a value
before the initializers of the module are evaluated. -/
def readInitializerOperand (m : Module) (start : Int) (op : Opcode) : Reader ValType :=
  match op with
  | .i32Const => do let _ ← signed .w32 "i32.const value"; return .i32
  | .i64Const => do let _ ← signed .w64 "i64.const value"; return .i64
  | .f32Const => do let _ ← word 4 "f32.const value"; return .f32
  | .f64Const => do let _ ← word 8 "f64.const value"; return .f64
  | .getGlobal => do
    let here ← offset
    let i ← u32 "global index"
    match if i < m.importedGlobals then m.globals[i]? else none with
    | some g => return g.type.valType
    | none => failAt here (.initializerGlobal i)
  | ⟨code⟩ => failAt start (.initializerOpcode code)

def readConstExpr (m : Module) (want : ValType) : Reader ConstExpr := do
  let start ← offset
  let op : Opcode := ⟨← byte "constant expression opcode"⟩
  let (got, data) ← consumed (readInitializerOperand m start op)
  let stop ← offset
  let b ← byte "constant expression end"
  refuse ((⟨b⟩ : Opcode) ≠ .finish) stop .initializerOpen
  refuse (got ≠ want) start (.initializerType got want)
  return ⟨op, data⟩

def alignUp (n size : Nat) : Nat := (n + size - 1) % 2 ^ 32 / size * size

/-- Gives every global that the module defines a place aligned to its size, one after the other, and
tells how many bytes they take together. The sums have 32 bits. -/
def layoutGlobals : (size : Nat) → List Global → List Global × Nat
  | size, [] => ([], size)
  | size, g :: rest =>
    if g.imported then
      let (gs, total) := layoutGlobals size rest
      (g :: gs, total)
    else
      let place := alignUp size g.type.valType.size
      let (gs, total) := layoutGlobals ((place + g.type.valType.size) % 2 ^ 32) rest
      ({ g with offset := place } :: gs, total)

def readGlobals (m : Module) : Reader Module := do
  let n ← readCount "global"
  let gs ← times n fun _ => do
    let type ← readGlobalType
    return ({ type, init := some (← readConstExpr m type.valType) } : Global)
  let (globals, globalsSize) := layoutGlobals 0 (m.globals ++ gs)
  return { m with globals, globalsSize }

def spaceSize (m : Module) : ExternKind → Option Nat
  | .func => some m.functions.length
  | .table => some m.tables.length
  | .memory => some (if m.memory.isSome then 1 else 0)
  | .global => some m.globals.length
  | .unknown _ => none

def markExported (m : Module) (index : Nat) : Module :=
  { m with functions := m.functions.modify index fun f => { f with exported := true } }

def readExport (m : Module) (i : Nat) : Reader Module := do
  let start ← offset
  let code ← byte "export kind"
  let index ← u32 "export index"
  let name ← Reader.name "export name"
  refuse (m.exports.any (·.name == name)) start (.exportName i name)
  let kind := ExternKind.ofByte code
  match m.spaceSize kind with
  | none => failAt start (.exportKind i code)
  | some limit =>
    refuse (limit ≤ index) start (.exportIndex i kind index)
    let m := if kind = .func then m.markExported index else m
    return { m with exports := m.exports ++ [⟨kind, name, index⟩] }

def readExports (m : Module) : Reader Module := do
  let n ← readCount "export"
  (List.range n).foldlM readExport m

def readStart (m : Module) : Reader Module := do
  let start ← offset
  let i ← u32 "start function index"
  match m.functionType? i with
  | none => failAt start (.startIndex i)
  | some t =>
    refuse (!t.params.isEmpty || !t.results.isEmpty) start (.startSignature t)
    return { m with start := some i }

def readElement (m : Module) (i : Nat) : Reader ElementSegment := do
  let start ← offset
  let table ← u32 "table index"
  refuse (m.tables.length ≤ table) start (.elementTable i table)
  let expr ← readConstExpr m .i32
  let n ← readCount "element"
  let init ← times n fun j => do
    let here ← offset
    let f ← u32 "function index"
    refuse (m.functions.length ≤ f) here (.elementFunction i j f)
    return f
  return ⟨table, some expr, init⟩

def readElements (m : Module) : Reader Module := do
  let n ← readCount "element segment"
  return { m with elements := ← times n (readElement m) }

/-- Declarations of locals, each a number and a type. `total` counts the parameters and the locals
declared so far. -/
def readLocals (total : Nat) : (declarations : Nat) → Reader (List ValType)
  | 0 => return []
  | k + 1 => do
    let start ← offset
    let n ← u32 "local count"
    let t ← readValType "local type"
    let total := total + n
    refuse (maxLocals < total) start (.locals total maxLocals)
    return List.replicate n t ++ (← readLocals total k)

def readBody (params : Nat) : Reader (List ValType × Input) := do
  let n ← readCount "local declaration"
  let ls ← readLocals params n
  return (ls, ← get)

def readDefinition (f : Function) : Reader Function := do
  let size ← u32 "body size"
  let body ← window size "function body"
  let ((locals, code), _) ← inside body (readBody f.type.params.length)
  return { f with locals, body := code.bytes, bodyOffset := Function.offsetWord code.offset.toNat }

def readBodies (m : Module) : Reader Module := do
  let start ← offset
  let n ← readCount "function body"
  let defined := m.definedFunctions
  refuse (n ≠ defined.length) start (.bodyCount defined.length n)
  let fs ← defined.mapM readDefinition
  return { m with functions := m.functions.take m.importedFunctions ++ fs }

def readDataSegment (m : Module) : Reader DataSegment := do
  let expr ← readConstExpr m .i32
  let size ← u32 "data segment size"
  let start ← offset
  let init ← take size "data segment bytes"
  return ⟨some expr, Function.offsetWord start.toNat, init⟩

def readData (m : Module) : Reader Module := do
  let start ← offset
  refuse (m.memory.isNone) start .dataWithoutMemory
  let n ← readCount "data segment"
  return { m with data := ← times n fun _ => readDataSegment m }

/-- The name of a function and of its locals, which are not kept. -/
def readFunctionName : Reader String := do
  let name ← Reader.name "function name"
  let n ← readCount "local name"
  let _ ← times n fun _ => Reader.name "local name"
  return name

def nameFunctions (m : Module) (names : List String) : Module :=
  let defined := m.definedFunctions
  let named := (defined.zip names).map fun (f, name) => { f with name }
  { m with
    functions := m.functions.take m.importedFunctions ++ named ++ defined.drop names.length }

def readNames (m : Module) : Reader Module := do
  let n ← readCount "function name"
  let defined := m.definedCount
  refuse (defined < n) (← offset) (.nameCount n defined)
  return m.nameFunctions (← times n fun _ => readFunctionName)

def readContents (limit : Nat) (s : Section) (m : Module) : Reader Module :=
  match s with
  | .signatures => readSignatures m
  | .importTable => readImports limit m
  | .functionSignatures => readFunctions m
  | .table => readTable m
  | .memory => readMemory limit m
  | .globals => readGlobals m
  | .exportTable => readExports m
  | .startFunction => readStart m
  | .elements => readElements m
  | .functionBodies => readBodies m
  | .dataSegments => readData m
  | .names => readNames m
  | .finish => return m

/-- The offset at which a section starts, and what follows its size. -/
def readSection : Reader (Int × Input) := do
  let start ← offset
  let size ← u32 "section size"
  return (start, ← window size "section")

theorem remaining_readSection_lt {i j : Input} {r : Int × Input}
    (h : readSection i = .ok (r, j)) : j.remaining < i.remaining := by
  have hrest (start : Int) (size : Nat) :
      Shrinks (window size "section" >>= fun w => pure (start, w)) :=
    ((advances_window size "section").bind fun _ => advances_pure _).shrinks
  change Except.bind (u32 "section size" i) (fun v =>
    (window v.1 "section" >>= fun w => pure (i.offset, w) : Reader _) v.2) = .ok (r, j) at h
  cases hs : u32 "section size" i with
  | error e =>
    rw [hs] at h
    cases h
  | ok v =>
    rw [hs] at h
    exact Nat.lt_of_le_of_lt (hrest i.offset v.1 v.2 r j h) (remaining_unsigned_lt hs)

structure Partial where
  module : Module := {}
  seen : List Section := []
deriving Inhabited

/-- Reads sections until the input or the section that ends a module, and gives the offset there. -/
def decodeSections (limit : Nat) (p : Partial) (i : Input) : Except Error (Partial × Int) :=
  if i.remaining = 0 then .ok (p, i.offset)
  else match _h : readSection i with
    | .error e => .error (e.inContext "")
    | .ok ((start, body), rest) =>
      match Reader.name "section name" body with
      | .error e => .error (e.inContext "")
      | .ok (name, body) =>
        match Section.ofName? name with
        | none => decodeSections limit p rest
        | some .finish => .ok (p, rest.offset)
        | some s =>
          match s.checkOrder p.seen with
          | some fault => .error (ReadError.inContext ⟨start, .order fault⟩ name)
          | none =>
            match readContents limit s p.module body with
            | .error e => .error (e.inContext name)
            | .ok (m, left) =>
              if left.remaining = 0 then decodeSections limit ⟨m, p.seen ++ [s]⟩ rest
              else .error (ReadError.inContext ⟨left.offset, .unread left.remaining⟩ name)
termination_by i.remaining
decreasing_by all_goals exact remaining_readSection_lt _h

def readHeader : Reader Unit := do
  let found ← take 4 "magic number"
  refuse (found ≠ magic) 0 (.magic found)
  let v ← word 4 "version"
  refuse (v ≠ version) 4 (.version v version)

/-- A header that is too short is named; one with other contents is not. -/
def headerContext : Fault → String
  | .short .. => "header"
  | _ => ""

def effectiveLimit (maxPages : Nat) : Nat := if maxPages = 0 then Memory.maxPages else maxPages

/-- Decodes a module whose memory has at most `maxPages` pages, where zero sets no limit of its own. -/
def decode (source : List UInt8) (maxPages : Nat) : Except Error Module :=
  match readHeader ⟨source, 0⟩ with
  | .error e => .error (e.inContext (headerContext e.fault))
  | .ok (_, i) =>
    match decodeSections (effectiveLimit maxPages) {} i with
    | .error e => .error e
    | .ok (p, stop) =>
      let defined := p.module.definedCount
      let bodies := if .functionBodies ∈ p.seen then defined else 0
      if bodies = defined then .ok p.module
      else .error (ReadError.inContext ⟨stop, .bodyCount defined bodies⟩ Section.functionBodies.name)

end Module

end ProtoWasm
