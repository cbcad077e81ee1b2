import ProtoWasm.Binary.Reader
import ProtoWasm.Opcode

/-! # Errors

Errors form chains: an error may name a cause, which is an error again. Some causes are marks that a
caller looks for anywhere in a chain. The wording of every error is in this module.
-/
namespace ProtoWasm

open Text
open Memory (pagesText)

/-- Offsets are shown as signed 64-bit numbers. -/
def offsetText (offset : Int) : String := toString (offset.bmod (2 ^ 64))

inductive Mark where
  | overflow32
  | overflow64
  | unexpectedEnd
  | endOfBuffer
  | importNotFound
  | importMismatch
  | dataOutOfBounds
  | elementOutOfBounds
  | startFunction
  | memoryLimit
  | outOfMemory
  | unreachable
  | memoryAccess
  | divideByZero
  | integerOverflow
  | invalidConversion
  | tableAccess
  | callTypeMismatch
  | callStackOverflow
  | hostFunction
  | noExecutor
  | guardUnsupported
  | canceled
deriving DecidableEq, Repr, Inhabited

namespace Mark

def text : Mark → String
  | overflow32 => "overflows a 32-bit integer"
  | overflow64 => "overflows a 64-bit integer"
  | unexpectedEnd => "unexpected EOF"
  | endOfBuffer => "unexpected end of buffer"
  | importNotFound => "import not found"
  | importMismatch => "import mismatch"
  | dataOutOfBounds => "data segment out of bounds"
  | elementOutOfBounds => "element segment out of bounds"
  | startFunction => "start function failed"
  | memoryLimit => "memory limit exceeded"
  | outOfMemory => "out of memory"
  | unreachable => "unreachable"
  | memoryAccess => "out of bounds memory access"
  | divideByZero => "integer divide by zero"
  | integerOverflow => "integer overflow"
  | invalidConversion => "invalid conversion to integer"
  | tableAccess => "invalid table access"
  | callTypeMismatch => "indirect call type mismatch"
  | callStackOverflow => "callstack overflow"
  | hostFunction => "host function failed"
  | noExecutor => "no executor configured"
  | guardUnsupported => "guard regions unsupported"
  | canceled => "context canceled"

def all : List Mark :=
  [overflow32, overflow64, unexpectedEnd, endOfBuffer, importNotFound, importMismatch,
   dataOutOfBounds, elementOutOfBounds, startFunction, memoryLimit, outOfMemory, unreachable,
   memoryAccess, divideByZero, integerOverflow, invalidConversion, tableAccess, callTypeMismatch,
   callStackOverflow, hostFunction, noExecutor, guardUnsupported, canceled]

end Mark

inductive TrapKind where
  | unreachable
  | memoryOutOfBounds
  | divideByZero
  | integerOverflow
  | invalidConversion
  | tableOutOfBounds
  | signatureMismatch
  | callStackOverflow
  | hostFunction
  | unknown (code : UInt8)
deriving DecidableEq, Repr, Inhabited

namespace TrapKind

def known : List TrapKind :=
  [unreachable, memoryOutOfBounds, divideByZero, integerOverflow, invalidConversion,
   tableOutOfBounds, signatureMismatch, callStackOverflow, hostFunction]

def ofByte (b : UInt8) : TrapKind :=
  if b = 0 then unknown b else (known[b.toNat - 1]?).getD (unknown b)

def toByte : TrapKind → UInt8
  | unreachable => 1
  | memoryOutOfBounds => 2
  | divideByZero => 3
  | integerOverflow => 4
  | invalidConversion => 5
  | tableOutOfBounds => 6
  | signatureMismatch => 7
  | callStackOverflow => 8
  | hostFunction => 9
  | unknown b => b

def mark? : TrapKind → Option Mark
  | unreachable => some .unreachable
  | memoryOutOfBounds => some .memoryAccess
  | divideByZero => some .divideByZero
  | integerOverflow => some .integerOverflow
  | invalidConversion => some .invalidConversion
  | tableOutOfBounds => some .tableAccess
  | signatureMismatch => some .callTypeMismatch
  | callStackOverflow => some .callStackOverflow
  | hostFunction => some .hostFunction
  | unknown _ => none

def text : TrapKind → String
  | unknown b => s!"trap kind {b.toNat}"
  | k => (k.mark?.map Mark.text).getD ""

end TrapKind

/-- A cause at the end of a chain. -/
inductive Reason where
  | mark (m : Mark)
  | importKind (expected found : ExternKind)
  | importSignature (found expected : FuncType)
  | importTable (size max expectedMin expectedMax : Nat)
  | importMemory (pages max expectedMin expectedMax : Nat)
  | importGlobalType (found expected : ValType)
  | importMutability
  | importValue (typeName : String)
  | dataBounds (offset : Int) (count size : Nat)
  | elementBounds (offset : Int) (count size : Nat)
  | growLimit (pages delta max : Nat)
  | reserve (maxPages size reservation : Nat)
  | growCommit (size reservation : Nat)
  | commit (size reservation : Nat)
  | notCompiled (name : String)
  | importUnbound (index : Nat)
  | sitesUnlinked (count : Nat)
  | moduleClosed (name : String)
  | functionElsewhere (function module : String)
  | functionUnlinked (index : Nat)
  | notACall (node function : Nat)
  | notAnIndirectCall (node function : Nat)
  | paramCount (expected passed : Nat)
  | moduleWithoutMemory (name : String)
  | moduleInUse (name : String)
  | closeByHost (name : String)
  | functionMissing
  | multipleResults
  | valueType (code : UInt8)
  | hostMemoryLimit (max limit : Nat)
  | hostMemoryOrder (min max : Nat)
  | hostTableOrder (min max : Nat)
  | sourceMissing
  | sourceShort
  | compiledModule (typeName : String)
  | duplicateCollector
  | text (message : String)
deriving DecidableEq, Repr

namespace Reason

def mark? : Reason → Option Mark
  | mark m => some m
  | importKind .. | importSignature .. | importTable .. | importMemory .. | importGlobalType ..
  | importMutability | importValue .. => some .importMismatch
  | dataBounds .. => some .dataOutOfBounds
  | elementBounds .. => some .elementOutOfBounds
  | growLimit .. => some .memoryLimit
  | reserve .. | growCommit .. => some .outOfMemory
  | _ => none

private def detail : Reason → String
  | mark _ => ""
  | importKind expected found => s!"expected {expected.name}, but was {found.name}"
  | importSignature found expected => s!"signature {found.text} != {expected.text}"
  | importTable size max lo hi => s!"table size {size} max {max}, expected min {lo} max {hi}"
  | importMemory pages max lo hi => s!"memory pages {pages} max {max}, expected min {lo} max {hi}"
  | importGlobalType found expected => s!"global type {found.name} != {expected.name}"
  | importMutability => "global mutability"
  | importValue typeName => s!"unsupported function value {typeName}"
  | dataBounds offset n size => s!"offset {offset} + size {n} > memory size {size}"
  | elementBounds offset n size => s!"offset {offset} + size {n} > table size {size}"
  | growLimit pages delta max => s!"{pages} + {delta} pages > max {max} pages"
  | reserve max size reservation =>
    s!"reserve {pagesText max}: commit {size} exceeds reservation {reservation}"
  | growCommit size reservation | commit size reservation =>
    s!"commit {size} exceeds reservation {reservation}"
  | notCompiled name => s!"source module for {name} must be compiled before instantiation"
  | importUnbound i => s!"BUG: imported function[{i}] is not bound"
  | sitesUnlinked n => s!"{n} call sites are not linked"
  | moduleClosed name => s!"module[{name}] is closed"
  | functionElsewhere f m => s!"function {f} is not in module[{m}]"
  | functionUnlinked i => s!"function[{i}] is not linked"
  | notACall node f => s!"#{node} is not a call in function[{f}]"
  | notAnIndirectCall node f => s!"#{node} is not an indirect call in function[{f}]"
  | paramCount expected passed => s!"expected {expected} params, but passed {passed}"
  | moduleWithoutMemory name => s!"module[{name}] has no memory"
  | moduleInUse name => s!"module[{name}] has already been instantiated"
  | closeByHost name => s!"module[{name}] can't be closed by a host function"
  | functionMissing => "function is nil"
  | multipleResults => "multiple result types invalid as feature \"multi-value\" is disabled"
  | valueType code => s!"invalid value type: {hexNumber code.toNat}"
  | hostMemoryLimit max limit =>
    s!"memory max {max} pages ({pagesText max}) over limit of {limit} pages ({pagesText limit})"
  | hostMemoryOrder min max => s!"memory min {min} pages > max {max} pages"
  | hostTableOrder min max => s!"table min {min} > max {max}"
  | sourceMissing => "source == nil"
  | sourceShort => "invalid source"
  | compiledModule typeName => s!"unsupported compiled module {typeName}"
  | duplicateCollector => "duplicate metrics collector registration attempted"
  | text message => message

def message : Reason → String
  | mark m => m.text
  | r => match r.mark? with
    | some m => s!"{m.text}: {r.detail}"
    | none => r.detail

end Reason

structure ValidationError where
  function : Nat
  offset : Int
  opcode : Opcode
  /-- The names of the types that differ, or empty. -/
  expected : String := ""
  found : String := ""
  text : String
deriving DecidableEq, Repr

namespace ValidationError

private def opcodeText (op : Opcode) : String :=
  if op.name = "" then s!"opcode {hexNumber op.code.toNat}" else op.name

def message (e : ValidationError) : String :=
  s!"invalid function ${e.function} @+{offsetText e.offset} ({opcodeText e.opcode}): {e.text}"

end ValidationError

inductive Error where
  | because (reason : Reason)
  | cursor (offset : Int) (text : String) (cause : Option Error)
  | decode (offset : Int) (context text : String) (cause : Option Error)
  | validation (e : ValidationError)
  | instantiation (module stage : String) (cause : Error)
  | call (module function : String) (cause : Error)
  | trap (kind : TrapKind) (offset : Nat) (cause : Option Error)
  | labelled (label : String) (cause : Error)
  /-- A cause with a mark in front, which can be looked for too. -/
  | marked (mark : Mark) (cause : Error)
  | several (errors : List Error)
deriving Inhabited

namespace Error

def ofMark (m : Mark) : Error := .because (.mark m)

def ofText (s : String) : Error := .because (.text s)

mutual

def message : Error → String
  | because r => r.message
  | cursor offset text none => s!"{text} @+{offsetText offset}"
  | cursor offset text (some cause) => s!"{text} @+{offsetText offset}: {message cause}"
  | decode offset context text _ =>
    if context = "" then s!"decode error @+{offsetText offset}: {text}"
    else s!"decode error in {context} @+{offsetText offset}: {text}"
  | validation e => e.message
  | instantiation m stage cause => s!"instantiate module {quote m}: {stage}: {message cause}"
  | call m f cause => s!"wasm error calling {m}.{f}: {message cause}"
  | trap kind offset none => s!"wasm trap @+{offset}: {kind.text}"
  | trap kind offset (some cause) => s!"wasm trap @+{offset}: {kind.text}: {message cause}"
  | labelled label cause => s!"{label}: {message cause}"
  | marked m cause => s!"{m.text}: {message cause}"
  | several errors => "; ".intercalate (messages errors)

def messages : List Error → List String
  | [] => []
  | e :: rest => message e :: messages rest

end

mutual

def hasMark (m : Mark) : Error → Bool
  | because r => r.mark? == some m
  | cursor _ _ none => false
  | cursor _ _ (some cause) => hasMark m cause
  | decode _ _ _ none => false
  | decode _ _ _ (some cause) => hasMark m cause
  | validation _ => false
  | instantiation _ _ cause => hasMark m cause
  | call _ _ cause => hasMark m cause
  | trap kind _ none => kind.mark? == some m
  | trap kind _ (some cause) => kind.mark? == some m || hasMark m cause
  | labelled _ cause => hasMark m cause
  | marked m' cause => m' == m || hasMark m cause
  | several errors => anyHasMark m errors

def anyHasMark (m : Mark) : List Error → Bool
  | [] => false
  | e :: rest => hasMark m e || anyHasMark m rest

end

def marks (e : Error) : List Mark := Mark.all.filter fun m => e.hasMark m

mutual

def trap? : Error → Option (TrapKind × Nat)
  | trap kind offset _ => some (kind, offset)
  | cursor _ _ (some cause) => trap? cause
  | decode _ _ _ (some cause) => trap? cause
  | instantiation _ _ cause => trap? cause
  | call _ _ cause => trap? cause
  | labelled _ cause => trap? cause
  | marked _ cause => trap? cause
  | several errors => firstTrap? errors
  | _ => none

def firstTrap? : List Error → Option (TrapKind × Nat)
  | [] => none
  | e :: rest => match trap? e with
    | some t => some t
    | none => firstTrap? rest

end

mutual

/-- The module and function of the first failed call of a chain, from the outside. -/
def call? : Error → Option (String × String)
  | call m f _ => some (m, f)
  | cursor _ _ (some cause) => call? cause
  | decode _ _ _ (some cause) => call? cause
  | instantiation _ _ cause => call? cause
  | trap _ _ (some cause) => call? cause
  | labelled _ cause => call? cause
  | marked _ cause => call? cause
  | several errors => firstCall? errors
  | _ => none

def firstCall? : List Error → Option (String × String)
  | [] => none
  | e :: rest => match call? e with
    | some c => some c
    | none => firstCall? rest

end

/-- Combines the errors of several parts: none gives no error and one gives itself. -/
def combine? : List Error → Option Error
  | [] => none
  | [e] => some e
  | es => some (.several es)

def parts : Error → List Error
  | several es => es
  | e => [e]

end Error

def Leb128.Fault.mark (w : Leb128.Width) : Leb128.Fault → Mark
  | .truncated => .unexpectedEnd
  | .overflow => match w with
    | .w32 => .overflow32
    | .w64 => .overflow64

def Fault.mark? : Fault → Option Mark
  | short .. | missing .. => some .endOfBuffer
  | varint _ .w32 => some .overflow32
  | varint _ .w64 => some .overflow64
  | _ => none

namespace ReadError

def cause (e : ReadError) : Option Error := e.fault.mark?.map Error.ofMark

def toError (e : ReadError) : Error := .cursor e.offset e.fault.message e.cause

def inContext (e : ReadError) (context : String) : Error :=
  .decode e.offset context e.fault.message e.cause

end ReadError

end ProtoWasm
