import ProtoWasm.Binary.Leb128
import ProtoWasm.ExternKind
import ProtoWasm.FuncType
import ProtoWasm.Memory.Pages
import ProtoWasm.Module.Section
import ProtoWasm.Text.Quoted

/-! # What can be wrong with the bytes of a module

One constructor for every cause, and the wording of all of them in one place. The first group comes
from reading single values, the others from the rules of a section.
-/
namespace ProtoWasm

open Text

inductive Fault where
  | short (what : String) (count : Nat)
  | varint (what : String) (width : Leb128.Width)
  | missing (what : String)
  | notUtf8 (what : String)
  | note (text : String)
  | count (what : String) (found remaining : Nat)
  | valueType (what : String) (code : UInt8)
  | magic (found : List UInt8)
  | version (found expected : Nat)
  | order (fault : Section.OrderFault)
  | unread (count : Nat)
  | signatureIndex (index : Nat)
  | resultCount (signature found : Nat)
  | importKind (index : Nat) (kind : UInt8)
  | importTable (index : Nat)
  | importMemory (index : Nat)
  | secondTable
  | tableOrder (min max : Nat)
  | tableLimit (max limit : Nat)
  | secondMemory
  | memoryLimit (max limit : Nat)
  | memoryOrder (min max : Nat)
  | memoryFlag (flag : UInt8)
  | mutability (flag : UInt8)
  | initializerGlobal (index : Nat)
  | initializerOpcode (code : UInt8)
  | initializerOpen
  | initializerType (found expected : ValType)
  | exportName (index : Nat) (name : String)
  | exportKind (index : Nat) (kind : UInt8)
  | exportIndex (index : Nat) (kind : ExternKind) (target : Nat)
  | startIndex (index : Nat)
  | startSignature (found : FuncType)
  | elementTable (segment index : Nat)
  | elementFunction (segment position index : Nat)
  | bodyCount (defined bodies : Nat)
  | locals (total limit : Nat)
  | dataWithoutMemory
  | nameCount (names defined : Nat)
  | branchTable (count : Nat)
deriving DecidableEq, Repr

namespace Fault

open Memory (pagesText)

def message : Fault → String
  | short what n => s!"{what}: expected {n} bytes, fell off end"
  | varint what _ => s!"invalid {what} varint"
  | missing what => s!"expected {what}"
  | notUtf8 what => s!"{what} is not valid UTF-8"
  | note text => text
  | count what n rest => s!"{what} count {n} exceeds remaining {rest} bytes"
  | valueType what code => s!"invalid {what} {hexNumber code.toNat}"
  | magic found => s!"invalid magic number 0x{hexBytes found}"
  | version found expected =>
    s!"invalid version {hexNumber found}, expected {hexNumber expected}"
  | order fault => fault.message
  | unread n => s!"{n} unread bytes at end of section"
  | signatureIndex i => s!"signature index {i} out of range"
  | resultCount i n => s!"signature[{i}] result count {n} > 1"
  | importKind i kind => s!"import[{i}] invalid kind {hexNumber kind.toNat}"
  | importTable i => s!"import[{i}] at most one table allowed"
  | importMemory i => s!"import[{i}] at most one memory allowed"
  | secondTable => "at most one table allowed"
  | tableOrder min max => s!"table min {min} > max {max}"
  | tableLimit max limit => s!"table max {max} > limit {limit}"
  | secondMemory => "at most one memory allowed"
  | memoryLimit max limit =>
    s!"max {max} pages ({pagesText max}) outside range of {limit} pages ({pagesText limit})"
  | memoryOrder min max =>
    s!"min {min} pages ({pagesText min}) > max {max} pages ({pagesText max})"
  | memoryFlag flag => s!"invalid memory exported flag {hexNumber flag.toNat}"
  | mutability flag => s!"invalid global mutability {hexNumber flag.toNat}"
  | initializerGlobal i => s!"constant expression global index {i} is not an imported global"
  | initializerOpcode code => s!"invalid constant expression opcode {hexNumber code.toNat}"
  | initializerOpen => "constant expression not terminated by end"
  | initializerType found expected =>
    s!"constant expression type {found.name} != {expected.name}"
  | exportName i name => s!"export[{i}] duplicate name {quote name}"
  | exportKind i kind => s!"export[{i}] invalid kind {hexNumber kind.toNat}"
  | exportIndex i kind target => s!"export[{i}] {kind.name} index {target} out of range"
  | startIndex i => s!"start function index {i} out of range"
  | startSignature found => s!"start function must have signature v_v, but was {found.text}"
  | elementTable i index => s!"element[{i}] table index {index} out of range"
  | elementFunction i j index => s!"element[{i}].init[{j}] function index {index} out of range"
  | bodyCount defined bodies => s!"function and body count mismatch ({defined} != {bodies})"
  | locals total limit => s!"too many locals: {total} > {limit}"
  | dataWithoutMemory => "data segments declared without memory"
  | nameCount names defined =>
    s!"function name count {names} exceeds defined function count {defined}"
  | branchTable n => s!"branch table count {n} too large"

end Fault

end ProtoWasm
