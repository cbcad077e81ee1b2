import ProtoWasm.Store.Basic
import ProtoWasm.Value

/-! # Globals -/
namespace ProtoWasm

open Text

namespace GlobalInstance

def text? (t : ValType) (v : UInt64) : Except Defect String :=
  match t with
  | .i32 => .ok s!"global({Value.toI32 v})"
  | .i64 => .ok s!"global({Value.toI64 v})"
  | .f32 => .ok s!"global({fixedPoint .single (Value.low32 v).toNat})"
  | .f64 => .ok s!"global({fixedPoint .double v.toNat})"
  | _ => .error .globalType

def read (g : GlobalInstance) (storage : List UInt8) : Except Defect UInt64 :=
  if g.type.valType.size = 0 then .error .globalType
  else .ok (.ofNat (LittleEndian.decode ((storage.drop g.offset).take g.type.valType.size)))

def write (g : GlobalInstance) (storage : List UInt8) (v : UInt64) : Except Defect (List UInt8) :=
  if g.type.valType.size = 0 then .error .globalType
  else .ok (storage.take g.offset ++ LittleEndian.encode g.type.valType.size v.toNat ++
    storage.drop (g.offset + g.type.valType.size))

end GlobalInstance

namespace Store

open StoreM

def globalValue (g : GlobalId) : StoreM UInt64 := do
  let g ← getGlobal g
  checked (g.read (← expect .unset (← get).storages[g.storage]?))

def setGlobal (g : GlobalId) (v : UInt64) : StoreM Unit := do
  let g ← getGlobal g
  let bytes ← checked (g.write (← expect .unset (← get).storages[g.storage]?) v)
  modify fun s => { s with storages := s.storages.setIfInBounds g.storage bytes }

def globalText (g : GlobalId) : StoreM String := do
  let v ← globalValue g
  checked (GlobalInstance.text? (← getGlobal g).type.valType v)

def addHostGlobal (t : GlobalType) (v : UInt64) : StoreM GlobalId := do
  let storage ← addStorage (List.replicate t.valType.size 0)
  let g ← addGlobal ⟨t, storage, 0⟩
  setGlobal g v
  return g

def addInstanceGlobal (t : GlobalType) (storage : StorageId) (offset : Nat) : StoreM GlobalId := do
  let bytes ← expect .unset (← get).storages[storage]?
  if bytes.length < offset + t.valType.size then defect .range
  else addGlobal ⟨t, storage, offset⟩

def evalConst (globals : List (Option GlobalId)) (e : Option ConstExpr) : StoreM UInt64 := do
  let e ← expect .unset e
  let word (n : Nat) : StoreM UInt64 :=
    if e.data.length < n then defect .range else return .ofNat (LittleEndian.decode (e.data.take n))
  match e.opcode with
  | .i32Const => return Value.ofI32 ((Leb128.decodeSigned .w32 e.data).toOption.map Prod.fst |>.getD 0)
  | .i64Const => return Value.ofI64 ((Leb128.decodeSigned .w64 e.data).toOption.map Prod.fst |>.getD 0)
  | .f32Const => word 4
  | .f64Const => word 8
  | .getGlobal =>
    let i := (Leb128.decodeUnsigned .w32 e.data).toOption.map Prod.fst |>.getD 0
    globalValue (← entry globals i)
  | _ => defect .initializer

def evalOffset (globals : List (Option GlobalId)) (e : Option ConstExpr) : StoreM Int := do
  return Value.toI32 (← evalConst globals e)

end Store

end ProtoWasm
