import ProtoWasm.Error

/-! # Names of modules and of their fields -/
namespace ProtoWasm

def assign {κ α : Type} [BEq κ] (k : κ) (a : α) : List (κ × α) → List (κ × α)
  | [] => [(k, a)]
  | (k', b) :: rest => if k' == k then (k, a) :: rest else (k', b) :: assign k a rest

structure Namespace (α : Type) where
  modules : List (String × List (String × α)) := []
deriving Inhabited

namespace Namespace

variable {α : Type}

def entries? (ns : Namespace α) (module : String) : Option (List (String × α)) :=
  ns.modules.lookup module

def resolve? (ns : Namespace α) (module field : String) : Option α :=
  (ns.entries? module).bind fun fields => fields.lookup field

def register (ns : Namespace α) (module field : String) (a : α) : Namespace α :=
  ⟨assign module (assign field a ((ns.entries? module).getD [])) ns.modules⟩

def has (ns : Namespace α) (module : String) : Bool := (ns.entries? module).isSome

def fields (ns : Namespace α) (module : String) : List String :=
  (((ns.entries? module).getD []).map Prod.fst).mergeSort fun a b => a ≤ b

def remove (ns : Namespace α) (module : String) : Namespace α :=
  ⟨ns.modules.filter fun (name, _) => name != module⟩

def requireUnused (ns : Namespace α) (module : String) : Except Error Unit :=
  if ns.has module then .error (.because (.moduleInUse module)) else .ok ()

end Namespace

end ProtoWasm
