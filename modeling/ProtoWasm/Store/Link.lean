import ProtoWasm.Store.Basic

/-! # The code of an instance -/
namespace ProtoWasm.Store

open StoreM

def importCode (index : Nat) (f : FunctionId) : StoreM Code := do
  let callee ← getFunction f
  let linked := (← getInstance callee.owner).code.isSome
  if callee.host.isNone && (← get).config.shortcut && linked then return .reuse index f
  else return .importAdapter index f

def bindImports (functions : List (Option FunctionId)) : (count index : Nat) → CodeTable → Action CodeTable
  | 0, _, t => return t
  | count + 1, index, t => do
    match functions[index]? with
    | none => defect .index
    | some none => throw (.because (.importUnbound index))
    | some (some f) =>
      let code ← importCode index f
      if t.entries.length ≤ index then defect .index
      else bindImports functions count (index + 1) (t.setEntry index code)

def linkInstance (name : String) (key : ModuleKey) (m : Module) (functions : List (Option FunctionId))
    (memory : Option MemoryId) : Action LinkedCode := do
  match (← get).cache.find? key with
  | none => throw (.because (.notCompiled name))
  | some compiled =>
    let table ← bindImports functions m.importedFunctions 0 compiled.table
    let table := table.link
    if table.unresolved ≠ 0 then throw (.because (.sitesUnlinked table.unresolved))
    else
      let memorySites ← match memory with
        | none => pure []
        | some id => do
          let mem ← getMemory id
          pure (LinkedCode.sitesOf table (mem.extent id))
      return { name, compiled, table, memorySites }

end ProtoWasm.Store
