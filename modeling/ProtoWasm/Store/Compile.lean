import ProtoWasm.Store.Basic

/-! # Compiled modules of a store -/
namespace ProtoWasm.Store

def newKey : StoreM ModuleKey := modifyGet fun s => (s.nextKey, { s with nextKey := s.nextKey + 1 })

def compile (key : ModuleKey) (m : Module) (canceled : Bool) : Action Unit := do
  let s ← get
  match s.cache.find? key with
  | some _ => return ()
  | none =>
    if m.functions.length < m.importedFunctions then StoreM.defect .range
    let results := compileUnits m s.config.options canceled
    let failures := results.countP UnitResult.failed
    modify fun s => { s with metrics := { s.metrics with
      functionsCompiled := s.metrics.functionsCompiled + results.length
      functionsFailed := s.metrics.functionsFailed + failures } }
    match m.compileWith s.config.options canceled results with
    | .error e => throw e
    | .ok code =>
      modify fun s =>
        { s with
          cache := s.cache.insert key code
          metrics := { s.metrics with modulesCompiled := s.metrics.modulesCompiled + 1 } }

def deleteCompiled (key : ModuleKey) : StoreM Unit :=
  modify fun s => { s with cache := s.cache.delete key }

/-- Tells the code of an instance that its memory has another extent, and counts what changes. -/
def relocate (i : InstanceId) (target : Extent) : StoreM Nat := do
  let code ← getCode i
  modifyInstance i fun x => { x with code := some (code.relocate target) }
  return code.stale target

def foreignExtent (size : Nat) : StoreM Extent :=
  modifyGet fun s =>
    (⟨if size = 0 then .empty else .foreign s.foreignBlocks, size⟩,
     { s with foreignBlocks := s.foreignBlocks + 1 })

end ProtoWasm.Store
