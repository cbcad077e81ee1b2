import ProtoWasm.Store.Compile
import ProtoWasm.Store.Instantiate

/-! # Embedding

The interface for programs that embed modules. An embedding keeps a store together with the modules that
were instantiated in it under their names, the modules that were compiled, and the memories that belong
to the host.
-/
namespace ProtoWasm

structure EmbeddingConfig where
  store : StoreConfig := { shortcut := true }
  maxPages : Nat := Memory.maxPages
  metrics : Bool := false

structure CompiledHandle where
  key : ModuleKey
  module : Module
deriving Inhabited

structure Embedding where
  config : EmbeddingConfig
  store : Store
  modules : List (String × InstanceId) := []
  compiled : List ModuleKey := []
  hostMemories : List MemoryId := []

abbrev EmbeddingM := StateT Embedding (Except Defect)

abbrev EmbeddingAction := ExceptT Error EmbeddingM

namespace Embedding

/-- A new embedding. Metrics can be registered once; `registered` says whether they are. -/
def create (config : EmbeddingConfig) (registered : Bool) : Except Error Embedding :=
  if config.metrics && registered then
    .error (.labelled "register metrics" (.because .duplicateCollector))
  else .ok { config, store := { config := config.store } }

def onStore {α : Type} (a : StoreM α) : EmbeddingM α := fun e =>
  match a e.store with
  | .ok (x, store) => .ok (x, { e with store })
  | .error d => .error d

def onStoreAction {α : Type} (a : Action α) : EmbeddingAction α := ExceptT.mk (onStore a.run)

def minSource : Nat := 8

def compile (source : Option (List UInt8)) (canceled : Bool) : EmbeddingAction CompiledHandle := do
  match source with
  | none => throw (.because .sourceMissing)
  | some source =>
    if source.length < minSource then throw (.because .sourceShort)
    else match Module.decode source (← get).config.maxPages with
      | .error e => throw e
      | .ok m =>
        let key ← (onStore Store.newKey : EmbeddingM ModuleKey)
        onStoreAction (Store.compile key m canceled)
        modify fun e => { e with compiled := e.compiled ++ [key] }
        return ⟨key, m⟩

structure ModuleConfig where
  name : Option String := none
  startDisabled : Bool := false
deriving DecidableEq, Repr, Inhabited

def defaultName : String := "module"

def instantiate (compiled : Option CompiledHandle) (config : ModuleConfig) (canceled : Bool) :
    EmbeddingAction InstanceId := do
  match compiled with
  | none => throw (.because (.compiledModule "<nil>"))
  | some c =>
    let name := config.name.getD defaultName
    match (← get).store.names.requireUnused name with
    | .error e => throw e
    | .ok () =>
      let i ← onStoreAction (Store.instantiate c.key c.module name config.startDisabled canceled)
      modify fun e => { e with modules := assign name i e.modules }
      return i

def module? (e : Embedding) (name : String) : Option InstanceId := e.modules.lookup name

def removeName (name : String) : EmbeddingM Unit :=
  modify fun e =>
    { e with
      modules := e.modules.filter fun (n, _) => n != name
      store := { e.store with names := e.store.names.remove name } }

def close (i : InstanceId) : EmbeddingM Unit := do
  removeName (← onStore (Store.getInstance i)).name
  onStore (Store.closeInstance i)

def closeAll : EmbeddingM Unit := do
  let e ← get
  modify fun e => { e with compiled := [], hostMemories := [] }
  e.modules.forM fun (_, i) => close i
  e.hostMemories.forM fun m => onStore do Store.setMemory m (← Store.getMemory m).close
  e.compiled.forM fun key => onStore (Store.deleteCompiled key)

def shownName (name : String) : String := s!"Module[{name}]"

def memorySize (m : Memory InstanceId) : UInt32 := .ofNat m.size

end Embedding

end ProtoWasm
