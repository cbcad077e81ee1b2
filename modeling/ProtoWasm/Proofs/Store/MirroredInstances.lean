import ProtoWasm.Proofs.Store.Shortcut

/-! # Instantiation in a store and its mirror

A module is instantiated in a store and in its mirror with the same result, and the new instances are mirrors of each
other: where the first has shortcuts, the second has adapters. If there is a start function, its call must come to the
same in both.
-/
namespace ProtoWasm

/-- A module that was compiled has no shortcuts. -/
theorem CodeTable.Compiled.plain_eq {m : Module} {t : CodeTable} (h : t.Compiled m) : t.plain = t := by
  have hentry (k : Nat) (c : Code) (hc : t.entries[k]? = some c) : c.plain = c := by
    by_cases hlt : k < m.functions.length
    · by_cases himported : k < m.importedFunctions
      · cases hc.symm.trans (h.imports k himported)
        rfl
      · obtain ⟨g, hg, -⟩ := h.functions k (Nat.le_of_not_lt himported) hlt
        cases hc.symm.trans hg
        rfl
    · obtain ⟨i, p, r, rfl, -⟩ := h.entryPoints k c (Nat.le_of_not_lt hlt) hc
      rfl
  have hentries : t.entries.map Code.plain = t.entries := by
    conv_rhs => rw [← List.map_id t.entries]
    apply List.map_congr_left
    intro c hc
    obtain ⟨k, hk⟩ := List.getElem?_of_mem hc
    exact hentry k c hk
  have hrelocs : t.relocs.map Reloc.plain = t.relocs := by
    conv_rhs => rw [← List.map_id t.relocs]
    apply List.map_congr_left
    intro r hr
    exact congrArg (fun c => { r with ref := c }) (hentry _ _ (h.targets r hr).2)
  rw [plain, hentries, hrelocs]

namespace Store

open StoreM

variable {loose : Prop} {s t s₁ t₁ : Store} {canceled startDisabled : Bool} {x : Instance}

theorem mirrors_addFunction (f : FunctionInstance) : Mirrors loose Eq (addFunction f) (addFunction f) :=
  mirrors_modifyGet fun _ log => ⟨rfl, log, rfl⟩

theorem mirrors_addTable (t : Table FunctionId) : Mirrors loose Eq (addTable t) (addTable t) :=
  mirrors_modifyGet fun _ log => ⟨rfl, log, rfl⟩

theorem mirrors_addMemory (m : Memory InstanceId) : Mirrors loose Eq (addMemory m) (addMemory m) :=
  mirrors_modifyGet fun _ log => ⟨rfl, log, rfl⟩

theorem mirrors_addStorage (bytes : List UInt8) : Mirrors loose Eq (addStorage bytes) (addStorage bytes) :=
  mirrors_modifyGet fun _ log => ⟨rfl, log, rfl⟩

theorem mirrors_addGlobal (g : GlobalInstance) : Mirrors loose Eq (addGlobal g) (addGlobal g) :=
  mirrors_modifyGet fun _ log => ⟨rfl, log, rfl⟩

theorem mirrors_addInstance (x : Instance) : Mirrors loose Eq (addInstance x) (addInstance x.plain) := by
  refine mirrors_modifyGet fun s log => ⟨Array.size_map.symm, log, ?_⟩
  simp [plain]

theorem mirrors_register (module field : String) (v : Extern) :
    Mirrors loose Eq (register module field v) (register module field v) :=
  mirrors_modify fun _ log => ⟨log, rfl⟩

theorem mirrors_setEntry {α : Type} (xs : List (Option α)) (k : Nat) (a : α) :
    Mirrors loose Eq (setEntry xs k a) (setEntry xs k a) :=
  mirrors_ite (mirrors_pure rfl) (mirrors_defect _)

theorem mirrors_addInstanceGlobal (type : GlobalType) (storage : StorageId) (offset : Nat) :
    Mirrors loose Eq (addInstanceGlobal type storage offset) (addInstanceGlobal type storage offset) :=
  mirrors_get fun _ _ => (mirrors_expect_eq _ _).then fun _ => mirrors_ite (mirrors_defect _) (mirrors_addGlobal _)

theorem mirrors_evalConst (globals : List (Option GlobalId)) (e : Option ConstExpr) :
    Mirrors loose Eq (evalConst globals e) (evalConst globals e) := by
  refine (mirrors_expect_eq _ e).then fun e => ?_
  split
  · exact mirrors_pure rfl
  · exact mirrors_pure rfl
  · exact mirrors_ite (mirrors_defect _) (mirrors_pure rfl)
  · exact mirrors_ite (mirrors_defect _) (mirrors_pure rfl)
  · exact (mirrors_entry globals _).then fun g => mirrors_globalValue g
  · exact mirrors_defect _

theorem mirrors_evalOffset (globals : List (Option GlobalId)) (e : Option ConstExpr) :
    Mirrors loose Eq (evalOffset globals e) (evalOffset globals e) :=
  (mirrors_evalConst globals e).then fun _ => mirrors_pure rfl

theorem AttemptsAt.stage {α β : Type} {R : α → β → Prop} (name label : String) {a : Action α} {b : Action β}
    (h : AttemptsAt loose R a b s t) : AttemptsAt loose R (Store.stage name label a) (Store.stage name label b) s t :=
  h.tryCatch fun _ _ he => attempts_throw (congrArg (Error.instantiation name label) he)

theorem attempts_requireFit (fits : Bool) (r : Reason) : Attempts loose Eq (requireFit fits r) (requireFit fits r) := by
  unfold requireFit
  split
  · exact attempts_pure rfl
  · exact attempts_throw rfl

theorem attempts_bindFunction (i : InstanceId) (index : Nat) (expected : FuncType) (v : Extern) :
    Attempts loose Eq (bindFunction i index expected v) (bindFunction i index expected v) := by
  cases v with
  | func f =>
    exact (mirrors_getFunction f).lift.then fun g => (attempts_requireFit _ _).then fun _ => attempts_pure rfl
  | host f =>
    refine (attempts_requireFit _ _).then fun _ => (mirrors_typeId expected).lift.then fun id => ?_
    exact (mirrors_addFunction _).lift
  | foreignFunc typeName => exact attempts_throw rfl
  | table | memory | global => exact Mirrors.lift (mirrors_defect _)

theorem mirrors_put (i : InstanceId) (x : Instance) :
    Mirrors loose Eq (modifyInstance i fun _ => x) (modifyInstance i fun _ => x.plain) :=
  mirrors_modifyInstance (f := fun _ => x) (g := fun _ => x.plain) i fun _ => rfl

theorem attempts_bindImport (i : InstanceId) (imp : Import) (v : Extern) :
    Attempts loose Eq (bindImport i imp v) (bindImport i imp v) := by
  refine (attempts_requireFit _ _).then fun _ => (mirrors_getInstance i).lift.bind ?_
  rintro x _ rfl
  dsimp only
  cases imp.desc with
  | func sig =>
    refine Attempts.then (mirrors_expect_eq _ x.module.signatures[sig]?).lift fun expected => ?_
    refine (attempts_bindFunction i _ expected v).then fun f => ?_
    refine Attempts.then (mirrors_setEntry x.functions _ f).lift fun functions => ?_
    exact (mirrors_put i { x with functions }).lift
  | table desc =>
    cases v with
    | table k =>
      refine (mirrors_getTable k).lift.then fun table => ?_
      refine Attempts.then (mirrors_setEntry x.tables _ k).lift fun tables => ?_
      exact Attempts.then (mirrors_put i { x with tables }).lift fun _ => attempts_requireFit _ _
    | func | host | foreignFunc | memory | global => exact attempts_pure rfl
  | memory desc =>
    cases v with
    | memory k =>
      refine (mirrors_expect_eq _ k).lift.then fun k => (mirrors_getMemory k).lift.then fun mem => ?_
      exact Attempts.then (mirrors_put i { x with memory := some k }).lift fun _ => attempts_requireFit _ _
    | func | host | foreignFunc | table | global => exact attempts_pure rfl
  | global desc =>
    cases v with
    | global k =>
      refine (mirrors_getGlobal k).lift.then fun found => ?_
      refine Attempts.then (mirrors_setEntry x.globals _ k).lift fun globals => ?_
      refine Attempts.then (mirrors_put i { x with globals }).lift fun _ => ?_
      exact (attempts_requireFit _ _).then fun _ => attempts_requireFit _ _
    | func | host | foreignFunc | table | memory => exact attempts_pure rfl
  | unknown b => exact attempts_pure rfl

theorem attempts_bindAll (i : InstanceId) (name : String) (imports : List (Import × Nat)) :
    Attempts loose Eq (bindAll i name imports) (bindAll i name imports) := by
  induction imports with
  | nil => exact attempts_pure rfl
  | cons imp rest ih =>
    refine Attempts.then (fun s t hs => AttemptsAt.stage name _ ?_) fun _ => ih
    obtain ⟨log, rfl⟩ := hs
    refine AttemptsAt.get ?_
    have hnames : (s.plain log).names = s.names := rfl
    rw [hnames]
    cases s.names.resolve? imp.1.module imp.1.name with
    | none => exact attempts_throw rfl s _ ⟨log, rfl⟩
    | some v => exact attempts_bindImport i imp.1 v s _ ⟨log, rfl⟩

theorem mirrors_defineFunctions (i : InstanceId) (indices : List Nat) (x : Instance) :
    Mirrors loose (fun x y => y = x.plain) (defineFunctions i x indices) (defineFunctions i x.plain indices) := by
  induction indices generalizing x with
  | nil => exact mirrors_pure rfl
  | cons index rest ih =>
    refine Mirrors.then (mirrors_expect_eq _ x.module.functions[index]?) fun f => ?_
    refine (mirrors_typeId f.type).then fun id => ?_
    refine Mirrors.then (mirrors_addFunction _) fun f => ?_
    exact Mirrors.then (mirrors_setEntry x.functions index f) fun functions => ih { x with functions }

theorem mirrors_defineGlobals (globals : List (Global × Nat)) (x : Instance) :
    Mirrors loose (fun x y => y = x.plain) (defineGlobals x globals) (defineGlobals x.plain globals) := by
  induction globals generalizing x with
  | nil => exact mirrors_pure rfl
  | cons g rest ih =>
    refine Mirrors.then (mirrors_addInstanceGlobal g.1.type x.storage g.1.offset) fun id => ?_
    refine Mirrors.then (mirrors_evalConst x.globals g.1.init) fun v => (mirrors_setGlobal id v).then fun _ => ?_
    exact Mirrors.then (mirrors_setEntry x.globals g.2 id) fun globals => ih { x with globals }

theorem mirrors_defineTables (tables : List (TableType × Nat)) (x : Instance) :
    Mirrors loose (fun x y => y = x.plain) (defineTables x tables) (defineTables x.plain tables) := by
  induction tables generalizing x with
  | nil => exact mirrors_pure rfl
  | cons table rest ih =>
    refine (mirrors_addTable (.create table.1.min table.1.max)).then fun id => ?_
    exact Mirrors.then (mirrors_setEntry x.tables table.2 id) fun tables => ih { x with tables }

theorem mirrors_define (i : InstanceId) (x : Instance) :
    Mirrors loose (fun x y => y = x.plain) (define i x) (define i x.plain) := by
  refine Mirrors.bind (mirrors_defineFunctions i x.module.definedIndices x) ?_
  rintro x₁ _ rfl
  refine Mirrors.bind (mirrors_defineGlobals _ x₁) ?_
  rintro x₂ _ rfl
  exact mirrors_defineTables _ x₂

theorem attempts_makeMemory (x : Instance) :
    Attempts loose (fun x y => y = x.plain) (makeMemory x) (makeMemory x.plain) := by
  unfold makeMemory
  dsimp only [Instance.plain]
  cases x.module.memory with
  | none => exact attempts_pure rfl
  | some type =>
    refine attempts_ite (attempts_pure rfl) (attempts_get fun s log => ?_)
    have hguarded : (s.plain log).config.guarded = s.config.guarded := rfl
    rw [hguarded]
    cases Memory.create type.min type.max s.config.guarded with
    | error r => exact attempts_throw rfl
    | ok mem => exact (mirrors_addMemory mem).lift.then fun id => attempts_pure rfl

theorem attempts_outfit (i : InstanceId) : Attempts loose (fun x y => y = x.plain) (outfit i) (outfit i) := by
  refine (mirrors_getInstance i).lift.bind ?_
  rintro x _ rfl
  refine (attempts_makeMemory x).bind ?_
  rintro x₁ _ rfl
  refine Attempts.then (mirrors_addStorage (List.replicate x₁.module.globalsSize 0)).lift fun storage => ?_
  refine Attempts.then (mirrors_put i { x₁ with storage }).lift fun _ => ?_
  refine Attempts.then (attempts_bindAll i x₁.name x₁.module.imports.zipIdx) fun _ => ?_
  refine (mirrors_getInstance i).lift.bind ?_
  rintro x₂ _ rfl
  refine (mirrors_define i x₂).lift.bind ?_
  rintro x₃ _ rfl
  exact (mirrors_put i x₃).lift.then fun _ => attempts_pure rfl

theorem attempts_checkData (x : Instance) (data : List (DataSegment × Nat)) :
    Attempts loose Eq (checkData x data) (checkData x.plain data) := by
  induction data with
  | nil => exact attempts_pure rfl
  | cons d rest ih =>
    refine Attempts.then (mirrors_evalOffset x.globals d.1.offset).lift fun offset => ?_
    have hmemory : x.plain.memory = x.memory := rfl
    rw [hmemory]
    cases x.memory with
    | none => exact Attempts.then (attempts_pure rfl) fun size => attempts_ite (attempts_throw rfl) ih
    | some id =>
      refine (mirrors_getMemory id).lift.then fun mem => Attempts.then (attempts_pure rfl) fun size => ?_
      exact attempts_ite (attempts_throw rfl) ih

theorem attempts_checkElements (x : Instance) (elements : List (ElementSegment × Nat)) :
    Attempts loose Eq (checkElements x elements) (checkElements x.plain elements) := by
  induction elements with
  | nil => exact attempts_pure rfl
  | cons e rest ih =>
    refine Attempts.then (mirrors_evalOffset x.globals e.1.offset).lift fun offset => ?_
    refine Attempts.then (mirrors_entry x.tables e.1.table).lift fun k => (mirrors_getTable k).lift.then fun table => ?_
    exact attempts_ite (attempts_throw rfl) ih

theorem mirrors_writeFunctions (x : Instance) (k : TableId) (indices : List Nat) (offset : Int) :
    Mirrors loose Eq (writeFunctions x k offset indices) (writeFunctions x.plain k offset indices) := by
  induction indices generalizing offset with
  | nil => exact mirrors_pure rfl
  | cons index rest ih =>
    refine Mirrors.then (mirrors_entry x.functions index) fun id => (mirrors_getFunction id).then fun f => ?_
    refine (mirrors_getTable k).then fun table => mirrors_ite (mirrors_defect _) ?_
    exact Mirrors.then (mirrors_modify fun _ log => ⟨log, rfl⟩) fun _ => ih _

theorem mirrors_writeElements (x : Instance) (elements : List ElementSegment) :
    Mirrors loose Eq (writeElements x elements) (writeElements x.plain elements) := by
  induction elements with
  | nil => exact mirrors_pure rfl
  | cons e rest ih =>
    refine Mirrors.then (mirrors_evalOffset x.globals e.offset) fun offset => ?_
    refine Mirrors.then (mirrors_entry x.tables e.table) fun k => ?_
    exact (mirrors_writeFunctions x k e.init offset).then fun _ => ih

theorem mirrors_writeData (x : Instance) (data : List DataSegment) :
    Mirrors loose Eq (writeData x data) (writeData x.plain data) := by
  induction data with
  | nil => exact mirrors_pure rfl
  | cons d rest ih =>
    refine Mirrors.then (mirrors_evalOffset x.globals d.offset) fun offset => ?_
    refine Mirrors.then (mirrors_expect_eq _ x.memory) fun id => (mirrors_getMemory id).then fun mem => ?_
    exact mirrors_ite (mirrors_defect _) ((mirrors_setMemory id _).then fun _ => ih)

theorem mirrors_exportValue (x : Instance) (e : Export) :
    Mirrors loose Eq (exportValue x e) (exportValue x.plain e) := by
  unfold exportValue
  cases e.kind with
  | func => exact Mirrors.then (mirrors_entry x.functions e.index) fun _ => mirrors_pure rfl
  | table => exact Mirrors.then (mirrors_entry x.tables e.index) fun _ => mirrors_pure rfl
  | memory => exact mirrors_pure rfl
  | global => exact Mirrors.then (mirrors_entry x.globals e.index) fun _ => mirrors_pure rfl
  | unknown b => exact mirrors_defect _

theorem mirrors_exportValues (x : Instance) (exports : List Export) (values : List (String × Extern)) :
    Mirrors loose Eq (exportValues x exports values) (exportValues x.plain exports values) := by
  induction exports generalizing values with
  | nil => exact mirrors_pure rfl
  | cons e rest ih => exact (mirrors_exportValue x e).then fun v => ih _

theorem mirrors_buildExports (x : Instance) :
    Mirrors loose (fun x y => y = x.plain) (buildExports x) (buildExports x.plain) :=
  Mirrors.then (mirrors_exportValues x _ []) fun _ => mirrors_pure rfl

theorem mirrors_release (i : InstanceId) : Mirrors loose Eq (release i) (release i) := by
  refine (mirrors_getInstance i).bind ?_
  rintro x _ rfl
  refine (mirrors_modifyInstance i fun y => ?_).then fun _ => ?_
  · cases hcode : y.code <;> simp [Instance.plain, LinkedCode.plain, LinkedCode.close, CodeTable.plain, hcode]
  · dsimp only [Instance.plain]
    simp only [Option.isSome_map]
    cases x.memory with
    | none => exact mirrors_pure rfl
    | some id => exact (mirrors_getMemory id).then fun mem => mirrors_setMemory id _

theorem mirrors_closeInstance (i : InstanceId) : Mirrors loose Eq (closeInstance i) (closeInstance i) := by
  refine (mirrors_getInstance i).bind ?_
  rintro x _ rfl
  exact mirrors_ite (mirrors_pure rfl) (mirrors_release i)

theorem mirrors_importCode (index : Nat) (f : FunctionId) :
    Mirrors loose (fun c c' => c' = c.plain) (importCode index f) (importCode index f) := by
  refine (mirrors_getFunction f).then fun callee => (mirrors_getInstance callee.owner).bind ?_
  rintro x _ rfl
  refine mirrors_get fun s log => ?_
  have hshortcut : (s.plain log).config.shortcut = false := rfl
  rw [hshortcut, Bool.and_false, Bool.false_and, if_neg Bool.false_ne_true]
  split
  · exact mirrors_pure rfl
  · exact mirrors_pure rfl

/-- Imports are bound to shortcuts and adapters, or to adapters only. -/
theorem attempts_bindImports (functions : List (Option FunctionId)) (count index : Nat) (table : CodeTable) :
    Attempts loose (fun t t' => t' = t.plain) (bindImports functions count index table)
      (bindImports functions count index table.plain) := by
  induction count generalizing index table with
  | zero => exact attempts_pure rfl
  | succ count ih =>
    unfold bindImports
    cases functions[index]? with
    | none => exact Mirrors.lift (mirrors_defect _)
    | some f =>
      cases f with
      | none => exact attempts_throw rfl
      | some f =>
        refine (mirrors_importCode index f).lift.bind ?_
        rintro code _ rfl
        have hlength : table.plain.entries.length = table.entries.length := List.length_map _
        rw [hlength, ← CodeTable.setEntry_plain]
        exact attempts_ite (Mirrors.lift (mirrors_defect _)) (ih (index + 1) _)

/-- The code under the key has no shortcuts, and the code of an instance has them where it is bound. -/
theorem attempts_linkInstance {name : String} {key : ModuleKey} {m : Module} {functions : List (Option FunctionId)}
    {memory : Option MemoryId} (hs : s.Mirror t)
    (hkey : ∀ c, s.cache.find? key = some c → c.table.plain = c.table) :
    AttemptsAt loose (fun c c' => c' = c.plain) (linkInstance name key m functions memory)
      (linkInstance name key m functions memory) s t := by
  obtain ⟨log, rfl⟩ := hs
  have hcache : (s.plain log).cache = s.cache := rfl
  refine AttemptsAt.get ?_
  rw [hcache]
  cases hc : s.cache.find? key with
  | none => exact attempts_throw rfl s _ ⟨log, rfl⟩
  | some c =>
    have hbind : Attempts loose _ _ _ := attempts_bindImports functions m.importedFunctions 0 c.table
    rw [hkey c hc] at hbind
    refine hbind.bind ?_ s _ ⟨log, rfl⟩
    rintro table _ rfl
    rw [← CodeTable.link_plain]
    dsimp only
    rw [CodeTable.unresolved_plain]
    refine attempts_ite (attempts_throw rfl) ?_
    cases memory with
    | none => exact Attempts.then (attempts_pure rfl) fun sites => attempts_pure rfl
    | some id =>
      refine (mirrors_getMemory id).lift.then fun mem => ?_
      rw [LinkedCode.sitesOf_plain]
      exact Attempts.then (attempts_pure rfl) fun sites => attempts_pure rfl

variable {m : Module} {name : String} {key : ModuleKey} {source : List UInt8} {limit : Nat} {seen : List Section}

/-- The instance is put in its place, and its segments are written. -/
theorem attempts_attach (i : InstanceId) (x : Instance) (elements : List ElementSegment) (data : List DataSegment) :
    Attempts loose (fun x y => y = x.plain)
      (do
        modifyInstance i fun _ => x
        match x.memory with
        | none => pure ()
        | some id =>
          let mem ← getMemory id
          setMemory id (mem.addDependent i)
        writeElements x elements
        writeData x data
        return x : Action Instance)
      (do
        modifyInstance i fun _ => x.plain
        match x.plain.memory with
        | none => pure ()
        | some id =>
          let mem ← getMemory id
          setMemory id (mem.addDependent i)
        writeElements x.plain elements
        writeData x.plain data
        return x.plain : Action Instance) := by
  have hwrite : Attempts loose (fun x y => y = x.plain)
      (do
        writeElements x elements
        writeData x data
        return x : Action Instance)
      (do
        writeElements x.plain elements
        writeData x.plain data
        return x.plain : Action Instance) :=
    (mirrors_writeElements x elements).lift.then fun _ => (mirrors_writeData x data).lift.then fun _ =>
      attempts_pure rfl
  refine (mirrors_put i x).lift.then fun _ => ?_
  have hmemory : x.plain.memory = x.memory := rfl
  rw [hmemory]
  cases x.memory with
  | none => exact hwrite
  | some id =>
    refine (mirrors_getMemory id).lift.then fun mem => ?_
    exact (mirrors_setMemory id _).lift.then fun _ => hwrite

/-- The new instance gets its code, with shortcuts or without. -/
theorem attempts_activate {s₀ : Store} (hb : m.Built source limit seen) (hkey : s₀.Loaded key m)
    (h : Complete s₀ m name s x) (hs : s.Mirror t) :
    AttemptsAt loose (fun x y => y = x.plain) (activate s₀.instances.size key x)
      (activate s₀.instances.size key x.plain) s t := by
  obtain ⟨⟨-, hd⟩, hx, -⟩ := h
  obtain rfl := hd.module
  have hdata : Tries False (checkData x x.module.data.zipIdx) s _ _ :=
    tries_checkData hb False.elim rfl hx fun d hd => List.fst_mem_of_mem_zipIdx hd
  have helements : Tries False (checkElements x x.module.elements.zipIdx) s _ _ :=
    tries_checkElements hb False.elim rfl hx fun e he => List.fst_mem_of_mem_zipIdx he
  refine (attempts_checkData x x.module.data.zipIdx s t hs).bind ?_
  rintro _ _ s₁ t₁ h₁ rfl hs₁
  obtain ⟨rfl, -⟩ := hdata.of_ok h₁
  refine AttemptsAt.bind (attempts_checkElements x x.module.elements.zipIdx s₁ t₁ hs₁) ?_
  rintro _ _ s₂ t₂ h₂ rfl hs₂
  obtain ⟨rfl, -⟩ := helements.of_ok h₂
  have hlink : AttemptsAt loose (fun c c' => c' = c.plain) (linkInstance x.name key x.module x.functions x.memory)
      (linkInstance x.name key x.module x.functions x.memory) s₂ t₂ :=
    attempts_linkInstance hs₂ fun c hc => (hkey c (hd.kept.cache ▸ hc)).plain_eq
  refine AttemptsAt.bind (AttemptsAt.stage x.name "engine" hlink) ?_
  rintro code _ s₃ t₃ - rfl hs₃
  exact attempts_attach s₀.instances.size { x with code := some code } _ _ s₃ t₃ hs₃

theorem attempts_prepare (hb : m.Built source limit seen) (hkey : s.Loaded key m)
    (hs₁ : s₁ = s.withInstance name m) (h : s₁.Mirror t₁) :
    AttemptsAt loose (fun x y => y = x.plain) (prepare s.instances.size key) (prepare s.instances.size key) s₁ t₁ := by
  subst hs₁
  refine AttemptsAt.bind (attempts_outfit s.instances.size _ t₁ h) ?_
  rintro x _ s' t' hx rfl hs'
  exact attempts_activate hb hkey ((tries_outfit hb False.elim).of_ok hx) hs'

theorem attempts_runStart (hs : s.Mirror t) (hw : s.Wired)
    (hu : ∀ f id, x.module.start = some f → x.functions[f]? = some (some id) →
      (Config.start id [] s).Uniform canceled) :
    AttemptsAt True Eq (runStart x canceled) (runStart x.plain canceled) s t := by
  unfold runStart
  have hstart : x.plain.module.start = x.module.start := rfl
  rw [hstart]
  cases hf : x.module.start with
  | none => exact attempts_pure rfl s t hs
  | some f =>
    refine AttemptsAt.bind ((mirrors_entry x.functions f).lift s t hs) ?_
    rintro id _ s' t' hentry rfl hs'
    have htries : Tries False (liftM (entry x.functions f) : Action FunctionId) s
        (fun id s' => x.functions[f]? = some (some id) ∧ s' = s) fun _ _ => True :=
      tries_lift (does_entry False.elim fun id hid => ⟨hid, rfl⟩)
    obtain ⟨hid, rfl⟩ := htries.of_ok hentry
    refine AttemptsAt.bind (AttemptsAt.tryCatch (mirrors_call hs' hw id [] canceled (hu f id hf hid)) ?_) ?_
    · intro e e' he
      exact attempts_throw (congrArg (fun e => Error.instantiation x.name "start" (.marked .startFunction e)) he)
    · intro _ _ s' t' _ _ hs'
      exact attempts_pure rfl s' t' hs'

theorem attempts_export (i : InstanceId) : Attempts loose Eq (publishAt i) (publishAt i) := by
  refine (mirrors_getInstance i).lift.bind ?_
  rintro x _ rfl
  refine (mirrors_buildExports x).lift.bind ?_
  rintro x _ rfl
  refine (mirrors_put i x).lift.then fun _ => attempts_forM fun e => ?_
  have hexported : x.plain.exported? e.name = x.exported? e.name := rfl
  rw [hexported]
  cases x.exported? e.name with
  | none => exact attempts_pure rfl
  | some v => exact (mirrors_register _ _ _).lift

/-- The start function of a new instance, if it runs, does not make calls that shortcuts make too deep. -/
def StartUniform (s : Store) (key : ModuleKey) (m : Module) (name : String) (startDisabled canceled : Bool) : Prop :=
  startDisabled = false → ∀ x s₁ f id,
    prepare s.instances.size key (s.withInstance name m) = .ok (.ok x, s₁) →
    x.module.start = some f → x.functions[f]? = some (some id) → (Config.start id [] s₁).Uniform canceled

theorem attempts_instantiateAt (hb : m.Built source limit seen)
    (hkey : s.Loaded key m) (hw : s.Wired) (hsound : s.Sound) (hnames : s.BlindNames)
    (hu : s.StartUniform key m name startDisabled canceled)
    (hs₁ : s₁ = s.withInstance name m) (h : s₁.Mirror t₁) :
    AttemptsAt True Eq (instantiateAt s.instances.size key startDisabled canceled)
      (instantiateAt s.instances.size key startDisabled canceled) s₁ t₁ := by
  refine AttemptsAt.bind (attempts_prepare hb hkey hs₁ h) ?_
  rintro x _ s₂ t₂ hx rfl hs₂
  cases startDisabled with
  | true => exact attempts_export _ s₂ t₂ hs₂
  | false =>
    subst hs₁
    obtain ⟨-, x₀, s₀, hc, ha⟩ := (tries_prepare hb False.elim False.elim False.elim).of_ok hx
    have hw₂ : s₂.Wired := ha.wired hc hb hkey hw hsound hnames
    refine AttemptsAt.bind (attempts_runStart hs₂ hw₂ fun f id => hu rfl x s₂ f id hx) ?_
    intro _ _ s₃ t₃ _ _ hs₃
    exact attempts_export _ s₃ t₃ hs₃

theorem attempts_instantiate (hb : m.Built source limit seen) (hkey : s.Loaded key m)
    (hw : s.Wired) (hsound : s.Sound) (hnames : s.BlindNames) (hu : s.StartUniform key m name startDisabled canceled)
    (hs : s.Mirror t) : AttemptsAt True Eq (instantiate key m name startDisabled canceled)
      (instantiate key m name startDisabled canceled) s t := by
  refine AttemptsAt.bind ((mirrors_addInstance (.ofModule name m)).lift s t hs) ?_
  rintro i _ s₁ t₁ hi rfl hs₁
  cases hi
  refine AttemptsAt.bind (AttemptsAt.tryCatch (attempts_instantiateAt hb hkey hw hsound hnames hu rfl hs₁) ?_) ?_
  · intro e e' he
    refine (mirrors_release s.instances.size).lift.then fun _ => ?_
    exact Attempts.then (mirrors_modify fun _ log => ⟨log, rfl⟩).lift fun _ => attempts_throw he
  · intro _ _ s₂ t₂ _ _ hs₂
    exact Attempts.then (mirrors_modify fun _ log => ⟨log, rfl⟩).lift (fun _ => attempts_pure rfl) s₂ t₂ hs₂

end Store

end ProtoWasm
