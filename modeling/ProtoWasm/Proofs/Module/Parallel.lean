import ProtoWasm.Proofs.Binary.Parallel
import ProtoWasm.Proofs.Module.Stages

/-! # Sections read twice

The contents of a section are read into two modules. Both readings take the same values from the bytes,
whatever has been read into the modules before. If the modules are the same up to places in the source,
then they stay so, and both readings succeed or none.
-/
namespace ProtoWasm

open List

namespace Module

open Reader

variable {same : Prop} {m m' : Module} {α : Type}

/-! ## What places do not change -/

section

variable (h : m.unplaced = m'.unplaced)
include h

theorem signatures_of_unplaced : m.signatures = m'.signatures := (congrArg Module.signatures h :)

theorem functions_of_unplaced :
    m.functions.map Function.unplaced = m'.functions.map Function.unplaced :=
  (congrArg Module.functions h :)

theorem tables_of_unplaced : m.tables = m'.tables := (congrArg Module.tables h :)

theorem memory_of_unplaced : m.memory = m'.memory := (congrArg Module.memory h :)

theorem exports_of_unplaced : m.exports = m'.exports := (congrArg Module.exports h :)

theorem globals_of_unplaced : m.importedGlobals = m'.importedGlobals ∧ m.globals = m'.globals :=
  ⟨(congrArg Module.importedGlobals h :), (congrArg Module.globals h :)⟩

theorem definedFunctions_of_unplaced :
    m.definedFunctions.map Function.unplaced = m'.definedFunctions.map Function.unplaced := by
  have hcount : m.importedFunctions = m'.importedFunctions := (congrArg Module.importedFunctions h :)
  rw [definedFunctions, definedFunctions, map_drop, map_drop, functions_of_unplaced h, hcount]

end

/-! ## Values -/

theorem parallel_readCount (what : String) : Parallel same (readCount what) (readCount what) (· = ·) := by
  refine parallel_offset.bind fun o o' _ => (parallel_u32 _).then fun n => ?_
  refine parallel_remaining.then fun rest => ?_
  exact (parallel_refuse fun _ => rfl).map fun _ _ _ => rfl

theorem parallel_readValType (what : String) :
    Parallel same (readValType what) (readValType what) (· = ·) := by
  refine parallel_offset.bind fun o o' _ => (parallel_byte what).then fun b => ?_
  exact (parallel_refuse fun _ => rfl).map fun _ _ _ => rfl

theorem parallel_readSignatureIndex (h : same → m.signatures = m'.signatures) :
    Parallel same (readSignatureIndex m) (readSignatureIndex m') fun x x' => x.1 = x'.1 ∧
      m.signatures[x.1]? = some x.2 ∧ m'.signatures[x'.1]? = some x'.2 := by
  refine parallel_offset.bind fun o o' _ => (parallel_u32 _).then fun k => ?_
  cases ht : m.signatures[k]? with
  | none => exact parallel_failAt _ _ _
  | some t =>
    cases ht' : m'.signatures[k]? with
    | none =>
      refine parallel_missing fun hs => ?_
      rw [← h hs, ht] at ht'
      cases ht'
    | some t' => exact parallel_pure ⟨rfl, ht, ht'⟩

theorem parallel_readSignature (k : Nat) :
    Parallel same (readSignature k) (readSignature k) (· = ·) := by
  refine parallel_offset.bind fun o o' _ => (parallel_readCount _).then fun n => ?_
  refine (parallel_u32 _).then fun r => ?_
  refine (parallel_refuse fun _ => rfl).bind fun _ _ _ => ?_
  refine (parallel_times_eq n fun _ => parallel_readValType _).then fun ps => ?_
  apply (parallel_times_eq r fun _ => parallel_readValType _).map
  rintro rs _ rfl
  rfl

theorem parallel_readTableType : Parallel same readTableType readTableType (· = ·) := by
  refine parallel_offset.bind fun o o' _ => (parallel_u32 _).then fun lo => ?_
  refine (parallel_u32 _).then fun hi => ?_
  refine (parallel_refuse fun _ => rfl).bind fun _ _ _ => ?_
  exact (parallel_refuse fun _ => rfl).map fun _ _ _ => rfl

theorem parallel_readMemoryType (limit : Nat) :
    Parallel same (readMemoryType limit) (readMemoryType limit) (· = ·) := by
  refine parallel_offset.bind fun o o' _ => (parallel_u32 _).then fun lo => ?_
  refine (parallel_u32 _).then fun hi => ?_
  refine (parallel_refuse fun _ => rfl).bind fun _ _ _ => ?_
  exact (parallel_refuse fun _ => rfl).map fun _ _ _ => rfl

theorem parallel_readGlobalType : Parallel same readGlobalType readGlobalType (· = ·) := by
  refine (parallel_readValType _).then fun t => ?_
  refine parallel_offset.bind fun o o' _ => (parallel_byte _).then fun flag => ?_
  exact (parallel_refuse fun _ => rfl).map fun _ _ _ => rfl

/-! ## Initializers -/

theorem parallel_consumed {α' : Type} {R : α → α' → Prop} {r : Reader α} {r' : Reader α'}
    (h : Parallel same r r' R) :
    Parallel same (consumed r) (consumed r') fun x x' => R x.1 x'.1 ∧ x.2 = x'.2 := by
  intro i i' x j hi hr
  unfold consumed at hr
  split at hr
  · rename_i a k hk
    cases hr
    obtain ⟨hs, hv⟩ := h i i' a j hi hk
    constructor
    · intro hsame
      obtain ⟨a', j', hr'⟩ := hs hsame
      exact ⟨_, j', by rw [consumed, hr']⟩
    · intro x' j' hr'
      unfold consumed at hr'
      split at hr'
      · rename_i a' k' hk'
        cases hr'
        obtain ⟨hj, ha⟩ := hv a' j' hk'
        exact ⟨hj, ha, by simp only [Input.remaining, hi, hj]⟩
      · cases hr'
  · cases hr

section

variable (h : same → m.unplaced = m'.unplaced)
include h

theorem parallel_readInitializerOperand (o o' : Int) (op : Opcode) :
    Parallel same (readInitializerOperand m o op) (readInitializerOperand m' o' op)
      fun t t' => same → t = t' := by
  have hc : same → m.importedGlobals = m'.importedGlobals := fun hs => (globals_of_unplaced (h hs)).1
  have hg : same → m.globals = m'.globals := fun hs => (globals_of_unplaced (h hs)).2
  unfold readInitializerOperand
  split
  · exact (parallel_signed _ _).map fun _ _ _ _ => rfl
  · exact (parallel_signed _ _).map fun _ _ _ _ => rfl
  · exact (parallel_word _ _).map fun _ _ _ _ => rfl
  · exact (parallel_word _ _).map fun _ _ _ _ => rfl
  · refine parallel_offset.bind fun o o' _ => (parallel_u32 _).then fun k => ?_
    cases hk : (if k < m.importedGlobals then m.globals[k]? else none) with
    | none => exact parallel_failAt _ _ _
    | some g =>
      cases hk' : (if k < m'.importedGlobals then m'.globals[k]? else none) with
      | none =>
        refine parallel_missing fun hs => ?_
        rw [← hc hs, ← hg hs, hk] at hk'
        cases hk'
      | some g' =>
        apply parallel_pure
        intro hs
        rw [← hc hs, ← hg hs, hk] at hk'
        cases hk'
        rfl
  · exact parallel_failAt _ _ _

theorem parallel_readConstExpr (want : ValType) :
    Parallel same (readConstExpr m want) (readConstExpr m' want) (· = ·) := by
  refine parallel_offset.bind fun o o' _ => (parallel_byte _).then fun code => ?_
  apply (parallel_consumed (parallel_readInitializerOperand h o o' ⟨code⟩)).bind
  rintro ⟨got, data⟩ ⟨got', _⟩ ⟨hgot, rfl⟩
  refine parallel_offset.bind fun _ _ _ => (parallel_byte _).then fun b => ?_
  refine (parallel_refuse fun _ => rfl).bind fun _ _ _ => ?_
  exact (parallel_refuse fun hs => by rw [show got = got' from hgot hs]).map fun _ _ _ => rfl

/-! ## Index spaces -/

/-- What is read into two modules: they stay the same if they are, and a section that was not there tells
the same of both. -/
def Together (same : Prop) (s : Section) (m m' n n' : Module) : Prop :=
  (same → n.unplaced = n'.unplaced) ∧ (m.Ready s → m'.Ready s → told s n = told s n')

theorem parallel_readSignatures :
    Parallel same (readSignatures m) (readSignatures m') (Together same .signatures m m') := by
  refine (parallel_readCount _).then fun n => ?_
  refine (parallel_times_eq n parallel_readSignature).then fun ts => parallel_pure ⟨?_, fun _ _ => rfl⟩
  intro hs
  exact congrArg (fun m : Module => { m with signatures := ts }) (h hs)

omit h in
theorem link_unplaced (m : Module) (module name : String) (d : ImportDesc) :
    (m.link module name d).unplaced = m.unplaced.link module name d := by
  cases d with
  | func t =>
    rw [link, unplaced, map_append]
    rfl
  | table t | memory t | global t | unknown b => rfl

/-- The imports so far, and how many of them are functions and globals. -/
def SameImports (m m' : Module) : Prop :=
  m.imports = m'.imports ∧ m.importedFunctions = m'.importedFunctions ∧ m.importedGlobals = m'.importedGlobals

omit h in
theorem SameImports.link (h : SameImports m m') (module name : String) (d : ImportDesc) :
    SameImports (m.link module name d) (m'.link module name d) := by
  obtain ⟨hi, hf, hg⟩ := h
  cases d with
  | func t => exact ⟨by simp only [Module.link, hi, hf], by simp only [Module.link, hf], hg⟩
  | table t => exact ⟨by simp only [Module.link, hi], hf, hg⟩
  | memory t => exact ⟨by simp only [Module.link, hi], hf, hg⟩
  | global t => exact ⟨by simp only [Module.link, hi, hg], hf, by simp only [Module.link, hg]⟩
  | unknown b => exact ⟨hi, hf, hg⟩

theorem parallel_readImport (limit k : Nat) :
    Parallel same (readImport limit m k) (readImport limit m' k)
      fun n n' => ∃ module name d, n = m.link module name d ∧ n' = m'.link module name d := by
  refine (parallel_name _).then fun module => ?_
  refine (parallel_name _).then fun name => ?_
  refine parallel_offset.bind fun o o' _ => (parallel_byte _).then fun kind => ?_
  cases ExternKind.ofByte kind with
  | func =>
    apply (parallel_readSignatureIndex fun hs => signatures_of_unplaced (h hs)).map
    rintro ⟨t, τ⟩ ⟨_, τ'⟩ ⟨rfl, ht, ht'⟩
    refine ⟨module, name, .func t, ?_, ?_⟩
    · simp only [link, importedFunction, ht, Option.getD_some]
    · simp only [link, importedFunction, ht', Option.getD_some]
  | table =>
    refine (parallel_refuse fun hs => by rw [tables_of_unplaced (h hs)]).bind fun _ _ _ => ?_
    apply parallel_readTableType.map
    rintro t _ rfl
    exact ⟨module, name, .table { t with imported := true }, rfl, rfl⟩
  | memory =>
    refine (parallel_refuse fun hs => by rw [memory_of_unplaced (h hs)]).bind fun _ _ _ => ?_
    apply (parallel_readMemoryType limit).map
    rintro t _ rfl
    exact ⟨module, name, .memory { t with imported := true }, rfl, rfl⟩
  | global =>
    apply parallel_readGlobalType.map
    rintro t _ rfl
    exact ⟨module, name, .global t, rfl, rfl⟩
  | unknown b => exact parallel_failAt _ _ _

theorem parallel_readImports (limit : Nat) :
    Parallel same (readImports limit m) (readImports limit m') (Together same .importTable m m') := by
  refine (parallel_readCount _).then fun n => ?_
  refine (parallel_foldlM
    (Q := fun n n' => (same → n.unplaced = n'.unplaced) ∧ (SameImports m m' → SameImports n n'))
    (List.range n) ⟨h, id⟩ ?_).imp ?_
  · rintro b b' k ⟨hb, himports⟩
    apply (parallel_readImport hb limit k).imp
    rintro _ _ ⟨module, name, d, rfl, rfl⟩
    refine ⟨?_, fun hm => (himports hm).link module name d⟩
    intro hs
    rw [link_unplaced, link_unplaced, hb hs]
  · rintro b b' ⟨hb, himports⟩
    refine ⟨hb, ?_⟩
    rintro ⟨hi, hf, hg⟩ ⟨hi', hf', hg'⟩
    exact (himports ⟨hi.trans hi'.symm, hf.trans hf'.symm, hg.trans hg'.symm⟩).1

theorem parallel_readFunctions :
    Parallel same (readFunctions m) (readFunctions m') (Together same .functionSignatures m m') := by
  refine (parallel_readCount _).then fun n => ?_
  refine (parallel_times (R := fun f f' => f.typeIndex = f'.typeIndex ∧ (same → f = f')) n fun _ => ?_).map ?_
  · apply (parallel_readSignatureIndex fun hs => signatures_of_unplaced (h hs)).map
    rintro ⟨t, τ⟩ ⟨_, τ'⟩ ⟨rfl, ht, ht'⟩
    refine ⟨rfl, fun hs => ?_⟩
    rw [signatures_of_unplaced (h hs), ht'] at ht
    cases ht
    rfl
  · intro fs fs' hfs
    constructor
    · intro hs
      have heq : fs = fs' := eq_of_forall₂ (hfs.imp fun _ _ hf => hf.2 hs)
      change { m.unplaced with functions := (m.functions ++ fs).map Function.unplaced } =
        { m'.unplaced with functions := (m'.functions ++ fs').map Function.unplaced }
      rw [map_append, map_append, functions_of_unplaced (h hs), heq, h hs]
    · intro hm hm'
      rw [told_functions hm, told_functions hm']
      exact (map_eq_of_forall₂ (fun _ _ hf => hf.1.symm) hfs).symm

theorem parallel_readTable :
    Parallel same (readTable m) (readTable m') (Together same .table m m') := by
  refine parallel_offset.bind fun o o' _ => (parallel_readCount _).then fun n => ?_
  refine (parallel_refuse fun hs => by rw [tables_of_unplaced (h hs)]).bind fun _ _ _ => ?_
  apply (parallel_times_eq n fun _ => parallel_readTableType).map
  rintro ts _ rfl
  constructor
  · intro hs
    exact congrArg (fun m : Module => { m with tables := m.tables ++ ts }) (h hs)
  · intro hm hm'
    change (m.tables ++ ts).drop m.importedTables = (m'.tables ++ ts).drop m'.importedTables
    rw [drop_left' hm, drop_left' hm']

theorem parallel_readMemory (limit : Nat) :
    Parallel same (readMemory limit m) (readMemory limit m') (Together same .memory m m') := by
  refine parallel_offset.bind fun o o' _ => ?_
  refine (parallel_refuse fun hs => by rw [memory_of_unplaced (h hs)]).bind fun _ _ _ => ?_
  refine (parallel_readMemoryType limit).then fun t => ?_
  refine (parallel_byte _).then fun flag => ?_
  refine (parallel_refuse fun _ => rfl).map fun _ _ _ => ⟨?_, fun _ _ => rfl⟩
  intro hs
  exact congrArg (fun m : Module => { m with memory := some { t with exported := flag == 1 } }) (h hs)

theorem parallel_readGlobals :
    Parallel same (readGlobals m) (readGlobals m') (Together same .globals m m') := by
  refine (parallel_readCount _).then fun n => ?_
  refine (parallel_times_eq n fun _ => ?_).then fun gs => parallel_pure ?_
  · refine parallel_readGlobalType.then fun t => ?_
    exact (parallel_readConstExpr h t.valType).map fun e e' he => by rw [he]
  · refine ⟨?_, fun hm hm' => (told_globals hm gs _).trans (told_globals hm' gs _).symm⟩
    intro hs
    exact congrArg (fun m : Module => { m with
      globals := (layoutGlobals 0 (m.globals ++ gs)).1
      globalsSize := (layoutGlobals 0 (m.globals ++ gs)).2 }) (h hs)

/-! ## References -/

omit h in
theorem modify_unplaced (fs : List Function) (n : Nat) :
    (fs.modify n fun f => { f with exported := true }).map Function.unplaced =
      (fs.map Function.unplaced).modify n fun f => { f with exported := true } := by
  apply ext_getElem?
  intro k
  rw [getElem?_map, getElem?_modify, getElem?_modify, getElem?_map]
  cases fs[k]? with
  | none => rfl
  | some f =>
    by_cases hk : n = k
    · simp [hk, Function.unplaced]
    · simp [hk]

omit h in
theorem expose_unplaced (m : Module) (e : Export) : (m.expose e).unplaced = m.unplaced.expose e := by
  by_cases he : e.kind = .func
  · rw [expose, expose, if_pos he, if_pos he]
    change { m.unplaced with
      functions := (m.functions.modify e.index fun f => { f with exported := true }).map Function.unplaced
      exports := m.exports ++ [e] } = _
    rw [modify_unplaced]
    rfl
  · rw [expose, expose, if_neg he, if_neg he]
    rfl

theorem parallel_readExport (k : Nat) : Parallel same (readExport m k) (readExport m' k)
      fun n n' => ∃ e, n = m.expose e ∧ n' = m'.expose e := by
  refine parallel_offset.bind fun o o' _ => (parallel_byte _).then fun code => ?_
  refine (parallel_u32 _).then fun index => ?_
  refine (parallel_name _).then fun name => ?_
  refine (parallel_refuse fun hs => by rw [exports_of_unplaced (h hs)]).bind fun _ _ _ => ?_
  have hspace : same → m.spaceSize (.ofByte code) = m'.spaceSize (.ofByte code) := by
    intro hs
    apply spaceSize_congr
    · exact length_eq_of_map_eq (functions_of_unplaced (h hs))
    · exact tables_of_unplaced (h hs)
    · exact memory_of_unplaced (h hs)
    · exact (globals_of_unplaced (h hs)).2
  have hexpose : ∀ m : Module,
      { (if ExternKind.ofByte code = .func then m.markExported index else m) with
        exports := (if ExternKind.ofByte code = .func then m.markExported index else m).exports ++
          [⟨.ofByte code, name, index⟩] } = m.expose ⟨.ofByte code, name, index⟩ := by
    intro m
    unfold expose
    split <;> rfl
  dsimp only
  cases hn : m.spaceSize (.ofByte code) with
  | none => exact parallel_failAt _ _ _
  | some size =>
    cases hn' : m'.spaceSize (.ofByte code) with
    | none =>
      refine parallel_missing fun hs => ?_
      rw [← hspace hs, hn] at hn'
      cases hn'
    | some size' =>
      refine (parallel_refuse fun hs => ?_).map fun _ _ _ => ⟨⟨.ofByte code, name, index⟩, hexpose m, hexpose m'⟩
      rw [← hspace hs, hn] at hn'
      cases hn'
      rfl

theorem parallel_readExports :
    Parallel same (readExports m) (readExports m') (Together same .exportTable m m') := by
  refine (parallel_readCount _).then fun n => ?_
  refine (parallel_foldlM
    (Q := fun n n' => (same → n.unplaced = n'.unplaced) ∧ (m.exports = m'.exports → n.exports = n'.exports))
    (List.range n) ⟨h, id⟩ ?_).imp ?_
  · rintro b b' k ⟨hb, hexports⟩
    apply (parallel_readExport hb k).imp
    rintro _ _ ⟨e, rfl, rfl⟩
    constructor
    · intro hs
      rw [expose_unplaced, expose_unplaced, hb hs]
    · intro hm
      change b.exports ++ [e] = b'.exports ++ [e]
      rw [hexports hm]
  · rintro b b' ⟨hb, hexports⟩
    exact ⟨hb, fun hm hm' => hexports (hm.trans hm'.symm)⟩

omit h in
theorem functionType?_unplaced (m : Module) (k : Nat) : m.unplaced.functionType? k = m.functionType? k := by
  simp [functionType?, unplaced, Function.unplaced, Function.comp_def]

theorem parallel_readStart :
    Parallel same (readStart m) (readStart m') (Together same .startFunction m m') := by
  refine parallel_offset.bind fun o o' _ => (parallel_u32 _).then fun k => ?_
  have htype : same → m.functionType? k = m'.functionType? k := by
    intro hs
    rw [← functionType?_unplaced m, h hs, functionType?_unplaced]
  cases ht : m.functionType? k with
  | none => exact parallel_failAt _ _ _
  | some t =>
    cases ht' : m'.functionType? k with
    | none =>
      refine parallel_missing fun hs => ?_
      rw [← htype hs, ht] at ht'
      cases ht'
    | some t' =>
      refine (parallel_refuse fun hs => ?_).map fun _ _ _ => ⟨?_, fun _ _ => rfl⟩
      · rw [← htype hs, ht] at ht'
        cases ht'
        rfl
      · intro hs
        exact congrArg (fun m : Module => { m with start := some k }) (h hs)

theorem parallel_readElement (k : Nat) :
    Parallel same (readElement m k) (readElement m' k) (· = ·) := by
  refine parallel_offset.bind fun o o' _ => (parallel_u32 _).then fun table => ?_
  refine (parallel_refuse fun hs => by rw [tables_of_unplaced (h hs)]).bind fun _ _ _ => ?_
  refine (parallel_readConstExpr h .i32).then fun e => ?_
  refine (parallel_readCount _).then fun n => ?_
  refine (parallel_times_eq n fun _ => ?_).then fun fs => parallel_pure rfl
  refine parallel_offset.bind fun o o' _ => (parallel_u32 _).then fun f => ?_
  refine (parallel_refuse fun hs => ?_).map fun _ _ _ => rfl
  rw [length_eq_of_map_eq (functions_of_unplaced (h hs))]

theorem parallel_readElements :
    Parallel same (readElements m) (readElements m') (Together same .elements m m') := by
  refine (parallel_readCount _).then fun n => ?_
  refine (parallel_times_eq n (parallel_readElement h)).then fun es => parallel_pure ⟨?_, fun _ _ => rfl⟩
  intro hs
  exact congrArg (fun m : Module => { m with elements := es }) (h hs)

theorem parallel_readDataSegment :
    Parallel same (readDataSegment m) (readDataSegment m') fun d d' => d.unplaced = d'.unplaced := by
  refine (parallel_readConstExpr h .i32).then fun e => ?_
  refine (parallel_u32 _).then fun size => ?_
  refine parallel_offset.bind fun o o' _ => (parallel_take size _).map ?_
  rintro bytes _ rfl
  rfl

theorem parallel_readData :
    Parallel same (readData m) (readData m') (Together same .dataSegments m m') := by
  refine parallel_offset.bind fun o o' _ => ?_
  refine (parallel_refuse fun hs => by rw [memory_of_unplaced (h hs)]).bind fun _ _ _ => ?_
  refine (parallel_readCount _).then fun n => ?_
  refine (parallel_times n fun _ => parallel_readDataSegment h).map ?_
  intro ds ds' hds
  have heq : ds'.map DataSegment.unplaced = ds.map DataSegment.unplaced :=
    map_eq_of_forall₂ (fun _ _ hd => hd.symm) hds
  refine ⟨?_, fun _ _ => heq.symm⟩
  intro hs
  change { m.unplaced with data := ds.map DataSegment.unplaced } =
    { m'.unplaced with data := ds'.map DataSegment.unplaced }
  rw [heq, h hs]

/-! ## Bodies and names -/

omit h in
theorem parallel_readLocals {total total' : Nat} (h : same → total = total') (k : Nat) :
    Parallel same (readLocals total k) (readLocals total' k) (· = ·) := by
  induction k generalizing total total' with
  | zero => exact parallel_pure rfl
  | succ k ih =>
    refine parallel_offset.bind fun o o' _ => (parallel_u32 _).then fun n => ?_
    refine (parallel_readValType _).then fun t => ?_
    refine (parallel_refuse fun hs => by rw [h hs]).bind fun _ _ _ => ?_
    apply (ih ?_).map
    · rintro ls _ rfl
      rfl
    · intro hs
      rw [h hs]

omit h in
theorem parallel_readBody {params params' : Nat} (h : same → params = params') :
    Parallel same (readBody params) (readBody params')
      fun x x' => x.1 = x'.1 ∧ x.2.bytes = x'.2.bytes := by
  refine (parallel_readCount _).then fun n => ?_
  refine (parallel_readLocals h n).then fun ls => ?_
  exact parallel_get.map fun w w' hw => ⟨rfl, hw⟩

omit h in
theorem parallel_readDefinition {f f' : Function} (h : same → f.unplaced = f'.unplaced) :
    Parallel same (readDefinition f) (readDefinition f') fun g g' =>
      (same → g.unplaced = g'.unplaced) ∧ (g.locals, g.body) = (g'.locals, g'.body) := by
  refine (parallel_u32 _).then fun size => ?_
  apply (parallel_window size _).bind
  intro w w' hw
  have hparams : same → f.type.params.length = f'.type.params.length := by
    intro hs
    have htype : f.type = f'.type := (congrArg Function.type (h hs) :)
    rw [htype]
  apply (parallel_inside (parallel_readBody hparams) hw).map
  rintro ⟨⟨ls, code⟩, _⟩ ⟨⟨_, code'⟩, _⟩ ⟨⟨rfl, hcode⟩, _⟩
  simp only at hcode
  constructor
  · intro hs
    change { f.unplaced with locals := ls, body := code.bytes } =
      { f'.unplaced with locals := ls, body := code'.bytes }
    rw [h hs, hcode]
  · rw [hcode]

omit h in
theorem forall₂_of_length_eq {β : Type} {u : α → β} {xs ys : List α} (hlen : xs.length = ys.length)
    (h : same → xs.map u = ys.map u) : List.Forall₂ (fun x y => same → u x = u y) xs ys := by
  refine forall₂_iff_get.mpr ⟨hlen, fun k hx hy hs => ?_⟩
  simpa [hx, hy] using congrArg (·[k]?) (h hs)

theorem parallel_readBodies :
    Parallel same (readBodies m) (readBodies m') (Together same .functionBodies m m') := by
  have hdefined : same → m.definedFunctions.map Function.unplaced = m'.definedFunctions.map Function.unplaced :=
    fun hs => definedFunctions_of_unplaced (h hs)
  refine parallel_offset.bind fun o o' _ => (parallel_readCount _).then fun n => ?_
  refine (parallel_refuse fun hs => by rw [length_eq_of_map_eq (hdefined hs)]).bind ?_
  rintro _ _ ⟨hn, hn'⟩
  have hlen : m.definedFunctions.length = m'.definedFunctions.length :=
    (Decidable.not_not.mp hn).symm.trans (Decidable.not_not.mp hn')
  refine (parallel_mapM (R := fun g g' => (same → g.unplaced = g'.unplaced) ∧
    (g.locals, g.body) = (g'.locals, g'.body)) ?_).map ?_
  · exact (forall₂_of_length_eq hlen hdefined).imp fun f f' hf => parallel_readDefinition hf
  · intro fs fs' hfs
    constructor
    · intro hs
      have hplaced : fs'.map Function.unplaced = fs.map Function.unplaced :=
        map_eq_of_forall₂ (fun _ _ hf => (hf.1 hs).symm) hfs
      have hcount : m.importedFunctions = m'.importedFunctions :=
        (congrArg Module.importedFunctions (h hs) :)
      change { m.unplaced with
          functions := (m.functions.take m.importedFunctions ++ fs).map Function.unplaced } =
        { m'.unplaced with
          functions := (m'.functions.take m'.importedFunctions ++ fs').map Function.unplaced }
      rw [map_append, map_append, map_take, map_take, functions_of_unplaced (h hs),
        hcount, hplaced, h hs]
    · intro hm hm'
      rw [told, told, definedFunctions_replaced hm, definedFunctions_replaced hm']
      exact (map_eq_of_forall₂ (fun _ _ hf => hf.2.symm) hfs).symm

omit h in
theorem parallel_readFunctionName : Parallel same readFunctionName readFunctionName (· = ·) := by
  refine (parallel_name _).then fun name => ?_
  refine (parallel_readCount _).then fun n => ?_
  exact (parallel_times_eq n fun _ => parallel_name _).map fun _ _ _ => rfl

omit h in
theorem rename_unplaced (fs : List Function) (names : List String) :
    (rename fs names).map Function.unplaced = rename (fs.map Function.unplaced) names := by
  rw [rename, rename, map_append, map_map, map_drop, zip_map_left, map_map]
  rfl

omit h in
theorem nameFunctions_unplaced (m : Module) (names : List String) :
    (m.nameFunctions names).unplaced = m.unplaced.nameFunctions names := by
  rw [nameFunctions_eq, nameFunctions_eq]
  change { m.unplaced with
    functions := (m.functions.take m.importedFunctions ++ rename m.definedFunctions names).map
      Function.unplaced } = _
  rw [map_append, rename_unplaced, map_take, definedFunctions, map_drop]
  rfl

theorem parallel_readNames :
    Parallel same (readNames m) (readNames m') (Together same .names m m') := by
  refine (parallel_readCount _).then fun n => ?_
  refine parallel_offset.bind fun o o' _ => ?_
  apply (parallel_refuse fun hs => ?_).bind
  · rintro _ _ ⟨hn, hn'⟩
    apply ((parallel_times_eq n fun _ => parallel_readFunctionName).also
      fun i names j hr => length_of_times hr).map
    rintro names _ ⟨hlen, rfl⟩
    constructor
    · intro hs
      rw [nameFunctions_unplaced, nameFunctions_unplaced, h hs]
    · intro hm hm'
      rw [told_names hm (by omega), told_names hm' (by omega)]
  · have hcount := length_eq_of_map_eq (definedFunctions_of_unplaced (h hs))
    rw [definedFunctions, definedFunctions, length_drop, length_drop] at hcount
    rw [definedCount, hcount]
    rfl

theorem parallel_readContents (limit : Nat) (s : Section) :
    Parallel same (readContents limit s m) (readContents limit s m') (Together same s m m') := by
  cases s with
  | signatures => exact parallel_readSignatures h
  | importTable => exact parallel_readImports h limit
  | functionSignatures => exact parallel_readFunctions h
  | table => exact parallel_readTable h
  | memory => exact parallel_readMemory h limit
  | globals => exact parallel_readGlobals h
  | exportTable => exact parallel_readExports h
  | startFunction => exact parallel_readStart h
  | elements => exact parallel_readElements h
  | functionBodies => exact parallel_readBodies h
  | dataSegments => exact parallel_readData h
  | names => exact parallel_readNames h
  | finish => exact parallel_pure ⟨h, fun _ _ => rfl⟩

end

end Module

end ProtoWasm
