import ProtoWasm.Proofs.Store.Reachable

/-! # What comes of an instantiation

For every module that was decoded: an instance has what its module declares, an instantiation that fails leaves
no trace of it, and without the start function it never ends in a defect.
-/
namespace ProtoWasm.Store

open StoreM

variable {source : List UInt8} {maxPages : Nat} {checks : Option Module.Checks} {m : Module} {key : ModuleKey}
  {name : String} {startDisabled canceled : Bool} {s s' : Store} {r : Except Error InstanceId} {id : GlobalId}

/-- Every index of an instance is bound to what the module declares there, and every import to what is found
under its name. -/
theorem instantiate_conforms (hm : Module.decodeUnder source maxPages checks = .ok m) {i : InstanceId}
    (h : instantiate key m name startDisabled canceled s = .ok (.ok i, s')) :
    ∃ x, s'.instances[i]? = some x ∧ x.name = name ∧ x.module = m ∧
      x.functions.length = m.functions.length ∧
      (∀ (k : Nat) f, m.functions[k]? = some f →
        ∃ id g, x.functions[k]? = some (some id) ∧ s'.functions[id]? = some g ∧ g.type = f.type ∧
          m.signatures[f.typeIndex]? = some g.type) ∧
      x.globals.length = m.globals.length ∧
      (∀ (k : Nat) g, m.globals[k]? = some g →
        ∃ id v, x.globals[k]? = some (some id) ∧ s'.globals[id]? = some v ∧ v.type = g.type) ∧
      x.tables.length = m.tables.length ∧
      (∀ (k : Nat) t, m.tables[k]? = some t →
        ∃ id table, x.tables[k]? = some (some id) ∧ s'.tables[id]? = some table ∧
          t.min ≤ table.size ∧ table.max ≤ t.max) ∧
      (∀ t, m.memory = some t →
        ∃ id mem, x.memory = some id ∧ s'.memories[id]? = some mem ∧ t.min ≤ mem.pages ∧ mem.max ≤ t.max) ∧
      ∀ imp ∈ m.imports, ∃ v, s.names.resolve? imp.module imp.name = some v ∧ s'.Bound x imp v := by
  obtain ⟨seen, hb⟩ := Module.built_decodeUnder hm
  obtain ⟨rfl, x, hx⟩ := instantiate_ok hb h
  obtain ⟨hfunctions, htables, hglobals⟩ := hx.lengths
  refine ⟨x, hx.stored, hx.name, hx.module, hfunctions, ?_, hglobals, fun k g => hx.conforms.global, htables,
    fun k t => hx.conforms.table, fun t => hx.conforms.memory, hx.bound⟩
  intro k f hf
  obtain ⟨id, g, hid, hg, htype⟩ := hx.conforms.function hf
  have hhead : m.signatures[f.typeIndex]? = some f.type :=
    hb.heads f.head (List.mem_map_of_mem (List.mem_of_getElem? hf))
  exact ⟨id, g, hid, hg, Option.some.inj (htype.symm.trans hhead), htype⟩

section

open ProtoWasm.Module

/-- A module that imports a function, a global and a memory, writes to a table of its own and to the memory at the
value of the global, and has a start function. -/
def launching : List UInt8 :=
  header ++
    encodeSection "signatures" ([2] ++ encodeSignature ⟨[], []⟩ ++ encodeSignature ⟨[.i32], [.i32]⟩) ++
    encodeSection "import_table" ([3] ++ encodeImport ⟨"env", "log", .func 1, 0⟩ ++
      encodeImport ⟨"env", "base", .global ⟨.i32, false⟩, 0⟩ ++
      encodeImport ⟨"env", "memory", .memory ⟨1, 2, false, true⟩, 0⟩) ++
    encodeSection "function_signatures" [1, 0] ++
    encodeSection "table" ([1] ++ encodeLimits 2 2) ++
    encodeSection "globals" ([1] ++ encodeGlobal { type := ⟨.i32, true⟩, init := some ⟨.getGlobal, [0]⟩ }) ++
    encodeSection "export_table" ([1] ++ encodeExport ⟨.func, "main", 1⟩) ++
    encodeSection "start_function" [1] ++
    encodeSection "elements" ([1] ++ encodeElement ⟨0, some ⟨.getGlobal, [0]⟩, [1, 0]⟩) ++
    encodeSection "function_bodies" [1, 1, 0] ++
    encodeSection "data_segments" ([1] ++ encodeData ⟨some ⟨.getGlobal, [0]⟩, 0, [7, 8]⟩)

def logging : HostFunction where
  name := "env.log"
  type := ⟨[.i32], [.i32]⟩
  run := fun _ params => return params

def hosted : Store where
  memories := #[{ min := 1, max := 2, backing := .block (.zeros (Memory.bytesOfPages 1)) }]
  storages := #[[0, 0, 0, 0]]
  globals := #[⟨⟨.i32, false⟩, 0, 0⟩]
  names := ((Namespace.register {} "env" "log" (.host logging)).register "env" "base" (.global 0)).register
    "env" "memory" (.memory (some 0))

theorem reachable_hosted : Reachable hosted := by
  have hmemory : Reachable { memories := hosted.memories } :=
    (Reachable.empty {}).step (@Step.addMemory _ 1 2 false _ rfl)
  have hglobal : Reachable { hosted with names := {} } := hmemory.step (@Step.addGlobal _ ⟨.i32, false⟩ 0 0 _ rfl rfl)
  have hlog := hglobal.step (.register "env" "log" (v := .host logging) trivial)
  have hbase := hlog.step (.register "env" "base" (v := .global 0) Nat.zero_lt_one)
  exact hbase.step (.register "env" "memory" (v := .memory (some 0)) Nat.zero_lt_one)

def loaded (s : Store) (c : CompiledModule) : Store := { s with cache := ⟨[(0, c)]⟩ }

theorem Sound.loaded (h : s.Sound) (c : CompiledModule) : (s.loaded c).Sound := { h with }

def launch (s : Store) (startDisabled : Bool) : Option (Except Error InstanceId) := do
  let m ← (decodeUnder launching 0 (some .all)).toOption
  let c ← (m.compile {} false).toOption
  let (r, _) ← (instantiate 0 m "main" startDisabled false (s.loaded c)).toOption
  return r

theorem exists_of_launch (h : launch s startDisabled = some r) :
    ∃ m c s', decodeUnder launching 0 (some .all) = .ok m ∧ m.compile {} false = .ok c ∧
      instantiate 0 m "main" startDisabled false (s.loaded c) = .ok (r, s') := by
  obtain ⟨m, hm, h⟩ := Option.bind_eq_some_iff.mp h
  obtain ⟨c, hc, h⟩ := Option.bind_eq_some_iff.mp h
  obtain ⟨⟨r', s'⟩, hr, h⟩ := Option.bind_eq_some_iff.mp h
  cases h
  exact ⟨m, c, s', toOption_eq_some.mp hm, toOption_eq_some.mp hc, toOption_eq_some.mp hr⟩

end

theorem exists_launched :
    ∃ m c s', Module.decodeUnder launching 0 (some .all) = .ok m ∧ m.compile {} false = .ok c ∧
      instantiate 0 m "main" true false (hosted.loaded c) = .ok (.ok 0, s') := by
  have hlaunch : (launch hosted true).map Except.toOption = some (some 0) := by decide +kernel
  obtain ⟨r, hr, hok⟩ := Option.map_eq_some_iff.mp hlaunch
  cases toOption_eq_some.mp hok
  exact exists_of_launch hr

theorem instantiate_conforms_launching :
    ∃ m c s', Module.decodeUnder launching 0 (some .all) = .ok m ∧ m.compile {} false = .ok c ∧
      instantiate 0 m "main" true false (hosted.loaded c) = .ok (.ok 0, s') ∧
      ∃ x, s'.instances[0]? = some x ∧ x.functions.length = m.functions.length ∧
        ∀ imp ∈ m.imports, ∃ v, hosted.names.resolve? imp.module imp.name = some v ∧ s'.Bound x imp v := by
  obtain ⟨m, c, s', hm, hc, h⟩ := exists_launched
  obtain ⟨x, hx, -, -, hfunctions, -, -, -, -, -, -, himports⟩ := instantiate_conforms hm h
  exact ⟨m, c, s', hm, hc, h, x, hx, hfunctions, himports⟩

/-- An instantiation that fails before the start function runs leaves everything that was there as it was. One
whose start function fails registers nothing, closes the code of the instance, and leaves it among the dependents
of no memory. -/
theorem instantiate_noTrace (hm : Module.decodeUnder source maxPages checks = .ok m) (hs : s.Sound) {e : Error}
    (h : instantiate key m name startDisabled canceled s = .ok (.error e, s')) :
    ∃ stage cause, e = .instantiation name stage cause ∧
      (stage ≠ "start" → s.Extends s' ∧
        ∀ g < s.globals.size, ∃ v, globalValue g s = .ok (v, s) ∧ globalValue g s' = .ok (v, s')) ∧
      (stage = "start" → startDisabled = false ∧ StartFailed s.instances.size m name canceled e ∧ s'.names = s.names ∧
        (∃ x c, s'.instances[s.instances.size]? = some x ∧ x.code = some c ∧ c.closed = true) ∧
        ∀ (k : MemoryId) mem, s'.memories[k]? = some mem → s.instances.size ∉ mem.dependents) := by
  obtain ⟨seen, hb⟩ := Module.built_decodeUnder hm
  obtain ⟨⟨stage, cause, he, hstage, -⟩, hextends⟩ | ⟨hfalse, hstart, hfailed⟩ := (instantiate_error hb h).1
  · refine ⟨stage, cause, he, fun _ => ⟨hextends, ?_⟩, fun heq => absurd heq hstage⟩
    exact fun g hg => hextends.globalValue hs hg
  · obtain ⟨_, _, _, _, _, cause, _, _, _, _, he⟩ := id hstart
    refine ⟨"start", .marked .startFunction cause, he, fun hne => absurd rfl hne, fun _ => ?_⟩
    exact ⟨hfalse, hstart, hfailed.names, hfailed.closed, hfailed.detached hs⟩

def failedStage? : Except Error InstanceId → Option String
  | .error (.instantiation _ stage _) => some stage
  | _ => none

theorem eq_error_of_failedStage? {stage : String} (h : failedStage? r = some stage) :
    ∃ n cause, r = .error (.instantiation n stage cause) := by
  unfold failedStage? at h
  split at h
  · cases h
    exact ⟨_, _, rfl⟩
  · cases h

/-- The import is not found in an empty store. Where it is, the start function fails. -/
theorem instantiate_noTrace_launching :
    (∃ m c s' cause, Module.decodeUnder launching 0 (some .all) = .ok m ∧ m.compile {} false = .ok c ∧
      instantiate 0 m "main" false false (loaded {} c) =
        .ok (.error (.instantiation "main" "import[0] env.log" cause), s') ∧
      (loaded {} c).Extends s') ∧
    ∃ m c s' cause, Module.decodeUnder launching 0 (some .all) = .ok m ∧ m.compile {} false = .ok c ∧
      instantiate 0 m "main" false false (hosted.loaded c) =
        .ok (.error (.instantiation "main" "start" cause), s') ∧
      s'.names = hosted.names ∧ ∀ (k : MemoryId) mem, s'.memories[k]? = some mem → 0 ∉ mem.dependents := by
  constructor
  · have hlaunch : (launch {} false).bind failedStage? = some "import[0] env.log" := by decide +kernel
    obtain ⟨r, hr, hstage⟩ := Option.bind_eq_some_iff.mp hlaunch
    obtain ⟨n, cause, rfl⟩ := eq_error_of_failedStage? hstage
    obtain ⟨m, c, s', hm, hc, h⟩ := exists_of_launch hr
    obtain ⟨stage, cause', he, hextends, -⟩ := instantiate_noTrace hm ((sound_empty {}).loaded c) h
    cases he
    exact ⟨m, c, s', cause, hm, hc, h, (hextends (by decide)).1⟩
  · have hlaunch : (launch hosted false).bind failedStage? = some "start" := by decide +kernel
    obtain ⟨r, hr, hstage⟩ := Option.bind_eq_some_iff.mp hlaunch
    obtain ⟨n, cause, rfl⟩ := eq_error_of_failedStage? hstage
    obtain ⟨m, c, s', hm, hc, h⟩ := exists_of_launch hr
    obtain ⟨stage, cause', he, -, hstart⟩ := instantiate_noTrace hm (reachable_hosted.sound.loaded c) h
    cases he
    obtain ⟨-, -, hnames, -, hdependents⟩ := hstart rfl
    exact ⟨m, c, s', cause, hm, hc, h, hnames, hdependents⟩

theorem hasCode_of_compile {seen : List Section} (hb : m.Built source maxPages seen) {c : CompiledModule}
    (hc : s.cache.find? key = some c) {o : CompileOptions} (hcompile : m.compile o canceled = .ok c) :
    s.HasCode key m := by
  intro c' hc'
  cases hc.symm.trans hc'
  exact (hb.compiled hcompile).imported_le

/-- Where the start function does not run, a compiled module whose globals take less than 2^32 bytes is instantiated
without a defect: there is an instance, or an error that says what does not fit. The globals of a source of less than
2^31 bytes do. Every store that can be reached is sound. -/
theorem instantiate_defectFree (hm : Module.decodeUnder source maxPages checks = .ok m) (hs : s.Sound)
    {c : CompiledModule} (hc : s.cache.find? key = some c) {o : CompileOptions} {canceled' : Bool}
    (hcompile : m.compile o canceled' = .ok c) : (source.length < 2 ^ 31 → m.globalBytes < 2 ^ 32) ∧
    (m.globalBytes < 2 ^ 32 → ∃ r s', instantiate key m name true canceled s = .ok (r, s') ∧ s'.Sound ∧
      match r with
      | .ok i => i = s.instances.size ∧ ∃ x, s'.instances[i]? = some x ∧ x.name = name ∧ x.module = m
      | .error e => ∃ stage reason, e = .instantiation name stage (.because reason) ∧
        ∀ n, reason ≠ .importUnbound n) := by
  obtain ⟨seen, hb⟩ := Module.built_decodeUnder hm
  refine ⟨fun hsource => Nat.lt_of_le_of_lt hb.small (by omega), fun hfit => ?_⟩
  have htries : Tries True (instantiate key m name true canceled) s _ _ :=
    tries_instantiate hb (fun _ => hs) (fun _ => hasCode_of_compile hb hc hcompile)
      (fun _ => exists_outfit hb hs (hb.laid hfit).1) fun _ => rfl
  obtain ⟨r, s', hr⟩ := Does.not_defect htries trivial
  refine ⟨r, s', hr, sound_instantiate hb hr hs, ?_⟩
  cases r with
  | ok i =>
    obtain ⟨hi, x, hx⟩ := htries.of_ok hr
    exact ⟨hi, x, hi ▸ hx.stored, hx.name, hx.module⟩
  | error e =>
    obtain ⟨⟨stage, cause, he, -, reason, rfl, hreason⟩, -⟩ | ⟨hfalse, -⟩ := (htries.of_error hr).1
    · exact ⟨stage, reason, he, hreason⟩
    · cases hfalse

theorem instantiate_defectFree_launching :
    ∃ m c s', Module.decodeUnder launching 0 (some .all) = .ok m ∧ m.compile {} false = .ok c ∧
      instantiate 0 m "main" true false (hosted.loaded c) = .ok (.ok 0, s') ∧ s'.Sound ∧
      ∃ x, s'.instances[0]? = some x ∧ x.module = m := by
  obtain ⟨m, c, s₁, hm, hc, h₁⟩ := exists_launched
  obtain ⟨hsmall, hruns⟩ :=
    @instantiate_defectFree _ _ _ _ 0 "main" false _ hm (reachable_hosted.sound.loaded c) c rfl _ _ hc
  obtain ⟨r, s', h, hsound, hresult⟩ := hruns (hsmall (by decide +kernel))
  cases h.symm.trans h₁
  obtain ⟨-, x, hx, -, hmodule⟩ := hresult
  exact ⟨m, c, s₁, hm, hc, h, hsound, x, hx, hmodule⟩

section

open List Reader ProtoWasm.Module

def wide : Global := { type := ⟨.i64, false⟩, init := some ⟨.i64Const, [0]⟩ }

theorem layoutGlobals_wide (k n : Nat) :
    (layoutGlobals (8 * k % 2 ^ 32) (replicate n wide)).2 = 8 * (k + n) % 2 ^ 32 := by
  induction n generalizing k with
  | zero => rfl
  | succ n ih =>
    have hnext : (alignUp (8 * k % 2 ^ 32) 8 + 8) % 2 ^ 32 = 8 * (k + 1) % 2 ^ 32 := by
      unfold alignUp
      omega
    change (layoutGlobals ((alignUp (8 * k % 2 ^ 32) 8 + 8) % 2 ^ 32) (replicate n wide)).2 = _
    rw [hnext, ih]
    congr 2
    omega

/-- A module that defines so many of them and nothing else. -/
def crowded (n : Nat) : List UInt8 :=
  header ++
    encodeSection Section.globals.name (encodeAll encodeGlobal (replicate n wide))

theorem length_crowded {n : Nat} (hn : n ≤ 2 ^ 29) :
    (encodeSection Section.globals.name (encodeAll encodeGlobal (replicate n wide))).length < 2 ^ 32 := by
  have hname : (encodeName Section.globals.name).length = 8 := by decide +kernel
  have hwide : (encodeGlobal wide).length = 5 := by decide
  have hcount : (Leb128.encodeUnsigned n).length ≤ 5 := Leb128.length_encodeUnsigned_le (k := 4) (by omega)
  have hall : (encodeName Section.globals.name ++ encodeAll encodeGlobal (replicate n wide)).length ≤ 13 + n * 5 := by
    simp only [encodeAll, length_append, length_flatMap, map_replicate, hwide, sum_replicate_nat, length_replicate,
      hname]
    omega
  have hsize := Leb128.length_encodeUnsigned_le (k := 4) (Nat.lt_of_le_of_lt hall (by omega))
  rw [encodeSection, length_append]
  omega

theorem decode_crowded {n : Nat} (hn : n ≤ 2 ^ 29) : decode (crowded n) 0 = .ok {
      globals := (layoutGlobals 0 (replicate n wide)).1
      globalsSize := (layoutGlobals 0 (replicate n wide)).2 } := by
  have hlength := length_crowded hn
  have hreads : Accepts (readContents (effectiveLimit 0) .globals {}) (encodeAll encodeGlobal (replicate n wide))
      fun m => m = { globals := (layoutGlobals 0 (replicate n wide)).1,
                     globalsSize := (layoutGlobals 0 (replicate n wide)).2 } := by
    apply accepts_encodeAll (R := fun g a => a = { g with offset := 0 }) ?_ length_encodeGlobal_pos
    · intro k g hg _
      rw [eq_of_mem_replicate hg]
      exact accepts_global ⟨rfl, rfl, _, rfl, .i64 (v := 0) (by decide)⟩
    · intro gs hgs
      rw [map_of_forall₂ hgs, map_replicate]
      rfl
    · rw [encodeSection, length_append, length_append] at hlength
      omega
  obtain ⟨m, o, -, -, hrun, -, -, -, rfl⟩ :=
    decodeSections_encodeSection (s := .globals) (p := {}) (by decide) rfl hlength hreads (cut_header (_ ++ []))
  rw [append_nil] at hrun
  refine decode_header (p := ⟨_, [.globals]⟩) (o := o) ?_ fun _ => rfl
  rw [hrun, decodeSections]
  rfl

/-- The places of 2^29 globals of eight bytes end at 2^32, which is 0 in 32 bits, so there is no storage for them. -/
theorem instantiate_crowded : ∃ m c, decodeUnder (crowded (2 ^ 29)) 0 (some .all) = .ok m ∧
    m.compile {} false = .ok c ∧ (loaded {} c).Sound ∧
    instantiate 0 m "main" true false (loaded {} c) = .error .range := by
  generalize hn : 2 ^ 29 = n
  have hd := decode_crowded (Nat.le_of_eq hn.symm)
  have hsize : (layoutGlobals 0 (replicate n wide)).2 = 0 := by
    rw [← hn]
    exact layoutGlobals_wide 0 (2 ^ 29)
  obtain ⟨k, rfl⟩ := Nat.exists_eq_add_one.mpr (hn ▸ Nat.two_pow_pos 29)
  rw [hsize] at hd
  obtain ⟨gs, hgs⟩ : ∃ gs, (layoutGlobals 0 (replicate (k + 1) wide)).1 = wide :: gs := ⟨_, rfl⟩
  rw [hgs] at hd
  have hcollect : collect false [] = .ok [] := by
    rw [collect, mergeSort_nil]
    rfl
  refine ⟨_, _, decodeUnder_eq_ok.mpr ⟨hd, ?_⟩, congrArg (Except.map _) hcollect, (sound_empty {}).loaded _, rfl⟩
  rintro _ ⟨⟩
  rfl

end

end ProtoWasm.Store
