import ProtoWasm.Proofs.Store.Outcome

/-! # Where the calls of an instance go

A module that was compiled can be linked for any functions that it imports. In an instance with that code the calls
of a function enter the functions that its graph names, and the entry point of an export enters the function that
is exported.
-/
namespace ProtoWasm.Store

open StoreM

variable {s : Store} {m : Module} {key : ModuleKey} {functions : List (Option FunctionId)} {i : InstanceId}
  {code : LinkedCode} {canceled : Bool} {memory : Option MemoryId} {r : Reloc}

theorem BindsImports.binds {n : Nat} {t t' : CodeTable} (h : s.BindsImports functions n 0 t t') :
    CodeTable.Binds n t t' := by
  refine ⟨h.relocs, fun k hk => ?_, fun k hk => h.others k (.inr (by omega))⟩
  obtain ⟨id, c, -, hc, he⟩ := h.imports k (Nat.zero_le k) (by omega)
  cases hc with
  | adapter => exact ⟨_, he, rfl, .inl rfl⟩
  | reuse => exact ⟨_, he, rfl, .inr rfl⟩

theorem Links.resolves (h : s.Links key m functions memory code)
    (hc : code.compiled.table.Compiled m) : CodeTable.Resolves m code.compiled.table code.table := by
  obtain ⟨t, hb, ht⟩ := h.table
  exact ht ▸ hc.resolves hb.binds

/-- An instance has this code. What the code embeds of a memory may differ. -/
def Runs (s : Store) (i : InstanceId) (code : LinkedCode) : Prop :=
  ∃ x c, s.instances[i]? = some x ∧ x.code = some c ∧ codeShape c = codeShape code

theorem Runs.getCode (h : s.Runs i code) :
    ∃ c, getCode i s = .ok (c, s) ∧ c.compiled = code.compiled ∧ c.table = code.table := by
  obtain ⟨x, c, hx, hc, hshape⟩ := h
  exact ⟨c, getCode_of_some hx hc, (congrArg LinkedCode.compiled hshape :), (congrArg LinkedCode.table hshape :)⟩

/-- A direct call enters what its place refers to. -/
theorem Runs.callAt (h : s.Runs i code) {k p : Nat} {g : Graph} {n : NodeId}
    (hp : code.compiled.table.site? k n = some p) (hr : code.table.relocs[p]? = some r) (enter : Enter)
    (depth : Nat) (params : List UInt64) :
    callAt enter ⟨i, some (k, g), depth⟩ n params s = enter i r.ref params (depth + 1) s := by
  obtain ⟨c, hc, hcompiled, htable⟩ := h.getCode
  have hplan : planCall ⟨i, some (k, g), depth⟩ n params s = .ok (.enter ⟨i, r.ref, params, depth + 1⟩ id, s) := by
    refine (bind_of_ok hc).trans ?_
    rw [hcompiled, hp, htable]
    dsimp only
    rw [hr]
    rfl
  exact (bind_of_ok hplan).trans (congrFun (bind_pure _) s)

/-- The entry point of an export enters what its place refers to. -/
theorem Runs.invoke_wrapper (h : s.Runs i code) {k p : Nat} (hr : code.table.relocs[p]? = some r)
    (fuel : Nat) (params : List UInt64) (depth : Nat) :
    invoke canceled (fuel + 2) i (.exportWrapper k p) params depth s =
      invoke canceled (fuel + 1) i r.ref params depth s := by
  rw [invoke, invoke]
  by_cases hdepth : maxCallDepth ≤ depth
  · rw [enterCode_of_deep hdepth, enterCode_of_deep hdepth]
  cases canceled with
  | true => rw [enterCode_of_canceled hdepth, enterCode_of_canceled hdepth]
  | false =>
    obtain ⟨c, hc, -, htable⟩ := h.getCode
    have hturn : turn ⟨i, .exportWrapper k p, params, depth⟩ s = .ok (.pass ⟨i, r.ref, params, depth⟩, s) := by
      refine (bind_of_ok hc).trans ?_
      rw [htable, hr]
      rfl
    rw [enterCode_of_open hdepth]
    exact bind_of_ok hturn

/-- Everything that code of an instance calls directly is a function of the instance. -/
structure Directs (m : Module) (functions : List (Option FunctionId)) (code : LinkedCode) : Prop where
  imports : ∀ k < m.importedFunctions, ∃ f, functions[k]? = some (some f) ∧
    (code.table.entries[k]? = some (.importAdapter k f) ∨ code.table.entries[k]? = some (.reuse k f))
  defined : ∀ k, m.importedFunctions ≤ k → k < m.functions.length →
    ∃ g, code.compiled.graph? m k = some g ∧ code.table.entries[k]? = some (.function k g)
  /-- A place refers to the entry of the function that it calls. -/
  places : ∀ r ∈ code.table.relocs, r.target < m.functions.length ∧ code.table.entries[r.target]? = some r.ref ∧
    r.ref.index = r.target ∧ r.ref.kind ≠ .placeholder ∧ r.ref.kind ≠ .exportWrapper
  /-- The place of a call node calls the function that the node names. -/
  calls : ∀ k g n x, code.compiled.graph? m k = some g → g.node? n = some x → x.op = .call →
    ∃ p r, code.compiled.table.site? k n = some p ∧ code.table.relocs[p]? = some r ∧ r.target = x.aux ∧
      ∀ s i, Runs s i code → ∀ enter depth params,
        callAt enter ⟨i, some (k, g), depth⟩ n params s = enter i r.ref params (depth + 1) s
  /-- The entry point of an exported function does what the function does. -/
  exports : ∀ e ∈ m.exports, e.kind = .func → ∃ w c, code.table.wrapper? e.index = some w ∧
    code.table.entries[e.index]? = some c ∧ ∀ s i, Runs s i code → ∀ canceled fuel params depth,
      invoke canceled (fuel + 2) i w params depth s = invoke canceled (fuel + 1) i c params depth s

theorem Links.directs (h : s.Links key m functions memory code)
    (hc : code.compiled.table.Compiled m) : Directs m functions code := by
  have hr := h.resolves hc
  obtain ⟨t, hb, ht⟩ := h.table
  have hgraph {k : Nat} {g : Graph} (hg : code.compiled.graph? m k = some g) :
      code.table.entries[k]? = some (.function k g) := by
    obtain ⟨hk, -, he⟩ := hc.graph?_eq_some.mp hg
    rw [ht, CodeTable.link_entries, hb.others k (.inr (by omega)), he]
  constructor
  case imports =>
    intro k hk
    obtain ⟨f, c, hf, hcode, he⟩ := hb.imports k (Nat.zero_le k) (by omega)
    rw [ht, CodeTable.link_entries, he]
    cases hcode with
    | adapter => exact ⟨f, hf, .inl rfl⟩
    | reuse => exact ⟨f, hf, .inr rfl⟩
  case defined =>
    intro k hk hlt
    obtain ⟨g, he, -⟩ := hc.functions k hk hlt
    have hg := hc.graph?_eq_some.mpr ⟨hk, hlt, he⟩
    exact ⟨g, hg, hgraph hg⟩
  case places =>
    intro r hmem
    obtain ⟨hlt, he⟩ := hr.targets r hmem
    exact ⟨hlt, he, hr.ref hmem⟩
  case calls =>
    intro k g n x hg hx hop
    obtain ⟨p, r, hp, hreloc, htarget⟩ := hr.calls k g n x (hgraph hg) hx hop
    exact ⟨p, r, hp, hreloc, htarget, fun s i hruns enter depth params => hruns.callAt hp hreloc enter depth params⟩
  case exports =>
    intro e he hk
    obtain ⟨w, hw⟩ := hr.exported e he hk
    obtain ⟨p, r, rfl, hreloc, htarget⟩ := hr.wrappers _ w hw
    refine ⟨_, r.ref, hw, ?_, fun s i hruns canceled fuel params depth => ?_⟩
    · rw [← htarget]
      exact (hr.targets r (List.mem_of_getElem? hreloc)).2
    · exact hruns.invoke_wrapper hreloc fuel params depth

/-- A module that was decoded and compiled is linked for any functions that it imports. Nothing in the store changes,
the code that all instances of the module share included. -/
theorem linkInstance_directs {source : List UInt8} {maxPages : Nat} {checks : Option Module.Checks}
    (hm : Module.decodeUnder source maxPages checks = .ok m) {o : CompileOptions} {c : CompiledModule}
    (hc : m.compile o canceled = .ok c) (hs : s.Sound) (hkey : s.cache.find? key = some c)
    (hin : ∀ k < m.importedFunctions, ∃ f, functions[k]? = some (some f) ∧ f < s.functions.size)
    {name : String} {memory : Option MemoryId} (hmemory : ∀ id, memory = some id → id < s.memories.size) :
    ∃ code, linkInstance name key m functions memory s = .ok (.ok code, s) ∧ code.compiled = c ∧
      Directs m functions code := by
  obtain ⟨seen, hb⟩ := Module.built_decodeUnder hm
  have hcompiled := hb.compiled hc
  have hin : ∀ k < m.importedFunctions, ∃ id f, functions[k]? = some (some id) ∧ s.functions[id]? = some f := by
    intro k hk
    obtain ⟨id, hid, hlt⟩ := hin k hk
    exact ⟨id, _, hid, Array.getElem?_eq_getElem hlt⟩
  have htries : Tries True (linkInstance name key m functions memory) s _ _ :=
    tries_linkInstance (fun _ => hs) hin hmemory fun _ => forall_of_eq_some hkey hcompiled.imported_le
  obtain ⟨r, s', hr⟩ := Does.not_defect htries trivial
  cases r with
  | ok code =>
    obtain ⟨rfl, -, hlinks⟩ := htries.of_ok hr
    obtain rfl := Option.some.inj (hkey.symm.trans hlinks.cached)
    exact ⟨code, hr, rfl, hlinks.directs hcompiled⟩
  | error e =>
    obtain ⟨-, -, hbound⟩ := htries.of_error hr
    obtain ⟨t, hbinds, hunresolved⟩ := hbound c hkey
    exact absurd (hcompiled.resolves hbinds.binds).unresolved hunresolved

section

open ProtoWasm.Module

/-- A module that imports a function and defines one, which calls the import and itself. The function is exported
twice, and the import is exported too. -/
def relaying : List UInt8 :=
  header ++
    encodeSection "signatures" ([1] ++ encodeSignature ⟨[.i32], [.i32]⟩) ++
    encodeSection "import_table" ([1] ++ encodeImport ⟨"env", "log", .func 0, 0⟩) ++
    encodeSection "function_signatures" [1, 0] ++
    encodeSection "export_table" ([3] ++ encodeExport ⟨.func, "first", 1⟩ ++ encodeExport ⟨.func, "again", 1⟩ ++
      encodeExport ⟨.func, "log", 0⟩) ++
    encodeSection "function_bodies" [1, 7, 0, 0x12, 0x01, 0x12, 0x00, 0x0e, 0x00]

def calling : Store where
  functions := #[⟨0, 0, ⟨[.i32], [.i32]⟩, 0, "env.log", some logging⟩]
  instances := #[.ofModule "main" {}]

theorem sound_calling : calling.Sound where
  owners k f hf := by
    obtain ⟨hk, rfl⟩ := Array.getElem?_eq_some_iff.mp hf
    obtain rfl : k = 0 := Nat.lt_one_iff.mp hk
    exact Nat.zero_lt_one
  views k g hg := by simp [calling] at hg
  resolved module field v hv := by cases hv
  dependents k m hm := by simp [calling] at hm

theorem linkInstance_directs_relaying :
    ∃ m c code, decodeUnder relaying 0 (some .all) = .ok m ∧ m.compile {} false = .ok c ∧
      c.table.relocs.map Reloc.target = [0, 1, 1, 1, 0] ∧
      linkInstance "main" 0 m [some 0, none] none (calling.loaded c) = .ok (.ok code, calling.loaded c) ∧
      code.compiled = c ∧ Directs m [some 0, none] code := by
  have hok : (decodeUnder relaying 0 (some .all)).toOption.bind (fun m => (m.compile {} false).toOption.map fun c =>
      (m.importedFunctions, c.table.relocs.map Reloc.target)) = some (1, [0, 1, 1, 1, 0]) := by
    decide +kernel
  obtain ⟨m, hm, hok⟩ := Option.bind_eq_some_iff.mp hok
  obtain ⟨c, hc, hok⟩ := Option.map_eq_some_iff.mp hok
  obtain ⟨himported, htargets⟩ := Prod.mk.inj hok
  have hm := toOption_eq_some.mp hm
  have hc := toOption_eq_some.mp hc
  have hin : ∀ k < m.importedFunctions, ∃ f, ([some 0, none] : List (Option FunctionId))[k]? = some (some f) ∧
      f < (calling.loaded c).functions.size := by
    intro k hk
    obtain rfl : k = 0 := by omega
    exact ⟨0, rfl, Nat.zero_lt_one⟩
  obtain ⟨code, hcode, hcompiled, hdirects⟩ : ∃ code, linkInstance "main" 0 m [some 0, none] none
      (calling.loaded c) = .ok (.ok code, calling.loaded c) ∧ code.compiled = c ∧ Directs m _ code :=
    linkInstance_directs hm hc (sound_calling.loaded c) rfl hin (by simp)
  exact ⟨m, c, code, hm, hc, htargets, hcode, hcompiled, hdirects⟩

end

end ProtoWasm.Store
