import ProtoWasm.Proofs.Execution.Blind
import ProtoWasm.Proofs.Store.CallTargets
import ProtoWasm.Proofs.Store.Changes

/-! # How instances are wired

A function of another instance is called by its code only if it is not one of the host, and by way of its instance it
is found at its index. The entry point of a function leads to the same code as its index.
-/
namespace ProtoWasm

/-- Entry points lead where the entries of their functions lead. -/
def CodeTable.Joined (t : CodeTable) : Prop :=
  ∀ k w, t.wrapper? k = some w → ∃ p r, w = .exportWrapper k p ∧ t.relocs[p]? = some r ∧ t.entries[k]? = some r.ref

namespace Store

open StoreM

variable {s s' s₀ : Store} {m : Module} {name : String} {key : ModuleKey} {x : Instance} {source : List UInt8}
  {limit : Nat} {seen : List Section} {c : Code}

/-- Code of another instance is that of a function which is not one of the host. -/
def Usable (s : Store) (c : Code) : Prop :=
  ∀ k f, c = .reuse k f → ∃ g, s.functions[f]? = some g ∧ g.host = none

structure Connects (s : Store) (t : CodeTable) : Prop where
  entries : ∀ c ∈ t.entries, s.Usable c
  places : ∀ r ∈ t.relocs, s.Usable r.ref
  joined : t.Joined

structure Wired (s : Store) : Prop where
  executor : s.config.executor.Blind
  hosts : ∀ (f : FunctionId) g, s.functions[f]? = some g → ∀ h, g.host = some h → h.Blind
  indices : ∀ (f : FunctionId) g x, s.functions[f]? = some g → s.instances[g.owner]? = some x →
    x.code.isSome = true → g.index < x.functions.length
  code : ∀ (i : InstanceId) x c, s.instances[i]? = some x → x.code = some c → s.Connects c.table

/-- No function of the host that can be found looks at the names in errors. -/
def BlindNames (s : Store) : Prop := ∀ h, s.Registered h → h.Blind

theorem Usable.keeps (h : s.Usable c) (hs : Keeps s.functions s'.functions) : s'.Usable c := by
  intro k f hc
  obtain ⟨g, hg, hhost⟩ := h k f hc
  exact ⟨g, hs f g hg, hhost⟩

theorem usable_of_kind (h : c.kind ≠ .reuse) : s.Usable c := by
  rintro k f rfl
  exact absurd rfl h

theorem Connects.keeps {t : CodeTable} (h : s.Connects t) (hs : Keeps s.functions s'.functions) : s'.Connects t where
  entries c hc := (h.entries c hc).keeps hs
  places r hr := (h.places r hr).keeps hs
  joined := h.joined

theorem connects_empty : s.Connects {} where
  entries _ hc := nomatch hc
  places _ hr := nomatch hr
  joined _ _ hw := nomatch hw

theorem Links.connects {functions : List (Option FunctionId)} {memory : Option MemoryId} {code : LinkedCode}
    (h : s.Links key m functions memory code) (hc : code.compiled.table.Compiled m) : s.Connects code.table := by
  have hr := h.resolves hc
  obtain ⟨t, hb, ht⟩ := h.table
  have hentries : ∀ c ∈ code.table.entries, s.Usable c := by
    intro c hmem
    obtain ⟨j, hj⟩ := List.getElem?_of_mem hmem
    rw [ht] at hj
    by_cases hlt : j < m.importedFunctions
    · obtain ⟨id, c', -, hc', he⟩ := hb.imports j (Nat.zero_le j) (by omega)
      cases hj.symm.trans he
      cases hc' with
      | adapter => exact usable_of_kind CodeKind.noConfusion
      | @reuse f y linked hs hf hh hy hl =>
        rintro k f' ⟨⟩
        exact ⟨f, hf, hh⟩
    · have hold := (hb.others j (.inr (by omega))).symm.trans hj
      by_cases hdefined : j < m.functions.length
      · obtain ⟨g, hg, -⟩ := hc.functions j (Nat.le_of_not_lt hlt) hdefined
        cases hold.symm.trans hg
        exact usable_of_kind CodeKind.noConfusion
      · obtain ⟨i, p, r, rfl, -⟩ := hc.entryPoints j c (Nat.le_of_not_lt hdefined) hold
        exact usable_of_kind CodeKind.noConfusion
  refine ⟨hentries, fun r hmem => ?_, fun k w hw => ?_⟩
  · exact hentries _ (List.mem_of_getElem? (hr.targets r hmem).2)
  · obtain ⟨p, r, rfl, hreloc, rfl⟩ := hr.wrappers k w hw
    exact ⟨p, r, rfl, hreloc, (hr.targets r (List.mem_of_getElem? hreloc)).2⟩

theorem wired_empty {config : StoreConfig} (h : config.executor.Blind) : Wired { config } where
  executor := h
  hosts := by simp
  indices := by simp
  code := by simp

theorem Stays.instance {i : InstanceId} {x' : Instance} (h : s.Stays s') (hx' : s'.instances[i]? = some x') :
    ∃ x, s.instances[i]? = some x ∧ x.Continues x' := by
  have hlt := lt_size hx'
  rw [h.count] at hlt
  obtain ⟨y, hy, hcontinues⟩ := h.instances i _ (Array.getElem?_eq_getElem hlt)
  cases hx'.symm.trans hy
  exact ⟨_, Array.getElem?_eq_getElem hlt, hcontinues⟩

theorem Stays.wired (h : s.Stays s') (hs : s.Wired) : s'.Wired where
  executor := h.config ▸ hs.executor
  hosts := h.functions ▸ hs.hosts
  indices := by
    intro f g x' hg hx' hcode
    obtain ⟨x, hx, hcontinues⟩ := h.instance hx'
    rw [h.functions] at hg
    rw [hcontinues.functions]
    exact hs.indices f g x hg hx (hcontinues.isSome_code ▸ hcode)
  code := by
    intro i x' c' hx' hc'
    obtain ⟨x, hx, hcontinues⟩ := h.instance hx'
    have hkeeps : Keeps s.functions s'.functions := h.functions ▸ Keeps.refl _
    have hcode := hcontinues.code
    rw [hc'] at hcode
    cases hc : x.code with
    | none =>
      rw [hc] at hcode
      rcases hcode with hcode | hcode <;> cases hcode
    | some c =>
      rw [hc] at hcode
      rcases hcode with hcode | hcode
      · have htable : c'.table = c.table := (congrArg LinkedCode.table (Option.some.inj hcode) :)
        rw [htable]
        exact (hs.code i x c hx hc).keeps hkeeps
      · have htable : c'.table = {} := (congrArg LinkedCode.table (Option.some.inj hcode) :)
        rw [htable]
        exact connects_empty

/-- The store has one more instance, and what is new belongs to it. -/
theorem Grown.wired (hg : Grown s₀ m s) (h : s₀.Wired) (hs : s₀.Sound) (hnames : s₀.BlindNames)
    (hx : s.instances[s₀.instances.size]? = some x)
    (hcode : ∀ c, x.code = some c → s.Connects c.table ∧ x.functions.length = m.functions.length) : s.Wired where
  executor := hg.kept.config ▸ h.executor
  hosts := by
    intro f g hf host hhost
    by_cases hlt : f < s₀.functions.size
    · have hkept := hg.kept.functions f _ (Array.getElem?_eq_getElem hlt)
      cases hf.symm.trans hkept
      exact h.hosts f _ (Array.getElem?_eq_getElem hlt) host hhost
    · exact hnames host (hg.newHosts f g (Nat.le_of_not_lt hlt) hf host hhost)
  indices := by
    intro f g y hf hy hsome
    by_cases hlt : f < s₀.functions.size
    · have hkept := hg.kept.functions f _ (Array.getElem?_eq_getElem hlt)
      cases hf.symm.trans hkept
      have hold := Array.getElem?_eq_getElem hlt
      have howner := Array.getElem?_eq_getElem (hs.owners f _ hold)
      cases hy.symm.trans (hg.kept.instances _ _ howner)
      exact h.indices f _ _ hold howner hsome
    · obtain ⟨howner, hindex, -⟩ := hg.newFunctions f g (Nat.le_of_not_lt hlt) hf
      rw [howner] at hy
      cases hx.symm.trans hy
      obtain ⟨c, hc⟩ := Option.isSome_iff_exists.mp hsome
      exact (hcode c hc).2 ▸ hindex
  code := by
    intro i y c hy hc
    by_cases hlt : i < s₀.instances.size
    · have hold := Array.getElem?_eq_getElem hlt
      cases hy.symm.trans (hg.kept.instances _ _ hold)
      exact (h.code i _ c hold hc).keeps hg.kept.functions
    · have hsize := lt_size hy
      rw [hg.count] at hsize
      obtain rfl : i = s₀.instances.size := Nat.le_antisymm (Nat.le_of_lt_succ hsize) (Nat.le_of_not_lt hlt)
      cases hx.symm.trans hy
      exact (hcode c hc).1

/-- The code that is kept under the key is that of the module. -/
def Loaded (s : Store) (key : ModuleKey) (m : Module) : Prop :=
  ∀ c, s.cache.find? key = some c → c.table.Compiled m

theorem Activated.wired {s₁ : Store} {x₁ : Instance} (ha : Activated s₀.instances.size key s x s₁ x₁)
    (hc : Complete s₀ m name s x) (hb : m.Built source limit seen) (hkey : s₀.Loaded key m) (h : s₀.Wired)
    (hs : s₀.Sound) (hnames : s₀.BlindNames) : s₁.Wired := by
  obtain ⟨code, hlink, rfl⟩ := ha.linked
  obtain ⟨tables, memories, hs₁⟩ := ha.eq_with
  have hd := hc.drafted.2
  obtain rfl := hd.module
  have htries : Tries False (linkInstance x.name key x.module x.functions x.memory) s _ _ :=
    tries_linkInstance False.elim (hc.conforms.imported hb) hd.memory False.elim
  obtain ⟨-, -, hlinks⟩ := htries.of_ok hlink
  have hcompiled := hkey _ (hd.kept.cache ▸ hlinks.cached)
  have hg : Grown s₀ x.module { s with instances := s.instances.modify s₀.instances.size fun _ =>
      { x with code := some code } } := hd.toGrown.put _
  have hwired := hg.wired h hs hnames (hd.toGrown.stored_put _) <| by
    rintro c ⟨⟩
    exact ⟨(hlinks.connects hcompiled).keeps (.refl _), hd.functions⟩
  rw [hs₁]
  exact { hwired with code := fun i y c hy hc => (hwired.code i y c hy hc).keeps (.refl _) }

theorem Adds.wired (ha : Adds s₀ m name key s') (hb : m.Built source limit seen) (hkey : s₀.Loaded key m)
    (h : s₀.Wired) (hs : s₀.Sound) (hnames : s₀.BlindNames) : s'.Wired := by
  cases ha with
  | pending hx hp hstays =>
    refine hstays.wired (hp.toGrown.wired h hs hnames hx ?_)
    intro c hc
    cases hp.code.symm.trans hc
  | activated hc ha hstays => exact hstays.wired (ha.wired hc hb hkey h hs hnames)

end Store

end ProtoWasm
