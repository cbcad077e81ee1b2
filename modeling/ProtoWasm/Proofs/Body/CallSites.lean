import ProtoWasm.Proofs.Body.Tracking
import ProtoWasm.Proofs.Body.WellTyped

/-! # What a graph notes of a body

A graph notes a direct call, or a node that embeds something of the memory, when it emits the node. In the graph of a
body that is accepted every call is of a function of the module.
-/
namespace ProtoWasm

open ProtoWasm.Graph

theorem MemoryRefKind.op_injective {k k' : MemoryRefKind} (h : k.op = k'.op) : k = k' := by
  cases k <;> cases k' <;> first | rfl | cases h

/-- The direct calls and the references to the memory that a graph notes are those of its nodes. -/
structure Graph.Tallies (g : Graph) : Prop where
  node : ∀ c ∈ g.callSites, c.indirect = false →
    ∃ x, g.node? c.node = some x ∧ x.op = .call ∧ x.aux = c.target
  noted : ∀ n x, g.node? n = some x → x.op = .call → (⟨n, x.aux, false⟩ : CallSite) ∈ g.callSites
  embedding : ∀ r ∈ g.memoryRefs, ∃ x, g.node? r.node = some x ∧ x.op = r.kind.op
  embedded : ∀ n x kind, g.node? n = some x → x.op = MemoryRefKind.op kind → (⟨n, kind⟩ : MemoryRef) ∈ g.memoryRefs

namespace Graph.Tallies

variable {g g' : Graph} {c : CallSite}

/-- Notes of calls stay right as long as nodes keep what they call. -/
theorem node_of_extends (h : g.Tallies) (hg : g.Extends g') (hc : c ∈ g.callSites)
    (hi : c.indirect = false) : ∃ x, g'.node? c.node = some x ∧ x.op = .call ∧ x.aux = c.target := by
  obtain ⟨x, hx, hop, haux⟩ := h.node c hc hi
  obtain ⟨y, hy, hxy⟩ := hg c.node x hx
  exact ⟨y, hy, hxy.op.trans hop, hxy.aux.trans haux⟩

theorem embedding_of_extends (h : g.Tallies) (hg : g.Extends g') {r : MemoryRef} (hr : r ∈ g.memoryRefs) :
    ∃ x, g'.node? r.node = some x ∧ x.op = r.kind.op := by
  obtain ⟨x, hx, hop⟩ := h.embedding r hr
  obtain ⟨y, hy, hxy⟩ := hg r.node x hx
  exact ⟨y, hy, hxy.op.trans hop⟩

theorem push {x : Node} (h : g.Tallies) (hn : g'.nodes = g.nodes.push x)
    (hnode : ∀ c ∈ g'.callSites, c.indirect = false → c ∈ g.callSites ∨
      c.node = g.nodes.size + 1 ∧ x.op = .call ∧ x.aux = c.target)
    (hsites : ∀ c ∈ g.callSites, c ∈ g'.callSites)
    (hcall : x.op = .call → ⟨g.nodes.size + 1, x.aux, false⟩ ∈ g'.callSites)
    (hembedding : ∀ r ∈ g'.memoryRefs, r ∈ g.memoryRefs ∨ r.node = g.nodes.size + 1 ∧ x.op = r.kind.op)
    (hrefs : ∀ r ∈ g.memoryRefs, r ∈ g'.memoryRefs)
    (hembedded : ∀ kind : MemoryRefKind, x.op = kind.op → ⟨g.nodes.size + 1, kind⟩ ∈ g'.memoryRefs) : g'.Tallies where
  node c hc hi := by
    rcases hnode c hc hi with hc | ⟨hnew, hop, haux⟩
    · exact h.node_of_extends (.push hn) hc hi
    · exact ⟨x, hnew ▸ node?_new hn, hop, haux⟩
  noted n y hy hop := by
    rw [node?_of_push hn] at hy
    split at hy
    · rename_i hnew
      cases hy
      exact hnew ▸ hcall hop
    · exact hsites _ (h.noted n y hy hop)
  embedding r hr := by
    rcases hembedding r hr with hr | ⟨hnew, hop⟩
    · exact h.embedding_of_extends (.push hn) hr
    · exact ⟨x, hnew ▸ node?_new hn, hop⟩
  embedded n y kind hy hop := by
    rw [node?_of_push hn] at hy
    split at hy
    · rename_i hnew
      cases hy
      exact hnew ▸ hembedded kind hop
    · exact hrefs _ (h.embedded n y kind hy hop)

theorem modify (h : g.Tallies) {m : NodeId} {f : Node → Node} (hf : ∀ x : Node, x.Grows (f x)) :
    (g.modifyNode m f).Tallies := by
  have hs : (g.modifyNode m f).notes = g.notes := by
    unfold modifyNode
    split <;> rfl
  have hcalls : (g.modifyNode m f).callSites = g.callSites := congrArg Prod.fst hs
  have hrefs : (g.modifyNode m f).memoryRefs = g.memoryRefs := congrArg Prod.snd hs
  have hg : g.Extends (g.modifyNode m f) := .modify fun x _ => hf x
  have hold : ∀ n y, (g.modifyNode m f).node? n = some y → ∃ x, g.node? n = some x ∧ x.Grows y := by
    intro n y hy
    rw [node?_modifyNode] at hy
    split at hy
    · obtain ⟨x, hx, rfl⟩ := Option.map_eq_some_iff.mp hy
      exact ⟨x, hx, hf x⟩
    · exact ⟨y, hy, .refl y⟩
  refine ⟨fun c hc hi => h.node_of_extends hg (hcalls ▸ hc) hi, fun n y hy hop => ?_,
    fun r hr => h.embedding_of_extends hg (hrefs ▸ hr), fun n y kind hy hop => ?_⟩
  · obtain ⟨x, hx, hxy⟩ := hold n y hy
    rw [hcalls, hxy.aux]
    exact h.noted n x hx (hxy.op ▸ hop)
  · obtain ⟨x, hx, hxy⟩ := hold n y hy
    rw [hrefs]
    exact h.embedded n x kind hx (hxy.op ▸ hop)

theorem builds (h : g.Tallies) (hb : g.Builds g') : g'.Tallies := by
  induction hb with
  | refl g => exact h
  | trans _ _ ih ih' => exact ih' (ih h)
  | @push g g' x hn hs hx =>
    obtain ⟨hcalls, hrefs⟩ := Prod.mk.inj hs
    refine h.push hn ?_ ?_ ?_ ?_ ?_ ?_
    · exact fun c hc _ => .inl (hcalls ▸ hc)
    · exact fun c hc => hcalls ▸ hc
    · intro hop
      cases (congrArg Op.noted hop).symm.trans hx
    · exact fun r hr => .inl (hrefs ▸ hr)
    · exact fun r hr => hrefs ▸ hr
    · intro kind hop
      rw [hop] at hx
      cases kind <;> cases hx
  | @call g g' x indirect hn hs hx =>
    obtain ⟨hcalls, hrefs⟩ := Prod.mk.inj hs
    refine h.push hn ?_ ?_ ?_ ?_ ?_ ?_
    · intro c hc hi
      rw [hcalls, Array.mem_push] at hc
      rcases hc with hc | rfl
      · exact .inl hc
      · obtain rfl : indirect = false := hi
        exact .inr ⟨rfl, hx, rfl⟩
    · exact fun c hc => hcalls ▸ Array.mem_push_of_mem _ hc
    · intro hop
      rw [hcalls, Array.mem_push]
      cases indirect with
      | false => exact .inr rfl
      | true => exact absurd (hx.symm.trans hop) Op.noConfusion
    · exact fun r hr => .inl (hrefs ▸ hr)
    · exact fun r hr => hrefs ▸ hr
    · intro kind hop
      rw [hop] at hx
      cases indirect <;> cases kind <;> cases hx
  | @reference g g' x kind hn hs hx =>
    obtain ⟨hcalls, hrefs⟩ := Prod.mk.inj hs
    refine h.push hn ?_ ?_ ?_ ?_ ?_ ?_
    · exact fun c hc _ => .inl (hcalls ▸ hc)
    · exact fun c hc => hcalls ▸ hc
    · intro hop
      rw [hop] at hx
      cases kind <;> cases hx
    · intro r hr
      rw [hrefs, Array.mem_push] at hr
      rcases hr with hr | rfl
      · exact .inl hr
      · exact .inr ⟨rfl, hx⟩
    · exact fun r hr => hrefs ▸ Array.mem_push_of_mem _ hr
    · intro kind' hop
      rw [hrefs, MemoryRefKind.op_injective (hop.symm.trans hx)]
      exact Array.mem_push_self
  | modify hf => exact h.modify hf

theorem target_lt {b : FunctionBody} (h : g.Tallies) (hw : g.WellTyped b) (hc : c ∈ g.callSites)
    (hi : c.indirect = false) : c.target < b.module.functions.length := by
  obtain ⟨x, hx, hop, haux⟩ := h.node c hc hi
  obtain ⟨operands, hs, -⟩ := hw c.node x hx
  simp only [Node.signature?, hop, Module.functionType?, Option.map_map, Option.map_eq_some_iff] at hs
  obtain ⟨f, hf, -⟩ := hs
  rw [← haux]
  exact (List.getElem?_eq_some_iff.mp hf).1

end Graph.Tallies

namespace Body

variable {ctx : Context} {s s' : State}

/-- The graph of a body notes the direct calls and the references to the memory of its nodes. -/
theorem build_tallies {b : FunctionBody} {o : Options} {r : Result} {g : Graph} (h : build b o = .ok r)
    (hg : r.graph = some g) : g.Tallies := by
  obtain ⟨xs, es, ts, s, d, -, hf, -, hts, hd, hr⟩ := build_ok h
  have hempty : ({ signature := b.signature } : Graph).Tallies :=
    ⟨fun c hc => by simp at hc, fun n x hx => by simp [node?] at hx, fun r hr => by simp at hr,
      fun n x kind hx => by simp [node?] at hx⟩
  have hentry := hempty.builds (entryEnv_plain b _).builds
  have hdec := decodes_of_evalAll (codeAll_of_forest hf).2 hts
  obtain ⟨g', hg', hb⟩ := builds_trans hdec.builds hd.plain.builds _ rfl
  rw [← hr, hg] at hg'
  cases hg'
  exact hentry.builds hb

end Body

end ProtoWasm
