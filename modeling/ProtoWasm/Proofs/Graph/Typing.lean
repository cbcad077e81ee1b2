import Mathlib.Data.List.Forall2
import ProtoWasm.Body.Basic
import ProtoWasm.Proofs.Graph.Growth

/-! # Types of nodes

Every operation needs values of certain types and gives a value of a type, or none. The values of a node are
its first inputs, and after them come the effects and the control that it depends on. A graph is well typed if
every node has the inputs it needs.
-/
namespace ProtoWasm

open List

/-- The operations that have as many effects or controls as inputs. -/
def Op.gathers : Op → Bool
  | .ifTrue | .ifFalse | .ifValue | .ifDefault | .merge | .loop | .effectPhi => true
  | _ => false

/-- How many values a return can have: one for each result, and at the end of a body at most one. -/
def FunctionBody.Returns (b : FunctionBody) (n : Nat) : Prop :=
  n = b.signature.results.length ∨ n = min 1 b.signature.results.length

instance (b : FunctionBody) (n : Nat) : Decidable (b.Returns n) := inferInstanceAs (Decidable (_ ∨ _))

namespace Node

/-- The types of the values that a node needs, and the type of what it gives. -/
def signature? (b : FunctionBody) (x : Node) : Option (List ValType × ValType) :=
  match x.op with
  | .param => b.signature.params[x.aux]?.map fun t => ([], t)
  | .int32Constant | .memorySize => some ([], .i32)
  | .int64Constant | .memoryBase => some ([], .i64)
  | .float32Constant => some ([], .f32)
  | .float64Constant => some ([], .f64)
  | .unop | .binop => x.opcode.numeric?.map fun sig => (sig.params, sig.resultType)
  | .branch | .switch => some ([.i32], .void)
  | .phi => some (List.replicate (x.inputs.length - 1) x.type, x.type)
  | .ret =>
    let n := x.inputs.length - 2
    if b.Returns n then some (b.signature.results.take n, .void) else none
  | .loadGlobal => b.module.globals[x.aux]?.map fun v => ([], v.type.valType)
  | .storeGlobal => b.module.globals[x.aux]?.map fun v => ([v.type.valType], .void)
  -- the base and the size of the memory, and the index
  | .loadMem => some ([.i64, .i32, .i32], x.access.type)
  | .storeMem => some ([.i64, .i32, .i32, x.access.type], .void)
  | .memPages | .growMemory => some ([.i32], .i32)
  | .call => (b.module.functionType? x.aux).map fun sig => (sig.params, sig.resultType)
  | .callIndirect => b.module.signatures[x.aux]?.map fun sig => (.i32 :: sig.params, sig.resultType)
  | _ => some ([], .void)

def dependencies (x : Node) : Nat :=
  if x.op.gathers then x.inputs.length
  else match x.op with
    | .param | .branch | .switch | .phi => 1
    | .terminate | .ret | .unreachable | .loadGlobal | .storeGlobal | .loadMem | .storeMem | .growMemory
    | .call | .callIndirect => 2
    | _ => 0

end Node

/-- A node is in the graph, with a value of a type if one is needed. -/
def Graph.Supplies (g : Graph) (d : Option ValType) (n : NodeId) : Prop :=
  ∃ y, g.node? n = some y ∧ ∀ τ ∈ d, y.type = τ

def Graph.Values (g : Graph) (types : List ValType) (ns : List NodeId) : Prop :=
  List.Forall₂ (fun τ n => g.Supplies (some τ) n) types ns

/-- A node has the inputs it needs, and nothing else. -/
def Node.WellTyped (b : FunctionBody) (g : Graph) (x : Node) : Prop :=
  ∃ operands, x.signature? b = some (operands, x.type) ∧
    List.Forall₂ g.Supplies (operands.map some ++ List.replicate x.dependencies none) x.inputs

def Graph.WellTyped (b : FunctionBody) (g : Graph) : Prop := g.Holds (Node.WellTyped b)

/-- Every input of a node is a node of the graph. -/
def Graph.Closed (g : Graph) : Prop := g.Holds fun g x => ∀ n ∈ x.inputs, ∃ y, g.node? n = some y

variable {b : FunctionBody} {g g' : Graph} {x : Node} {n join value control index : NodeId}
  {d : Option ValType} {i : Nat} {sig : FuncType} {types : List ValType} {args : List NodeId} {v : Global}
  {op : Opcode} {a : MemoryAccess} {ns values : List NodeId}

namespace Graph

theorem Supplies.of_extends (hg : g.Extends g') (h : g.Supplies d n) : g'.Supplies d n := by
  obtain ⟨y, hy, ht⟩ := h
  obtain ⟨z, hz, hyz⟩ := hg n y hy
  exact ⟨z, hz, fun τ hτ => hyz.type.trans (ht τ hτ)⟩

theorem Supplies.node (h : g.Supplies d n) : g.Supplies none n := by
  obtain ⟨y, hy, -⟩ := h
  exact ⟨y, hy, fun τ hτ => by cases hτ⟩

theorem Values.of_extends (hg : g.Extends g') (h : g.Values types ns) : g'.Values types ns :=
  h.imp fun _ _ h => h.of_extends hg

theorem Values.append {ms : List NodeId} {ds : List (Option ValType)}
    (h : g.Values types ns) (hd : List.Forall₂ g.Supplies ds ms) :
    List.Forall₂ g.Supplies (types.map some ++ ds) (ns ++ ms) :=
  rel_append (forall₂_map_left_iff.mpr h) hd

theorem supplies_add (g : Graph) (x : Node) : (g.add x).2.Supplies (some x.type) (g.add x).1 := by
  have h : (g.add x).2.node? (g.add x).1 = some x := node?_new rfl
  exact ⟨x, h, fun τ hτ => Option.some.inj hτ⟩

theorem stable_wellTyped : Stable (Node.WellTyped b) := by
  intro g g' x hg ⟨operands, hs, hi⟩
  exact ⟨operands, hs, hi.imp fun _ _ h => h.of_extends hg⟩

theorem WellTyped.push (h : g.WellTyped b) (operands : List ValType) (hn : g'.nodes = g.nodes.push x)
    (hs : x.signature? b = some (operands, x.type))
    (hi : List.Forall₂ g.Supplies (operands.map some ++ List.replicate x.dependencies none) x.inputs) :
    g'.WellTyped b :=
  Holds.push stable_wellTyped h hn ⟨operands, hs, hi.imp fun _ _ h => h.of_extends (.push hn)⟩

theorem WellTyped.setOffset (h : g.WellTyped b) (n : NodeId) (offset : Int) :
    (g.setOffset n offset).WellTyped b := by
  refine Holds.modify stable_wellTyped h fun x hx => ⟨⟨rfl, rfl, rfl, Nat.le_refl _⟩, ?_⟩
  exact stable_wellTyped g _ x (plain_setOffset g n offset).grows (h n x hx)

end Graph

theorem forall₂_replicate {α β : Type} {R : α → β → Prop} {a : α} {l : List β} :
    List.Forall₂ R (List.replicate l.length a) l ↔ ∀ b ∈ l, R a b := by
  induction l with
  | nil => simp
  | cons b l ih => simp [replicate_succ, ih]

theorem forall₂_get? {α β : Type} {R : α → β → Prop} {as : List α} {bs : List β} {a : α}
    (h : List.Forall₂ R as bs) (ha : as[i]? = some a) : ∃ b, bs[i]? = some b ∧ R a b := by
  obtain ⟨hi, rfl⟩ := List.getElem?_eq_some_iff.mp ha
  have hi' : i < bs.length := by rwa [← h.length_eq]
  exact ⟨bs[i], getElem?_eq_getElem hi', h.get hi hi'⟩

theorem Graph.WellTyped.closed (h : g.WellTyped b) : g.Closed := by
  intro n x hx m hm
  obtain ⟨operands, -, hi⟩ := h n x hx
  obtain ⟨i, hm⟩ := mem_iff_getElem?.mp hm
  obtain ⟨d, -, y, hy, -⟩ := forall₂_get? hi.flip hm
  exact ⟨y, hy⟩

namespace Node

theorem wellTyped_of_gathers (ho : x.op.gathers = true) :
    x.WellTyped b g ↔ x.type = .void ∧ ∀ n ∈ x.inputs, g.Supplies none n := by
  have hs : x.signature? b = some ([], .void) := by
    unfold signature?
    cases h : x.op <;> rw [h] at ho <;> first | rfl | cases ho
  simp only [WellTyped, hs, dependencies, ho, if_true, Option.some.injEq, Prod.mk.injEq]
  constructor
  · rintro ⟨operands, ⟨rfl, ht⟩, hi⟩
    exact ⟨ht.symm, forall₂_replicate.mp hi⟩
  · rintro ⟨ht, hi⟩
    exact ⟨[], ⟨rfl, ht.symm⟩, forall₂_replicate.mpr hi⟩

theorem wellTyped_of_phi (ho : x.op = .phi) (hx : x.inputs = values ++ [join]) :
    x.WellTyped b g ↔ (∀ n ∈ values, g.Supplies (some x.type) n) ∧ g.Supplies none join := by
  have hs : x.signature? b = some (List.replicate values.length x.type, x.type) := by
    simp [signature?, ho, hx]
  have hd : x.dependencies = 1 := by simp [dependencies, ho, Op.gathers]
  simp only [WellTyped, hs, hd, hx, Option.some.injEq, Prod.mk.injEq, and_true]
  constructor
  · rintro ⟨operands, rfl, hi⟩
    rw [map_replicate] at hi
    have hv := forall₂_take_append _ _ _ hi
    have hj := forall₂_drop_append _ _ _ hi
    simp only [take_left' length_replicate] at hv
    simp only [drop_left' length_replicate] at hj
    exact ⟨forall₂_replicate.mp hv, (forall₂_replicate (l := [join])).mp hj join mem_cons_self⟩
  · rintro ⟨hv, hj⟩
    refine ⟨_, rfl, ?_⟩
    rw [map_replicate]
    exact rel_append (forall₂_replicate.mpr hv) (.cons hj .nil)

end Node

namespace Graph.WellTyped

theorem appendToMerge (h : g.WellTyped b)
    (hj : ∀ x, g.node? join = some x → x.op.gathers = true) (hc : g.Supplies none control) :
    (g.appendToMerge join control).WellTyped b := by
  have hg : g.Extends (g.appendToMerge join control) := .modify fun _ _ => ⟨rfl, rfl, rfl, by simp⟩
  refine Holds.modify stable_wellTyped h fun x hx => ⟨⟨rfl, rfl, rfl, by simp⟩, ?_⟩
  obtain ⟨ht, hi⟩ := (Node.wellTyped_of_gathers (hj x hx)).mp (h join x hx)
  exact (Node.wellTyped_of_gathers (x := { x with inputs := x.inputs ++ [control] }) (hj x hx)).mpr
    ⟨ht, forall_mem_append.mpr ⟨fun n hn => (hi n hn).of_extends hg, forall_mem_singleton.mpr (hc.of_extends hg)⟩⟩

theorem appendToPhi {phi : NodeId} (h : g.WellTyped b) (hj : g.Supplies none join)
    (hp : ∀ x, g.node? phi = some x → x.inputs.getLast? = some join ∧
      (x.op = .phi ∧ g.Supplies (some x.type) value ∨ x.op = .effectPhi ∧ g.Supplies none value)) :
    (g.appendToPhi join phi value).WellTyped b := by
  have hlen (x : Node) : x.inputs.length ≤ (x.inputs.dropLast ++ [value, join]).length := by
    simp only [length_append, length_dropLast, length_cons, length_nil]
    omega
  have hg : g.Extends (g.appendToPhi join phi value) := .modify fun x _ => ⟨rfl, rfl, rfl, hlen x⟩
  refine Holds.modify stable_wellTyped h fun x hx => ⟨⟨rfl, rfl, rfl, hlen x⟩, ?_⟩
  obtain ⟨hl, ho | ho⟩ := hp x hx
  · obtain ⟨ho, hv⟩ := ho
    have hi : x.inputs = x.inputs.dropLast ++ [join] := (dropLast_append_getLast? join hl).symm
    obtain ⟨hvs, -⟩ := (Node.wellTyped_of_phi ho hi).mp (h phi x hx)
    have hi' : x.inputs.dropLast ++ [value, join] = (x.inputs.dropLast ++ [value]) ++ [join] := by simp
    refine (Node.wellTyped_of_phi (x := { x with inputs := x.inputs.dropLast ++ [value, join] }) ho hi').mpr
      ⟨forall_mem_append.mpr ⟨fun n hn => (hvs n hn).of_extends hg, ?_⟩, hj.of_extends hg⟩
    exact forall_mem_singleton.mpr (hv.of_extends hg)
  · obtain ⟨ho, hv⟩ := ho
    have hgath : x.op.gathers = true := by rw [ho]; rfl
    obtain ⟨ht, hi⟩ := (Node.wellTyped_of_gathers hgath).mp (h phi x hx)
    refine (Node.wellTyped_of_gathers
      (x := { x with inputs := x.inputs.dropLast ++ [value, join] }) hgath).mpr ⟨ht, fun n hn => ?_⟩
    simp only [mem_append, mem_cons, not_mem_nil, or_false] at hn
    rcases hn with hn | rfl | rfl
    · exact (hi n (dropLast_subset _ hn)).of_extends hg
    · exact hv.of_extends hg
    · exact hj.of_extends hg

end Graph.WellTyped

def Graph.IsEffect (g : Graph) (n : NodeId) : Prop := ∃ y, g.node? n = some y ∧ y.op ≠ .phi

theorem Graph.IsEffect.of_extends (hg : g.Extends g') (h : g.IsEffect n) : g'.IsEffect n := by
  obtain ⟨y, hy, ho⟩ := h
  obtain ⟨z, hz, hyz⟩ := hg n y hy
  exact ⟨z, hz, by rwa [hyz.op]⟩

theorem Graph.IsEffect.supplies (h : g.IsEffect n) : g.Supplies none n := by
  obtain ⟨y, hy, -⟩ := h
  exact ⟨y, hy, fun τ hτ => by cases hτ⟩

structure Chain.Sound (g : Graph) (c : Chain) : Prop where
  control : g.Supplies none c.control
  effect : g.IsEffect c.effect

namespace Chain.Sound

variable {c : Chain}

theorem of_extends (hg : g.Extends g') (h : c.Sound g) : c.Sound g' :=
  ⟨h.control.of_extends hg, h.effect.of_extends hg⟩

theorem dependencies (h : c.Sound g) :
    List.Forall₂ g.Supplies (List.replicate 2 none) [c.effect, c.control] :=
  .cons h.effect.supplies (.cons h.control .nil)

end Chain.Sound

namespace Graph

/-- What was emitted after a chain: a node with a value of a type, and where the chain goes on. -/
structure Emits (b : FunctionBody) (g : Graph) (τ : ValType) (r : NodeId × Chain × Graph) : Prop where
  grows : g.Extends r.2.2
  typed : r.2.2.WellTyped b
  chain : r.2.1.Sound r.2.2
  node : r.2.2.Supplies (some τ) r.1

section Emitters

variable {c : Chain} {τ : ValType} {r : NodeId × Chain × Graph}

/-- A node was emitted after the chain, and the chain goes on with it, or with its effect. -/
theorem emits_of_push (operands : List ValType) (h : g.WellTyped b) (hc : c.Sound g)
    (hn : r.2.2.nodes = g.nodes.push x) (hid : r.1 = g.nodes.size + 1)
    (hchain : r.2.1 = ⟨r.1, r.1⟩ ∨ r.2.1 = { c with effect := r.1 } ∨ r.2.1 = c)
    (ho : x.op ≠ .phi) (ht : x.type = τ) (hs : x.signature? b = some (operands, τ))
    (hi : List.Forall₂ g.Supplies (operands.map some ++ List.replicate x.dependencies none) x.inputs) :
    Emits b g τ r := by
  subst ht
  have hg : g.Extends r.2.2 := .push hn
  have hx : r.2.2.node? r.1 = some x := by rw [hid]; exact node?_new hn
  have hnode : r.2.2.Supplies (some x.type) r.1 := ⟨x, hx, fun τ hτ => Option.some.inj hτ⟩
  refine ⟨hg, h.push operands hn hs hi, ?_, hnode⟩
  rcases hchain with hr | hr | hr <;> rw [hr]
  · exact ⟨hnode.node, x, hx, ho⟩
  · exact ⟨hc.control.of_extends hg, x, hx, ho⟩
  · exact hc.of_extends hg

theorem Emits.setOffset (h : Emits b g τ r) (offset : Int) :
    Emits b g τ (r.1, r.2.1, r.2.2.setOffset r.1 offset) := by
  have hg := (plain_setOffset r.2.2 r.1 offset).grows
  exact ⟨h.grows.trans hg, h.typed.setOffset _ _, h.chain.of_extends hg, h.node.of_extends hg⟩

section

variable (h : g.WellTyped b) (hc : c.Sound g)

include h hc

theorem emits_call {function : Nat} (hs : b.module.functionType? function = some sig)
    (ha : g.Values sig.params args) : Emits b g sig.resultType (g.emitCall c function sig args) :=
  emits_of_push sig.params h hc rfl rfl (.inl rfl) Op.noConfusion rfl (by simp [Node.signature?, hs])
    (ha.append hc.dependencies)

theorem emits_callIndirect {signature : Nat} {key : NodeId}
    (hs : b.module.signatures[signature]? = some sig) (ha : g.Values (.i32 :: sig.params) (key :: args)) :
    Emits b g sig.resultType (g.emitCallIndirect c signature sig key args) :=
  emits_of_push (.i32 :: sig.params) h hc rfl rfl (.inl rfl) Op.noConfusion rfl
    (by simp [Node.signature?, hs]) (ha.append hc.dependencies)

theorem emits_return {operands : List ValType}
    (ho : operands = b.signature.results ∨ operands = b.signature.results.take 1)
    (hv : g.Values operands values) : Emits b g .void (g.emitReturn c values) := by
  refine emits_of_push operands h hc rfl rfl (.inl rfl) Op.noConfusion rfl ?_ (hv.append hc.dependencies)
  have hl : values.length = operands.length := hv.length_eq.symm
  have hcount : b.Returns values.length := by
    rw [hl]
    rcases ho with rfl | rfl
    · exact .inl rfl
    · exact .inr length_take
  have hoperands : b.signature.results.take values.length = operands := by
    rw [hl]
    rcases ho with rfl | rfl
    · exact take_length
    · rw [length_take, ← take_eq_take_min]
  simp [Node.signature?, hcount, hoperands]

theorem emits_storeGlobal (hv : b.module.globals[i]? = some v)
    (hx : g.Supplies (some v.type.valType) value) : Emits b g .void (g.emitStoreGlobal c i value) :=
  emits_of_push [v.type.valType] h hc rfl rfl (.inr (.inl rfl)) Op.noConfusion rfl
    (by simp [Node.signature?, hv]) (.cons hx hc.dependencies)

theorem emits_unop {x : NodeId} (hs : op.numeric? = some sig) (hx : g.Values sig.params [x]) :
    Emits b g sig.resultType ((g.emitUnop op x).1, c, (g.emitUnop op x).2) :=
  emits_of_push sig.params h hc rfl rfl (.inr (.inr rfl)) Op.noConfusion (by simp [numericType, hs])
    (by simp [Node.signature?, hs]) (hx.append .nil)

theorem emits_binop {x y : NodeId} (hs : op.numeric? = some sig) (hx : g.Values sig.params [x, y]) :
    Emits b g sig.resultType ((g.emitBinop op x y).1, c, (g.emitBinop op x y).2) :=
  emits_of_push sig.params h hc rfl rfl (.inr (.inr rfl)) Op.noConfusion (by simp [numericType, hs])
    (by simp [Node.signature?, hs]) (hx.append .nil)

omit hc in
theorem WellTyped.emitMemoryRef (kind : MemoryRefKind) : (g.emitMemoryRef kind).2.WellTyped b := by
  cases kind <;> exact h.push [] rfl rfl .nil

omit h hc in
theorem Emits.after (hg : g.Extends g') (h : Emits b g' τ r) : Emits b g τ r :=
  ⟨hg.trans h.grows, h.typed, h.chain, h.node⟩

theorem memoryRefs_sound :
    let base := g.emitMemoryRef .base
    let size := base.2.emitMemoryRef .size
    g.Extends size.2 ∧ size.2.WellTyped b ∧ c.Sound size.2 ∧ size.2.Values [.i64, .i32] [base.1, size.1] := by
  intro base size
  have hg : g.Extends size.2 := g.plain_memoryRefs.grows
  have h₂ : base.2.Extends size.2 := (base.2.plain_emitMemoryRef .size).grows
  have hbase : base.2.Supplies (some .i64) base.1 := supplies_add g _
  have hsize : size.2.Supplies (some .i32) size.1 := supplies_add base.2 _
  have hw : size.2.WellTyped b := (h.emitMemoryRef .base).emitMemoryRef .size
  exact ⟨hg, hw, hc.of_extends hg, .cons (hbase.of_extends h₂) (.cons hsize .nil)⟩

theorem emits_loadMem (offset : Nat) (hi : g.Supplies (some .i32) index) :
    Emits b g a.type (g.emitLoadMem c a index offset) := by
  obtain ⟨hg, hw, hc', hm⟩ := memoryRefs_sound h hc
  refine Emits.after hg (emits_of_push [.i64, .i32, .i32] hw hc' rfl rfl (.inr (.inl rfl)) Op.noConfusion
    rfl rfl ?_)
  exact hm.append (.cons (hi.of_extends hg) hc'.dependencies)

theorem emits_storeMem (offset : Nat)
    (hi : g.Supplies (some .i32) index) (hv : g.Supplies (some a.type) value) :
    Emits b g .void (g.emitStoreMem c a index offset value) := by
  obtain ⟨hg, hw, hc', hm⟩ := memoryRefs_sound h hc
  refine Emits.after hg (emits_of_push [.i64, .i32, .i32, a.type] hw hc' rfl rfl (.inr (.inl rfl))
    Op.noConfusion rfl rfl ?_)
  exact hm.append (.cons (hi.of_extends hg) (.cons (hv.of_extends hg) hc'.dependencies))

end

end Emitters

def Gathers (g : Graph) (n : NodeId) : Prop := ∃ x, g.node? n = some x ∧ x.op.gathers = true

theorem Gathers.of_extends (hg : g.Extends g') (h : g.Gathers n) : g'.Gathers n := by
  obtain ⟨x, hx, ho⟩ := h
  obtain ⟨y, hy, hxy⟩ := hg n x hx
  exact ⟨y, hy, by rwa [hxy.op]⟩

theorem Gathers.supplies (h : g.Gathers n) : g.Supplies none n := by
  obtain ⟨x, hx, -⟩ := h
  exact ⟨x, hx, fun τ hτ => by cases hτ⟩

theorem gathers_add (g : Graph) (hx : x.op.gathers = true) : (g.add x).2.Gathers (g.add x).1 :=
  ⟨x, node?_new rfl, hx⟩

namespace WellTyped

variable {τ : ValType} {values : List NodeId}

theorem pushGathers (h : g.WellTyped b) (hn : g'.nodes = g.nodes.push x) (ho : x.op.gathers = true)
    (ht : x.type = .void) (hi : ∀ n ∈ x.inputs, g.Supplies none n) : g'.WellTyped b :=
  Holds.push stable_wellTyped h hn <| (Node.wellTyped_of_gathers ho).mpr
    ⟨ht, fun n hm => (hi n hm).of_extends (.push hn)⟩

theorem emitPhi (h : g.WellTyped b) (hv : ∀ n ∈ values, g.Supplies (some τ) n) (hj : g.Supplies none join) :
    (g.emitPhi τ join values).2.WellTyped b := by
  have hg : g.Extends (g.emitPhi τ join values).2 := .push rfl
  exact Holds.push stable_wellTyped h rfl <| (Node.wellTyped_of_phi rfl rfl).mpr
    ⟨fun n hm => (hv n hm).of_extends hg, hj.of_extends hg⟩

theorem emitBranch {cond : NodeId} (h : g.WellTyped b) (hx : g.Supplies (some .i32) cond)
    (hc : g.Supplies none control) : (g.emitBranch cond control).2.WellTyped b ∧
      (g.emitBranch cond control).2.Gathers (g.emitBranch cond control).1.1 ∧
      (g.emitBranch cond control).2.Gathers (g.emitBranch cond control).1.2 := by
  let br := g.add { op := .branch, inputs := [cond, control] }
  let t := br.2.add { op := .ifTrue, inputs := [br.1] }
  have hb : br.2.WellTyped b := h.push [.i32] rfl rfl (.cons hx (.cons hc .nil))
  have hbr : br.2.Supplies none br.1 := (supplies_add g _).node
  have ht : t.2.WellTyped b := hb.pushGathers rfl rfl rfl (forall_mem_singleton.mpr hbr)
  have hbr' : t.2.Supplies none br.1 := hbr.of_extends (.push rfl)
  refine ⟨ht.pushGathers rfl rfl rfl (forall_mem_singleton.mpr hbr'), ?_, gathers_add t.2 rfl⟩
  exact (gathers_add br.2 rfl).of_extends (.push rfl)

end WellTyped

end Graph

end ProtoWasm
