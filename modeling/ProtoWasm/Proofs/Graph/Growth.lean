import ProtoWasm.Graph.Build

/-! # Graphs only grow

Nodes keep their number, their operation, their immediate and their type, and they lose no inputs. So a property of all
nodes has to be proved of a node only when it is emitted and when it gets an input.
-/
namespace ProtoWasm

structure Node.Grows (x y : Node) : Prop where
  op : y.op = x.op
  aux : y.aux = x.aux
  type : y.type = x.type
  inputs : x.inputs.length ≤ y.inputs.length

theorem Node.Grows.refl (x : Node) : x.Grows x := ⟨rfl, rfl, rfl, Nat.le_refl _⟩

theorem Node.Grows.trans {x y z : Node} (h : x.Grows y) (h' : y.Grows z) : x.Grows z :=
  ⟨h'.op.trans h.op, h'.aux.trans h.aux, h'.type.trans h.type, Nat.le_trans h.inputs h'.inputs⟩

/-- The operations that depend on no branch, switch or join in particular. -/
def Op.plain : Op → Bool
  | .ifTrue | .ifFalse | .ifValue | .ifDefault | .phi | .effectPhi => false
  | _ => true

def MemoryRefKind.op : MemoryRefKind → Op
  | base => .memoryBase
  | size => .memorySize

/-- The operations that a graph notes: direct calls and references to the memory. -/
def Op.noted : Op → Bool
  | .call | .memoryBase | .memorySize => true
  | _ => false

namespace Graph

def notes (g : Graph) : Array CallSite × Array MemoryRef := (g.callSites, g.memoryRefs)

variable {g g' g₁ g₂ g₃ : Graph} {x : Node} {n : Nat} {f : Node → Node}

def Extends (g g' : Graph) : Prop := ∀ n x, g.node? n = some x → ∃ y, g'.node? n = some y ∧ x.Grows y

theorem Extends.refl (g : Graph) : g.Extends g := fun _ x h => ⟨x, h, .refl x⟩

theorem Extends.trans (h : g₁.Extends g₂) (h' : g₂.Extends g₃) : g₁.Extends g₃ := by
  intro n x hx
  obtain ⟨y, hy, hxy⟩ := h n x hx
  obtain ⟨z, hz, hyz⟩ := h' n y hy
  exact ⟨z, hz, hxy.trans hyz⟩

theorem node?_of_push (h : g'.nodes = g.nodes.push x) (n : Nat) :
    g'.node? n = if n = g.nodes.size + 1 then some x else g.node? n := by
  unfold node?
  rw [h]
  by_cases h0 : n = 0
  · simp [h0]
  · have hi : n - 1 = g.nodes.size ↔ n = g.nodes.size + 1 := by omega
    simp only [h0, if_false, Array.getElem?_push, hi]

theorem node?_new (h : g'.nodes = g.nodes.push x) : g'.node? (g.nodes.size + 1) = some x := by
  rw [node?_of_push h, if_pos rfl]

theorem node?_lt (h : g.node? n = some x) : n < g.nodes.size + 1 := by
  unfold node? at h
  split at h
  · cases h
  · have := (Array.getElem?_eq_some_iff.mp h).1
    omega

theorem node?_of_push_old (h : g'.nodes = g.nodes.push x) {y : Node} (hy : g.node? n = some y) :
    g'.node? n = some y := by
  rw [node?_of_push h, if_neg (Nat.ne_of_lt (node?_lt hy)), hy]

theorem Extends.push (h : g'.nodes = g.nodes.push x) : g.Extends g' :=
  fun _ y hy => ⟨y, node?_of_push_old h hy, .refl y⟩

theorem node?_modifyNode (f : Node → Node) (m : Nat) :
    (g.modifyNode n f).node? m = if m = n then (g.node? m).map f else g.node? m := by
  unfold modifyNode
  by_cases hn : n = 0
  · subst hn
    by_cases hm : m = 0
    · simp [hm, node?]
    · simp [hm]
  · simp only [hn, if_false]
    unfold node?
    by_cases hm : m = 0
    · simp [hm, Ne.symm hn]
    · have hi : n - 1 = m - 1 ↔ m = n := by omega
      simp only [hm, if_false, Array.getElem?_modify, hi]

theorem Extends.modify (hf : ∀ x, g.node? n = some x → x.Grows (f x)) :
    g.Extends (g.modifyNode n f) := by
  intro m x hx
  rw [node?_modifyNode]
  split
  · rename_i hm
    subst hm
    exact ⟨f x, by rw [hx]; rfl, hf x hx⟩
  · exact ⟨x, hx, .refl x⟩

def op? (g : Graph) (n : NodeId) : Option Op := (g.node? n).map Node.op

theorem op?_of_extends {o : Op} (h : g.Extends g') (hn : g.op? n = some o) : g'.op? n = some o := by
  obtain ⟨x, hx, rfl⟩ := Option.map_eq_some_iff.mp hn
  obtain ⟨y, hy, hxy⟩ := h n x hx
  rw [op?, hy, ← hxy.op]
  rfl

theorem op?_add (g : Graph) (x : Node) : (g.add x).2.op? (g.add x).1 = some x.op := by
  have h : (g.add x).2.node? (g.add x).1 = some x := node?_new rfl
  rw [op?, h]
  rfl

/-- Nodes were added to a graph, and inputs to its nodes. A call or a reference to the memory is noted along with its
node. -/
inductive Builds : Graph → Graph → Prop
  | refl (g : Graph) : Builds g g
  | trans {g₁ g₂ g₃ : Graph} (h : Builds g₁ g₂) (h' : Builds g₂ g₃) : Builds g₁ g₃
  | push {g g' : Graph} {x : Node} (hn : g'.nodes = g.nodes.push x) (hs : g'.notes = g.notes)
      (hx : x.op.noted = false) : Builds g g'
  | call {g g' : Graph} {x : Node} {indirect : Bool} (hn : g'.nodes = g.nodes.push x)
      (hs : g'.notes = (g.callSites.push ⟨g.nodes.size + 1, x.aux, indirect⟩, g.memoryRefs))
      (hx : x.op = if indirect then .callIndirect else .call) : Builds g g'
  | reference {g g' : Graph} {x : Node} {kind : MemoryRefKind} (hn : g'.nodes = g.nodes.push x)
      (hs : g'.notes = (g.callSites, g.memoryRefs.push ⟨g.nodes.size + 1, kind⟩)) (hx : x.op = kind.op) : Builds g g'
  | modify {g : Graph} {n : NodeId} {f : Node → Node} (hf : ∀ x : Node, x.Grows (f x)) :
      Builds g (g.modifyNode n f)

theorem Builds.extends (h : g.Builds g') : g.Extends g' := by
  induction h with
  | refl g => exact .refl g
  | trans _ _ ih ih' => exact ih.trans ih'
  | push hn | call hn | reference hn => exact .push hn
  | modify hf => exact .modify fun x _ => hf x

theorem isPhiOf_eq_true {phi join : NodeId} (h : g.isPhiOf phi join = true) :
    ∃ x, g.node? phi = some x ∧ (x.op = .phi ∨ x.op = .effectPhi) ∧ x.inputs.getLast? = some join := by
  unfold isPhiOf at h
  split at h
  · rename_i x hx
    simp only [Bool.and_eq_true, Bool.or_eq_true, beq_iff_eq] at h
    exact ⟨x, hx, h⟩
  · cases h

def Stable (P : Graph → Node → Prop) : Prop := ∀ g g' x, g.Extends g' → P g x → P g' x

def Holds (P : Graph → Node → Prop) (g : Graph) : Prop := ∀ n x, g.node? n = some x → P g x

variable {P : Graph → Node → Prop}

theorem Holds.push (hP : Stable P) (h : Holds P g) (hn : g'.nodes = g.nodes.push x) (hx : P g' x) :
    Holds P g' := by
  intro n y hy
  rw [node?_of_push hn] at hy
  split at hy
  · cases hy
    exact hx
  · exact hP g g' y (.push hn) (h n y hy)

theorem Holds.modify (hP : Stable P) (h : Holds P g)
    (hf : ∀ x, g.node? n = some x → x.Grows (f x) ∧ P (g.modifyNode n f) (f x)) :
    Holds P (g.modifyNode n f) := by
  intro m y hy
  have he : g.Extends (g.modifyNode n f) := .modify fun x hx => (hf x hx).1
  rw [node?_modifyNode] at hy
  split at hy
  · rename_i hm
    subst hm
    obtain ⟨x, hx, rfl⟩ := Option.map_eq_some_iff.mp hy
    exact (hf x hx).2
  · exact hP g _ y he (h m y hy)

/-- Nodes were added, but none that depends on a branch, a switch or a join in particular, and the others
have the inputs they had. -/
structure Plain (g g' : Graph) : Prop where
  builds : g.Builds g'
  nodes : ∀ n y, g'.node? n = some y →
    y.op.plain = true ∨ ∃ x, g.node? n = some x ∧ x.op = y.op ∧ x.inputs = y.inputs

theorem Plain.grows (h : g.Plain g') : g.Extends g' := h.builds.extends

theorem Plain.refl (g : Graph) : g.Plain g := ⟨.refl g, fun _ y h => .inr ⟨y, h, rfl, rfl⟩⟩

theorem Plain.trans (h : g₁.Plain g₂) (h' : g₂.Plain g₃) : g₁.Plain g₃ := by
  refine ⟨h.builds.trans h'.builds, fun n z hz => ?_⟩
  rcases h'.nodes n z hz with hz | ⟨y, hy, hop, hin⟩
  · exact .inl hz
  · rcases h.nodes n y hy with hy | ⟨x, hx, hop', hin'⟩
    · exact .inl (by rwa [← hop])
    · exact .inr ⟨x, hx, hop'.trans hop, hin'.trans hin⟩

theorem Plain.of_push (hb : g.Builds g') (h : g'.nodes = g.nodes.push x) (hx : x.op.plain = true) : g.Plain g' := by
  refine ⟨hb, fun n y hy => ?_⟩
  rw [node?_of_push h] at hy
  split at hy
  · cases hy
    exact .inl hx
  · exact .inr ⟨y, hy, rfl, rfl⟩

theorem Plain.push (h : g'.nodes = g.nodes.push x) (hx : x.op.plain = true) (hs : g'.notes = g.notes)
    (hc : x.op.noted = false) : g.Plain g' :=
  .of_push (.push h hs hc) h hx

section Emitters

variable (g : Graph)

theorem plain_setOffset (n : NodeId) (offset : Int) : g.Plain (g.setOffset n offset) := by
  refine ⟨.modify fun x => ⟨rfl, rfl, rfl, Nat.le_refl _⟩, fun m y hy => ?_⟩
  rw [setOffset, node?_modifyNode] at hy
  split at hy
  · obtain ⟨x, hx, rfl⟩ := Option.map_eq_some_iff.mp hy
    exact .inr ⟨x, hx, rfl, rfl⟩
  · exact .inr ⟨y, hy, rfl, rfl⟩

theorem plain_emitMemoryRef (kind : MemoryRefKind) : g.Plain (g.emitMemoryRef kind).2 := by
  cases kind with
  | base => exact .of_push (@Builds.reference g _ _ .base rfl rfl rfl) rfl rfl
  | size => exact .of_push (@Builds.reference g _ _ .size rfl rfl rfl) rfl rfl

theorem plain_memoryRefs : g.Plain ((g.emitMemoryRef .base).2.emitMemoryRef .size).2 :=
  (g.plain_emitMemoryRef .base).trans (plain_emitMemoryRef _ .size)

theorem plain_emitMemSize : g.Plain g.emitMemSize.2 :=
  (g.plain_emitMemoryRef .size).trans (.push rfl rfl rfl rfl)

end Emitters

end Graph

end ProtoWasm
