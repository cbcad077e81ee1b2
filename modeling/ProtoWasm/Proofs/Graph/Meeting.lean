import ProtoWasm.Proofs.Graph.Growth

/-! # Values that meet

A phi is complete if it has a value for every way into its join. Ways are added to a join one by one, and the phis that
the join still knows get a value each time. Those of an end of a block are hidden until the block is closed; a phi that
is in sight is complete at any time, except while a way is being added.
-/
namespace ProtoWasm

open List

def Op.isPhi (o : Op) : Bool := o = .phi || o = .effectPhi

/-- A join that can get further ways, with the values that meet there. While a way is being added, some of them
still have to be extended, from the last to the first. -/
structure Meeting where
  join : NodeId
  hidden : Bool
  todo : List NodeId := []
  values : List NodeId := []

namespace Graph

variable {g g' : Graph} {x : Node} {n m join old last : NodeId} {q r : Meeting} {ms : List Meeting}
  {roots todo values : List NodeId} {f : Node → Node}

/-- A phi has a value for every way into its join. -/
def Complete (g : Graph) (phi join : NodeId) : Prop := g.inputCount phi = g.inputCount join + 1

/-- A node can be referred to: it is no phi, or it is complete and not hidden. -/
def Shows (g : Graph) (ms : List Meeting) (n : NodeId) : Prop :=
  n ≤ g.nodes.size ∧ ∀ m, g.isPhiOf n m = true →
    (∀ q ∈ ms, q.join = m → q.hidden = false) ∧ (g.Complete n m ∨ ∃ q ∈ ms, q.join = m ∧ n ∈ q.todo)

/-- What is known of a join that can get further ways. -/
structure Gathered (g : Graph) (ms : List Meeting) (q : Meeting) : Prop where
  join : ∃ x, g.node? q.join = some x ∧ x.op.isPhi = false ∧ x.inputs ≠ []
  values : ∀ n ∈ q.values, g.Shows ms n ∨ g.isPhiOf n q.join = true ∧ g.Complete n q.join
  todo : ∀ n ∈ q.todo, if g.isPhiOf n q.join = true then g.inputCount n = g.inputCount q.join else g.Shows ms n
  single : ∀ n, g.isPhiOf n q.join = true → q.values.count n + q.todo.count n ≤ 1
  all : q.hidden = false → ∀ n, g.isPhiOf n q.join = true → n ∈ q.values ∨ n ∈ q.todo

/-- All that is referred to, by nodes or from outside, can be referred to. -/
structure Coherent (g : Graph) (roots : List NodeId) (ms : List Meeting) : Prop where
  inputs : ∀ n x, g.node? n = some x → ∀ m ∈ x.inputs, g.Shows ms m
  roots : ∀ n ∈ roots, g.Shows ms n
  phis : ∀ n x, g.node? n = some x → x.op.isPhi = true →
    ∃ m y, x.inputs.getLast? = some m ∧ g.node? m = some y ∧ y.op.isPhi = false
  meetings : ∀ q ∈ ms, g.Gathered ms q
  distinct : (ms.map Meeting.join).Nodup

theorem isPhiOf_iff : g.isPhiOf n m = true ↔
    ∃ x, g.node? n = some x ∧ x.op.isPhi = true ∧ x.inputs.getLast? = some m := by
  unfold isPhiOf
  cases g.node? n with
  | none => simp
  | some x => simp [Op.isPhi]

theorem isPhiOf_of_not_phi (hx : g.node? n = some x) (hp : x.op.isPhi = false) (m : NodeId) :
    g.isPhiOf n m = false := by
  refine Bool.eq_false_iff.mpr fun hm => ?_
  obtain ⟨y, hy, hyp, -⟩ := isPhiOf_iff.mp hm
  cases hx.symm.trans hy
  rw [hp] at hyp
  cases hyp

theorem inputCount_of_node (h : g.node? n = some x) : g.inputCount n = x.inputs.length := by
  simp [inputCount, inputs, h]

theorem isPhiOf_unique (h : g.isPhiOf n m = true) (h' : g.isPhiOf n join = true) : m = join := by
  obtain ⟨x, hx, -, hm⟩ := isPhiOf_iff.mp h
  obtain ⟨y, hy, -, hj⟩ := isPhiOf_iff.mp h'
  cases hx.symm.trans hy
  exact Option.some.inj (hm.symm.trans hj)

theorem Coherent.join_of_phi (h : g.Coherent roots ms) (hn : g.isPhiOf n m = true) :
    ∃ y, g.node? m = some y ∧ y.op.isPhi = false := by
  obtain ⟨x, hx, hp, hl⟩ := isPhiOf_iff.mp hn
  obtain ⟨k, y, hk, hy, hyp⟩ := h.phis n x hx hp
  cases hl.symm.trans hk
  exact ⟨y, hy, hyp⟩

theorem not_phi_of_join (h : g.Coherent roots ms) (hn : g.isPhiOf n m = true) (k : NodeId) :
    g.isPhiOf m k = false := by
  obtain ⟨y, hy, hp⟩ := h.join_of_phi hn
  exact isPhiOf_of_not_phi hy hp k

theorem shows_of_not_phi (hx : g.node? n = some x) (hp : x.op.isPhi = false) : g.Shows ms n := by
  refine ⟨Nat.le_of_lt_succ (node?_lt hx), fun m hm => ?_⟩
  rw [isPhiOf_of_not_phi hx hp] at hm
  cases hm

theorem shows_noNode : g.Shows ms noNode := by
  refine ⟨Nat.zero_le _, fun m hm => ?_⟩
  obtain ⟨y, hy, -⟩ := isPhiOf_iff.mp hm
  cases hy

section Meetings

variable {roots' : List NodeId} {ms' : List Meeting}

/-- A node stays in sight if nothing more is hidden and it stays complete, or is still to be extended. -/
theorem Shows.step (h : g.Shows ms n) (hsize : g.nodes.size ≤ g'.nodes.size)
    (hphi : ∀ m, g'.isPhiOf n m = g.isPhiOf n m)
    (hhide : ∀ q' ∈ ms', q'.hidden = true → ∃ q ∈ ms, q.join = q'.join ∧ q.hidden = true)
    (hc : ∀ m, g.isPhiOf n m = true → (∀ q ∈ ms, q.join = m → q.hidden = false) →
      (g.Complete n m ∨ ∃ q ∈ ms, q.join = m ∧ n ∈ q.todo) →
      g'.Complete n m ∨ ∃ q ∈ ms', q.join = m ∧ n ∈ q.todo) : g'.Shows ms' n := by
  refine ⟨Nat.le_trans h.1 hsize, fun m hm => ?_⟩
  rw [hphi] at hm
  obtain ⟨hd, hcomp⟩ := h.2 m hm
  refine ⟨fun q' hq' hj => ?_, hc m hm hd hcomp⟩
  cases hid : q'.hidden with
  | false => rfl
  | true =>
    obtain ⟨q, hq, hqj, hqh⟩ := hhide q' hq' hid
    rw [hd q hq (hqj.trans hj)] at hqh
    cases hqh

theorem Shows.replace {q' : Meeting} (h : g.Shows (q :: ms) n) (hj : q'.join = q.join) (hh : q'.hidden = q.hidden)
    (ht : q.hidden = false → n ∈ q.todo → g.isPhiOf n q.join = true → n ∈ q'.todo) : g.Shows (q' :: ms) n := by
  refine h.step (Nat.le_refl _) (fun _ => rfl) (fun r hr hid => ?_) ?_
  · rcases mem_cons.mp hr with rfl | hr
    · exact ⟨q, mem_cons_self, hj.symm, hh ▸ hid⟩
    · exact ⟨r, mem_cons_of_mem _ hr, rfl, hid⟩
  · rintro m hm hd (hc | ⟨r, hr, rfl, hr'⟩)
    · exact .inl hc
    · rcases mem_cons.mp hr with rfl | hr
      · exact .inr ⟨_, mem_cons_self, hj, ht (hd r mem_cons_self rfl) hr' hm⟩
      · exact .inr ⟨r, mem_cons_of_mem _ hr, rfl, hr'⟩

theorem Gathered.step (h : g.Gathered ms r) (hs : ∀ n, g.Shows ms n → g'.Shows ms' n)
    (hjoin : ∀ x, g.node? r.join = some x → x.op.isPhi = false → x.inputs ≠ [] →
      ∃ y, g'.node? r.join = some y ∧ y.op.isPhi = false ∧ y.inputs ≠ [])
    (hphi : ∀ n, g'.isPhiOf n r.join = g.isPhiOf n r.join)
    (hc : g'.inputCount r.join = g.inputCount r.join)
    (hn : ∀ n, g.isPhiOf n r.join = true → g'.inputCount n = g.inputCount n) : g'.Gathered ms' r := by
  refine ⟨?_, fun n hv => ?_, fun n ht => ?_, fun n hp => ?_, fun hh n hp => ?_⟩
  · obtain ⟨x, hx, hp, hi⟩ := h.join
    exact hjoin x hx hp hi
  · rcases h.values n hv with hv | ⟨hp, hcomp⟩
    · exact .inl (hs n hv)
    · refine .inr ⟨by rw [hphi, hp], ?_⟩
      rw [Complete, hc, hn n hp, hcomp]
  · have ht := h.todo n ht
    rw [hphi]
    split
    · rename_i hp
      rw [if_pos hp] at ht
      rw [hn n hp, hc, ht]
    · rename_i hp
      rw [if_neg hp] at ht
      exact hs n ht
  · exact h.single n (by rw [← hphi, hp])
  · exact h.all hh n (by rw [← hphi, hp])

theorem Gathered.mono (h : g.Gathered ms r) (hs : ∀ n, g.Shows ms n → g.Shows ms' n) : g.Gathered ms' r :=
  h.step hs (fun x hx hp hi => ⟨x, hx, hp, hi⟩) (fun _ => rfl) rfl fun _ _ => rfl

theorem le_size_of_phi (h : g.isPhiOf n m = true) : n ≤ g.nodes.size := by
  obtain ⟨x, hx, -⟩ := isPhiOf_iff.mp h
  exact Nat.le_of_lt_succ (node?_lt hx)

theorem Gathered.le_size (h : g.Gathered ms q) (hn : n ∈ q.values ∨ n ∈ q.todo) : n ≤ g.nodes.size := by
  rcases hn with hn | hn
  · exact (h.values n hn).elim And.left fun hp => le_size_of_phi hp.1
  · have ht := h.todo n hn
    split at ht
    · exact le_size_of_phi ‹_›
    · exact ht.1

namespace Coherent

theorem mono (h : g.Coherent roots ms) (hr : ∀ n ∈ roots', n ∈ roots) : g.Coherent roots' ms :=
  ⟨h.inputs, fun n hn => h.roots n (hr n hn), h.phis, h.meetings, h.distinct⟩

theorem add (h : g.Coherent roots ms) (hr : ∀ n ∈ roots', g.Shows ms n) : g.Coherent (roots' ++ roots) ms :=
  ⟨h.inputs, forall_mem_append.mpr ⟨hr, h.roots⟩, h.phis, h.meetings, h.distinct⟩

theorem perm (h : g.Coherent roots ms) (hp : ms.Perm ms') : g.Coherent roots ms' := by
  have hs (n : NodeId) (hn : g.Shows ms n) : g.Shows ms' n := by
    refine hn.step (Nat.le_refl _) (fun _ => rfl) (fun q hq hh => ⟨q, hp.mem_iff.mpr hq, rfl, hh⟩) ?_
    rintro m - - (hc | ⟨q, hq, hj, hn⟩)
    · exact .inl hc
    · exact .inr ⟨q, hp.mem_iff.mp hq, hj, hn⟩
  exact ⟨fun n x hx m hm => hs m (h.inputs n x hx m hm), fun n hn => hs n (h.roots n hn), h.phis,
    fun q hq => (h.meetings q (hp.mem_iff.mpr hq)).mono hs, (hp.map _).nodup_iff.mp h.distinct⟩

section

variable (h : g.Coherent roots (q :: ms))
include h

theorem change (ht : q.hidden = false → ∀ n ∈ q.todo, g.isPhiOf n q.join = true → n ∈ todo)
    (hv : ∀ n ∈ values, n ∈ q.values ∨ g.Shows (q :: ms) n) (hsub : ∀ n ∈ todo, n ∈ q.todo)
    (hone : ∀ n, g.isPhiOf n q.join = true → values.count n + todo.count n ≤ q.values.count n + q.todo.count n)
    (hall : q.hidden = false → ∀ n ∈ q.values, n ∈ values) :
    g.Coherent roots ({ q with todo, values } :: ms) := by
  have hs (n : NodeId) (hn : g.Shows (q :: ms) n) : g.Shows ({ q with todo, values } :: ms) n :=
    hn.replace rfl rfl (ht · n)
  have hq := h.meetings q mem_cons_self
  have hq' : g.Gathered ({ q with todo, values } :: ms) { q with todo, values } := by
    refine ⟨hq.join, fun n hn => ?_, fun n hn => ?_, fun n hp => ?_, fun hh n hp => ?_⟩
    · rcases hv n hn with hn | hn
      · exact (hq.values n hn).imp_left (hs n)
      · exact .inl (hs n hn)
    · have ht := hq.todo n (hsub n hn)
      split
      · rename_i hp
        rwa [if_pos hp] at ht
      · rename_i hp
        rw [if_neg hp] at ht
        exact hs n ht
    · exact Nat.le_trans (hone n hp) (hq.single n hp)
    · rcases hq.all hh n hp with hn | hn
      · exact .inl (hall hh n hn)
      · exact .inr (ht hh n hn hp)
  exact ⟨fun n x hx m hm => hs m (h.inputs n x hx m hm), fun n hn => hs n (h.roots n hn), h.phis,
    forall_mem_cons.mpr ⟨hq', fun r hr => (h.meetings r (mem_cons_of_mem _ hr)).mono hs⟩, h.distinct⟩

theorem skip (hq : q.todo = todo ++ [old])
    (ho : g.isPhiOf old q.join = false) : g.Coherent roots ({ q with todo, values := q.values } :: ms) := by
  refine h.change (fun _ n hn hp => ?_) (fun n hn => .inl hn) (fun n hn => ?_) (fun n _ => ?_) fun _ n hn => hn
  · rw [hq] at hn
    rcases mem_append.mp hn with hn | hn
    · exact hn
    · rw [mem_singleton.mp hn, ho] at hp
      cases hp
  · rw [hq]
    exact mem_append_left _ hn
  · rw [hq, count_append]
    omega

theorem retain (hs : g.Shows (q :: ms) n) (hn : g.isPhiOf n q.join = false) :
    g.Coherent roots ({ q with todo := q.todo, values := n :: q.values } :: ms) := by
  refine h.change (fun _ n hn _ => hn) (fun m hm => ?_) (fun n hn => hn) (fun m hm => ?_)
    fun _ n hn => mem_cons_of_mem _ hn
  · rcases mem_cons.mp hm with rfl | hm
    · exact .inr hs
    · exact .inl hm
  · have hne : n ≠ m := by
      rintro rfl
      rw [hn] at hm
      cases hm
    exact Nat.le_of_eq (by rw [count_cons_of_ne hne])

theorem hide (hq : q.hidden = true) :
    g.Coherent roots ({ q with todo := [], values := q.values } :: ms) := by
  refine h.change (fun hh => ?_) (fun n hn => .inl hn) (fun n hn => absurd hn not_mem_nil) (fun n _ => ?_)
    fun _ n hn => hn
  · rw [hq] at hh
    cases hh
  · simp

/-- A join that gets no further ways: what meets there comes into sight. -/
theorem close (hq : q.todo = []) : g.Coherent (q.join :: q.values ++ roots) ms := by
  have hd := nodup_cons.mp h.distinct
  have hs (n : NodeId) (hn : g.Shows (q :: ms) n) : g.Shows ms n := by
    refine hn.step (Nat.le_refl _) (fun _ => rfl) (fun r hr hh => ⟨r, mem_cons_of_mem _ hr, rfl, hh⟩) ?_
    rintro m - - (hc | ⟨r, hr, hj, hr'⟩)
    · exact .inl hc
    · rcases mem_cons.mp hr with rfl | hr
      · rw [hq] at hr'
        cases hr'
      · exact .inr ⟨r, hr, hj, hr'⟩
  have hg := h.meetings q mem_cons_self
  have hc : g.Coherent roots ms :=
    ⟨fun n x hx m hm => hs m (h.inputs n x hx m hm), fun n hn => hs n (h.roots n hn), h.phis,
      fun r hr => (h.meetings r (mem_cons_of_mem _ hr)).mono hs, hd.2⟩
  refine hc.add fun n hn => ?_
  rcases mem_cons.mp hn with rfl | hn
  · obtain ⟨x, hx, hp, -⟩ := hg.join
    exact shows_of_not_phi hx hp
  · rcases hg.values n hn with hn | ⟨hp, hcomp⟩
    · exact hs n hn
    · refine ⟨hg.le_size (.inl hn), fun m hm => ?_⟩
      cases isPhiOf_unique hm hp
      exact ⟨fun r hr hj => absurd (hj ▸ mem_map_of_mem (f := Meeting.join) hr) hd.1, .inl hcomp⟩

end

end Coherent

end Meetings

section Emitters

variable {roots' : List NodeId} {ms' : List Meeting}

theorem isPhiOf_of_push (hn : g'.nodes = g.nodes.push x) (hle : n ≤ g.nodes.size) (m : NodeId) :
    g'.isPhiOf n m = g.isPhiOf n m := by
  rw [isPhiOf, isPhiOf, node?_of_push hn, if_neg (Nat.ne_of_lt (Nat.lt_succ_of_le hle))]

theorem inputCount_of_push (hn : g'.nodes = g.nodes.push x) (hle : n ≤ g.nodes.size) :
    g'.inputCount n = g.inputCount n := by
  rw [inputCount, inputCount, inputs, inputs, node?_of_push hn, if_neg (Nat.ne_of_lt (Nat.lt_succ_of_le hle))]

theorem isPhiOf_modifyNode (hf : ∀ x, g.node? n = some x → (f x).op.isPhi = x.op.isPhi ∧
    (x.op.isPhi = true → (f x).inputs.getLast? = x.inputs.getLast?)) (k m : NodeId) :
    (g.modifyNode n f).isPhiOf k m = g.isPhiOf k m := by
  rw [Bool.eq_iff_iff, isPhiOf_iff, isPhiOf_iff, node?_modifyNode]
  split
  · rename_i hk
    subst hk
    constructor
    · rintro ⟨y, hy, hp, hl⟩
      obtain ⟨x, hx, rfl⟩ := Option.map_eq_some_iff.mp hy
      have hp := (hf x hx).1 ▸ hp
      exact ⟨x, hx, hp, (hf x hx).2 hp ▸ hl⟩
    · rintro ⟨x, hx, hp, hl⟩
      exact ⟨f x, by rw [hx]; rfl, (hf x hx).1.trans hp, ((hf x hx).2 hp).trans hl⟩
  · exact Iff.rfl

theorem size_modifyNode (f : Node → Node) : (g.modifyNode n f).nodes.size = g.nodes.size := by
  unfold modifyNode
  split
  · rfl
  · exact Array.size_modify ..

theorem inputCount_modifyNode_of_ne (f : Node → Node) {k : NodeId} (hk : k ≠ n) :
    (g.modifyNode n f).inputCount k = g.inputCount k := by
  rw [inputCount, inputCount, inputs, inputs, node?_modifyNode, if_neg hk]

namespace Coherent

section

variable (h : g.Coherent roots ms)
include h

theorem join_le_size (hn : g.isPhiOf n m = true) : m ≤ g.nodes.size := by
  obtain ⟨y, hy, -⟩ := h.join_of_phi hn
  exact Nat.le_of_lt_succ (node?_lt hy)

variable (hn : g'.nodes = g.nodes.push x)
include hn

theorem shows_push (hs : g.Shows ms n) : g'.Shows ms n := by
  refine hs.step (by simp [hn]) (isPhiOf_of_push hn hs.1) (fun q hq hh => ⟨q, hq, rfl, hh⟩) ?_
  rintro m hm - (hc | hc)
  · refine .inl ?_
    rw [Complete, inputCount_of_push hn hs.1, inputCount_of_push hn (h.join_le_size hm), hc]
  · exact .inr hc

/-- A new node that is a phi of no meeting but one does not change the others. -/
theorem gathered_push (hr : r ∈ ms)
    (hs : ∀ n, g.Shows ms n → g'.Shows ms' n) (hx : x.op.isPhi = true → x.inputs.getLast? ≠ some r.join) :
    g'.Gathered ms' r := by
  have hg := h.meetings r hr
  obtain ⟨y, hy, -⟩ := hg.join
  have hj : r.join ≤ g.nodes.size := Nat.le_of_lt_succ (node?_lt hy)
  refine hg.step hs (fun z hz hp hi => ⟨z, node?_of_push_old hn hz, hp, hi⟩) (fun n => ?_)
    (inputCount_of_push hn hj) fun n hp => inputCount_of_push hn (le_size_of_phi hp)
  · by_cases hle : n ≤ g.nodes.size
    · exact isPhiOf_of_push hn hle _
    · rw [Bool.eq_iff_iff]
      refine ⟨fun hp => ?_, fun hp => absurd (le_size_of_phi hp) hle⟩
      obtain ⟨z, hz, hzp, hl⟩ := isPhiOf_iff.mp hp
      rw [node?_of_push hn] at hz
      split at hz
      · cases hz
        exact absurd hl (hx hzp)
      · exact absurd (Nat.le_of_lt_succ (node?_lt hz)) hle

theorem inputs_push (hs : ∀ n, g.Shows ms n → g'.Shows ms' n) (hx : ∀ m ∈ x.inputs, g'.Shows ms' m) :
    ∀ n y, g'.node? n = some y → ∀ m ∈ y.inputs, g'.Shows ms' m := by
  intro n y hy m hm
  rw [node?_of_push hn] at hy
  split at hy
  · cases hy
    exact hx m hm
  · exact hs m (h.inputs n y hy m hm)

theorem phis_push
    (hx : x.op.isPhi = true → ∃ m y, x.inputs.getLast? = some m ∧ g.node? m = some y ∧ y.op.isPhi = false) :
    ∀ n y, g'.node? n = some y → y.op.isPhi = true →
      ∃ m z, y.inputs.getLast? = some m ∧ g'.node? m = some z ∧ z.op.isPhi = false := by
  intro n y hy hp
  rw [node?_of_push hn] at hy
  split at hy
  · cases hy
    obtain ⟨m, z, hm, hz, hzp⟩ := hx hp
    exact ⟨m, z, hm, node?_of_push_old hn hz, hzp⟩
  · obtain ⟨m, z, hm, hz, hzp⟩ := h.phis n y hy hp
    exact ⟨m, z, hm, node?_of_push_old hn hz, hzp⟩

theorem push (hp : x.op.isPhi = false)
    (hi : ∀ m ∈ x.inputs, g.Shows ms m) : g'.Coherent ((g.nodes.size + 1) :: roots) ms := by
  have hs (n : NodeId) (hn' : g.Shows ms n) : g'.Shows ms n := h.shows_push hn hn'
  have hx {P : Prop} (hx : x.op.isPhi = true) : P := by
    rw [hp] at hx
    cases hx
  refine ⟨h.inputs_push hn hs fun m hm => hs m (hi m hm),
    forall_mem_cons.mpr ⟨?_, fun n hr => hs n (h.roots n hr)⟩,
    h.phis_push hn hx, fun r hr => h.gathered_push hn hr hs hx, h.distinct⟩
  exact shows_of_not_phi (node?_new hn) hp

end

theorem pushPhi (h : g.Coherent roots (q :: ms)) (hn : g'.nodes = g.nodes.push x)
    (hp : x.op.isPhi = true) (hx : x.inputs = values ++ [q.join]) (hv : ∀ m ∈ values, g.Shows (q :: ms) m)
    (hl : values.length = g.inputCount q.join) :
    g'.Coherent roots ({ q with todo := q.todo, values := (g.nodes.size + 1) :: q.values } :: ms) := by
  have hs (n : NodeId) (hn' : g.Shows (q :: ms) n) :
      g'.Shows ({ q with todo := q.todo, values := (g.nodes.size + 1) :: q.values } :: ms) n :=
    (h.shows_push hn hn').replace rfl rfl fun _ ht _ => ht
  have hlast : x.inputs.getLast? = some q.join := by rw [hx, getLast?_concat]
  have hg := h.meetings q mem_cons_self
  obtain ⟨y, hy, hyp, hyi⟩ := hg.join
  have hjoin : q.join ≤ g.nodes.size := Nat.le_of_lt_succ (node?_lt hy)
  have hfresh {k : NodeId} (hk : k ∈ q.values ∨ k ∈ q.todo) : g.nodes.size + 1 ≠ k :=
    (Nat.ne_of_lt (Nat.lt_succ_of_le (hg.le_size hk))).symm
  -- the phis of the join are the new node and the ones before
  have hphi (n : NodeId) (hp : g'.isPhiOf n q.join = true) : n = g.nodes.size + 1 ∨ g.isPhiOf n q.join = true := by
    obtain ⟨z, hz, hzp, hl⟩ := isPhiOf_iff.mp hp
    rw [node?_of_push hn] at hz
    split at hz
    · exact .inl ‹_›
    · exact .inr (isPhiOf_iff.mpr ⟨z, hz, hzp, hl⟩)
  have hq' : g'.Gathered ({ q with todo := q.todo, values := (g.nodes.size + 1) :: q.values } :: ms)
      { q with todo := q.todo, values := (g.nodes.size + 1) :: q.values } := by
    refine ⟨⟨y, node?_of_push_old hn hy, hyp, hyi⟩, fun n hv => ?_, fun n ht => ?_, fun n hp => ?_, fun hh n hp => ?_⟩
    · rcases mem_cons.mp hv with rfl | hv
      · refine .inr ⟨isPhiOf_iff.mpr ⟨x, node?_new hn, hp, hlast⟩, ?_⟩
        rw [Complete, inputCount_of_node (node?_new hn), inputCount_of_push hn hjoin, hx, ← hl]
        simp
      · rcases hg.values n hv with hv | ⟨hp, hc⟩
        · exact .inl (hs n hv)
        · have hle := le_size_of_phi hp
          refine .inr ⟨by rw [isPhiOf_of_push hn hle, hp], ?_⟩
          rw [Complete, inputCount_of_push hn hle, inputCount_of_push hn hjoin, hc]
    · have hle := hg.le_size (.inr ht)
      have ht := hg.todo n ht
      dsimp only
      rw [isPhiOf_of_push hn hle, inputCount_of_push hn hle, inputCount_of_push hn hjoin]
      split
      · rename_i hp
        rwa [if_pos hp] at ht
      · rename_i hp
        rw [if_neg hp] at ht
        exact hs n ht
    · dsimp only at hp ⊢
      rcases hphi n hp with rfl | hp
      · have hv : q.values.count (g.nodes.size + 1) = 0 :=
          count_eq_zero.mpr fun hm => hfresh (.inl hm) rfl
        have ht : q.todo.count (g.nodes.size + 1) = 0 := count_eq_zero.mpr fun hm => hfresh (.inr hm) rfl
        have hone : ((g.nodes.size + 1) :: q.values).count (g.nodes.size + 1) = 1 := by
          rw [count_cons_self, hv]
        exact Nat.le_of_eq (by rw [hone, ht])
      · rw [count_cons_of_ne (Nat.ne_of_lt (Nat.lt_succ_of_le (le_size_of_phi hp))).symm]
        exact hg.single n hp
    · rcases hphi n hp with rfl | hp
      · exact .inl mem_cons_self
      · exact (hg.all hh n hp).imp_left (mem_cons_of_mem _)
  refine ⟨h.inputs_push hn hs fun m hm => ?_, fun n hr => hs n (h.roots n hr), h.phis_push hn fun _ => ?_,
    forall_mem_cons.mpr ⟨hq', fun r hr => ?_⟩, h.distinct⟩
  · rw [hx] at hm
    rcases mem_append.mp hm with hm | hm
    · exact hs m (hv m hm)
    · rw [mem_singleton.mp hm]
      exact hs _ (shows_of_not_phi hy hyp)
  · exact ⟨q.join, y, hlast, hy, hyp⟩
  · refine h.gathered_push hn (mem_cons_of_mem _ hr) hs fun _ hj => ?_
    have hj : q.join = r.join := Option.some.inj (hlast.symm.trans hj)
    exact (nodup_cons.mp h.distinct).1 (hj ▸ mem_map_of_mem hr)

section

variable (h : g.Coherent roots ms)
include h

theorem inputs_modifyNode (hs : ∀ k, g.Shows ms k → (g.modifyNode n f).Shows ms' k)
    (hf : ∀ x, g.node? n = some x → ∀ m ∈ (f x).inputs, m ∈ x.inputs ∨ g.Shows ms m) :
    ∀ k y, (g.modifyNode n f).node? k = some y → ∀ m ∈ y.inputs, (g.modifyNode n f).Shows ms' m := by
  intro k y hy m hm
  rw [node?_modifyNode] at hy
  split at hy
  · rename_i hk
    subst hk
    obtain ⟨x, hx, rfl⟩ := Option.map_eq_some_iff.mp hy
    rcases hf x hx m hm with hm | hm
    · exact hs m (h.inputs k x hx m hm)
    · exact hs m hm
  · exact hs m (h.inputs k y hy m hm)

theorem phis_modifyNode (hf : ∀ x, g.node? n = some x → (f x).op = x.op ∧
      (x.op.isPhi = true → (f x).inputs.getLast? = x.inputs.getLast?)) :
    ∀ k y, (g.modifyNode n f).node? k = some y → y.op.isPhi = true →
      ∃ m z, y.inputs.getLast? = some m ∧ (g.modifyNode n f).node? m = some z ∧ z.op.isPhi = false := by
  intro k y hy hp
  have hp' : ∃ x, g.node? k = some x ∧ x.op.isPhi = true ∧ y.inputs.getLast? = x.inputs.getLast? := by
    rw [node?_modifyNode] at hy
    split at hy
    · rename_i hk
      subst hk
      obtain ⟨x, hx, rfl⟩ := Option.map_eq_some_iff.mp hy
      rw [(hf x hx).1] at hp
      exact ⟨x, hx, hp, (hf x hx).2 hp⟩
    · exact ⟨y, hy, hp, rfl⟩
  obtain ⟨x, hx, hxp, hl⟩ := hp'
  obtain ⟨m, w, hm, hw, hwp⟩ := h.phis k x hx hxp
  refine ⟨m, if m = n then f w else w, hl.trans hm, ?_, ?_⟩
  · rw [node?_modifyNode, hw]
    split <;> rfl
  · split
    · rename_i hmn
      subst hmn
      rw [(hf w hw).1, hwp]
    · exact hwp

end

theorem not_phi_of_push (h : g.Coherent roots ms) (hn : g'.nodes = g.nodes.push x) (hp : x.op.isPhi = false)
    (n : NodeId) : g'.isPhiOf n (g.nodes.size + 1) = false := by
  refine Bool.eq_false_iff.mpr fun hphi => ?_
  obtain ⟨y, hy, hyp, hl⟩ := isPhiOf_iff.mp hphi
  rw [node?_of_push hn] at hy
  split at hy
  · cases hy
    rw [hp] at hyp
    cases hyp
  · have hle := h.join_le_size (isPhiOf_iff.mpr ⟨y, hy, hyp, hl⟩)
    exact absurd hle (Nat.not_succ_le_self _)

/-- A new join, at which some of the values in sight are going to meet. -/
theorem pushJoin (h : g.Coherent roots ms) (hn : g'.nodes = g.nodes.push x)
    (hp : x.op.isPhi = false) (hi : x.inputs ≠ []) (hx : ∀ m ∈ x.inputs, g.Shows ms m) (hidden : Bool)
    (ht : ∀ n ∈ todo, g.Shows ms n) :
    g'.Coherent roots ({ join := g.nodes.size + 1, hidden, todo, values := [] } :: ms) := by
  have h' := h.push hn hp hx
  have hnone := h.not_phi_of_push hn hp
  have hs (n : NodeId) (hs : g'.Shows ms n) :
      g'.Shows ({ join := g.nodes.size + 1, hidden, todo, values := [] } :: ms) n := by
    refine ⟨hs.1, fun m hm => ?_⟩
    obtain ⟨hd, hc⟩ := hs.2 m hm
    refine ⟨forall_mem_cons.mpr ⟨fun hj => ?_, hd⟩, hc.imp_right ?_⟩
    · subst hj
      rw [hnone] at hm
      cases hm
    · rintro ⟨r, hr, hj, hr'⟩
      exact ⟨r, mem_cons_of_mem _ hr, hj, hr'⟩
  have hfresh : g.nodes.size + 1 ∉ ms.map Meeting.join := by
    intro hm
    obtain ⟨r, hr, hj⟩ := mem_map.mp hm
    obtain ⟨y, hy, -⟩ := (h.meetings r hr).join
    exact Nat.ne_of_lt (node?_lt hy) hj
  refine ⟨fun n y hy m hm => hs m (h'.inputs n y hy m hm),
    fun n hr => hs n (h'.roots n (mem_cons_of_mem _ hr)), h'.phis,
    forall_mem_cons.mpr ⟨⟨⟨x, node?_new hn, hp, hi⟩, fun n hn => absurd hn not_mem_nil, fun n hn' => ?_,
      fun n hphi => ?_, fun _ n hphi => ?_⟩, fun r hr => (h'.meetings r hr).mono hs⟩,
    nodup_cons.mpr ⟨hfresh, h.distinct⟩⟩
  · rw [if_neg (by simp [hnone])]
    exact hs n (h.shows_push hn (ht n hn'))
  · rw [hnone] at hphi
    cases hphi
  · rw [hnone] at hphi
    cases hphi

/-- A join or one of its phis gets another input. -/
theorem modify {q' : Meeting} (h : g.Coherent roots (q :: ms)) (hj : q'.join = q.join)
    (hh : q'.hidden = q.hidden) (hn : n = q.join ∨ g.isPhiOf n q.join = true)
    (hf : ∀ x, g.node? n = some x → (f x).op = x.op ∧
      (x.op.isPhi = true → (f x).inputs.getLast? = x.inputs.getLast?) ∧
      ∀ m ∈ (f x).inputs, m ∈ x.inputs ∨ g.Shows (q :: ms) m)
    (hc : ∀ k, g.isPhiOf k q.join = true → q.hidden = false → (g.Complete k q.join ∨ k ∈ q.todo) →
      (g.modifyNode n f).Complete k q.join ∨ k ∈ q'.todo)
    (hq : (∀ k, g.Shows (q :: ms) k → (g.modifyNode n f).Shows (q' :: ms) k) →
      (g.modifyNode n f).Gathered (q' :: ms) q') : (g.modifyNode n f).Coherent roots (q' :: ms) := by
  have hphi := isPhiOf_modifyNode fun x hx => ⟨by rw [(hf x hx).1], (hf x hx).2.1⟩
  obtain ⟨z, hz, hzp, -⟩ := (h.meetings q mem_cons_self).join
  -- other joins and their phis stay as they are
  have hother {k m : NodeId} (hm : m ≠ q.join) (hk : g.isPhiOf k m = true) : k ≠ n ∧ m ≠ n := by
    rcases hn with rfl | hn
    · refine ⟨?_, hm⟩
      rintro rfl
      rw [isPhiOf_of_not_phi hz hzp] at hk
      cases hk
    · constructor
      · rintro rfl
        exact hm (isPhiOf_unique hk hn)
      · rintro rfl
        rw [not_phi_of_join h hk] at hn
        cases hn
  have hs (k : NodeId) (hk : g.Shows (q :: ms) k) : (g.modifyNode n f).Shows (q' :: ms) k := by
    refine hk.step (Nat.le_of_eq (size_modifyNode f).symm) (hphi k) (fun r hr hid => ?_) fun m hm hd hcomp => ?_
    · rcases mem_cons.mp hr with rfl | hr
      · exact ⟨q, mem_cons_self, hj.symm, hh ▸ hid⟩
      · exact ⟨r, mem_cons_of_mem _ hr, rfl, hid⟩
    · by_cases hmq : m = q.join
      · subst hmq
        have hkt : g.Complete k q.join ∨ k ∈ q.todo := by
          refine hcomp.imp_right fun ⟨r, hr, hrj, hrt⟩ => ?_
          rcases mem_cons.mp hr with rfl | hr
          · exact hrt
          · exact absurd (hrj ▸ mem_map_of_mem (f := Meeting.join) hr) (nodup_cons.mp h.distinct).1
        refine (hc k hm (hd q mem_cons_self rfl) hkt).imp_right fun ht => ?_
        exact ⟨q', mem_cons_self, hj, ht⟩
      · obtain ⟨hkn, hmn⟩ := hother hmq hm
        rcases hcomp with hcomp | ⟨r, hr, hrj, hrt⟩
        · refine .inl ?_
          rw [Complete, inputCount_modifyNode_of_ne f hkn, inputCount_modifyNode_of_ne f hmn, hcomp]
        · rcases mem_cons.mp hr with rfl | hr
          · exact absurd hrj.symm hmq
          · exact .inr ⟨r, mem_cons_of_mem _ hr, hrj, hrt⟩
  refine ⟨h.inputs_modifyNode hs fun x hx => (hf x hx).2.2, fun k hr => hs k (h.roots k hr),
    h.phis_modifyNode fun x hx => ⟨(hf x hx).1, (hf x hx).2.1⟩, forall_mem_cons.mpr ⟨hq hs, fun r hr => ?_⟩,
    by simpa [hj] using h.distinct⟩
  · have hne : r.join ≠ q.join := fun hrj =>
      (nodup_cons.mp h.distinct).1 (hrj ▸ mem_map_of_mem hr)
    have hrn : r.join ≠ n := by
      rcases hn with rfl | hn
      · exact hne
      · rintro rfl
        obtain ⟨w, hw, hwp, -⟩ := (h.meetings r (mem_cons_of_mem _ hr)).join
        rw [isPhiOf_of_not_phi hw hwp] at hn
        cases hn
    refine (h.meetings r (mem_cons_of_mem _ hr)).step hs (fun w hw hwp hwi => ⟨w, ?_, hwp, hwi⟩)
      (fun k => hphi k _) (inputCount_modifyNode_of_ne f hrn) fun k hk => ?_
    · rw [node?_modifyNode, if_neg hrn, hw]
    · exact inputCount_modifyNode_of_ne f (hother hne hk).1

/-- One more way into a join: what meets there has to be extended. -/
theorem appendToMerge {control : NodeId} (h : g.Coherent roots (q :: ms)) (hq : q.todo = [])
    (hc : g.Shows (q :: ms) control) :
    (g.appendToMerge q.join control).Coherent roots ({ q with todo := q.values, values := [] } :: ms) := by
  have hg := h.meetings q mem_cons_self
  obtain ⟨z, hz, hzp, hzi⟩ := hg.join
  have hnot {k : NodeId} (hk : g.isPhiOf k q.join = true) : k ≠ q.join := by
    rintro rfl
    rw [isPhiOf_of_not_phi hz hzp] at hk
    cases hk
  have hnew : (g.appendToMerge q.join control).node? q.join = some { z with inputs := z.inputs ++ [control] } := by
    rw [Graph.appendToMerge, node?_modifyNode, if_pos rfl, hz]
    rfl
  have hcount : (g.appendToMerge q.join control).inputCount q.join = g.inputCount q.join + 1 := by
    rw [inputCount_of_node hnew, inputCount_of_node hz]
    simp
  have hphi := isPhiOf_modifyNode (g := g) (n := q.join) (f := fun x => { x with inputs := x.inputs ++ [control] })
    fun x hx => by
      cases hz.symm.trans hx
      exact ⟨rfl, fun hp => by rw [hzp] at hp; cases hp⟩
  refine h.modify rfl rfl (.inl rfl) (fun x hx => ⟨rfl, fun hp => ?_, fun m hm => ?_⟩) (fun k hk hh _ => ?_)
    fun hs => ⟨⟨_, hnew, hzp, by simp⟩, fun n hn => absurd hn not_mem_nil, fun n hn => ?_, fun n hp => ?_,
      fun hh n hp => ?_⟩
  · cases hz.symm.trans hx
    rw [hzp] at hp
    cases hp
  · rcases mem_append.mp hm with hm | hm
    · exact .inl hm
    · exact .inr (mem_singleton.mp hm ▸ hc)
  · have hm := hg.all hh k hk
    rw [hq] at hm
    exact .inr (hm.resolve_right not_mem_nil)
  · dsimp only at hn ⊢
    split
    · rename_i hp
      rw [hphi] at hp
      have hcomp : g.Complete n q.join := by
        rcases hg.values n hn with hv | hv
        · refine (hv.2 q.join hp).2.resolve_right ?_
          rintro ⟨r, hr, hrj, hrt⟩
          rcases mem_cons.mp hr with rfl | hr
          · rw [hq] at hrt
            cases hrt
          · exact (nodup_cons.mp h.distinct).1 (hrj ▸ mem_map_of_mem hr)
        · exact hv.2
      exact ((inputCount_modifyNode_of_ne _ (hnot hp)).trans hcomp).trans hcount.symm
    · rename_i hp
      rw [hphi] at hp
      exact hs n ((hg.values n hn).resolve_right fun hv => hp hv.1)
  · have hone := hg.single n (by rw [← hphi, hp])
    rw [hq] at hone
    simpa using hone
  · have hm := hg.all hh n (by rw [← hphi, hp])
    rw [hq] at hm
    exact .inr (hm.resolve_right not_mem_nil)

/-- A phi gets the value that it lacks. -/
theorem appendToPhi (h : g.Coherent roots (q :: ms))
    (hq : q.todo = todo ++ [old]) (ho : g.isPhiOf old q.join = true) (hl : g.Shows (q :: ms) last) :
    (g.appendToPhi q.join old last).Coherent roots ({ q with todo, values := old :: q.values } :: ms) := by
  have hg := h.meetings q mem_cons_self
  have hmem : old ∈ q.todo := by simp [hq]
  obtain ⟨x, hx, hxp, hxl⟩ := isPhiOf_iff.mp ho
  have hj : q.join ≠ old := by
    intro hj
    have hno := not_phi_of_join h ho q.join
    rw [hj] at ho hno
    rw [ho] at hno
    cases hno
  have hshort : g.inputCount old = g.inputCount q.join := by
    have ht := hg.todo old hmem
    rwa [if_pos ho] at ht
  have hnew : (g.appendToPhi q.join old last).node? old =
      some { x with inputs := x.inputs.dropLast ++ [last, q.join] } := by
    rw [Graph.appendToPhi, node?_modifyNode, if_pos rfl, hx]
    rfl
  have hcount : (g.appendToPhi q.join old last).inputCount old = g.inputCount old + 1 := by
    have hne : x.inputs ≠ [] := by
      rintro hnil
      rw [hnil] at hxl
      cases hxl
    have hpos := length_pos_iff.mpr hne
    rw [inputCount_of_node hnew, inputCount_of_node hx, length_append, length_dropLast]
    simp only [length_cons, length_nil]
    omega
  have hkeep {k : NodeId} (hk : k ≠ old) : (g.appendToPhi q.join old last).inputCount k = g.inputCount k :=
    inputCount_modifyNode_of_ne _ hk
  have hcomp : (g.appendToPhi q.join old last).Complete old q.join := by
    rw [Complete, hcount, hkeep hj, hshort]
  have hphi := isPhiOf_modifyNode (g := g) (n := old)
    (f := fun x => { x with inputs := x.inputs.dropLast ++ [last, q.join] }) fun y hy => by
      cases hx.symm.trans hy
      exact ⟨rfl, fun _ => by simp [hxl]⟩
  -- the phi is among the values once
  have hone := hg.single old ho
  rw [hq, count_append, count_singleton_self] at hone
  have hvalues : old ∉ q.values := count_eq_zero.mp (by omega)
  have htodo : old ∉ todo := count_eq_zero.mp (by omega)
  refine h.modify rfl rfl (.inr ho) (fun y hy => ⟨rfl, fun _ => ?_, fun m hm => ?_⟩) (fun k hk _ hck => ?_)
    fun hs => ⟨?_, fun n hn => ?_, fun n hn => ?_, fun n hp => ?_, fun hh n hp => ?_⟩
  · cases hx.symm.trans hy
    simp [hxl]
  · cases hx.symm.trans hy
    rcases mem_append.mp hm with hm | hm
    · exact .inl (dropLast_subset _ hm)
    · rcases mem_cons.mp hm with rfl | hm
      · exact .inr hl
      · exact .inl (mem_singleton.mp hm ▸ mem_of_getLast? hxl)
  · by_cases hko : k = old
    · exact .inl (hko ▸ hcomp)
    · rcases hck with hck | hck
      · refine .inl ?_
        exact ((hkeep hko).trans hck).trans (congrArg (· + 1) (hkeep hj).symm)
      · rw [hq] at hck
        exact .inr ((mem_append.mp hck).resolve_right fun hm => hko (mem_singleton.mp hm))
  · obtain ⟨z, hz, hzp, hzi⟩ := hg.join
    refine ⟨z, ?_, hzp, hzi⟩
    rw [node?_modifyNode, if_neg hj, hz]
  · rcases mem_cons.mp hn with rfl | hn
    · exact .inr ⟨by rw [hphi, ho], hcomp⟩
    · rcases hg.values n hn with hv | ⟨hp, hc⟩
      · exact .inl (hs n hv)
      · have hno : n ≠ old := fun hno => hvalues (hno ▸ hn)
        exact .inr ⟨by rw [hphi, hp], ((hkeep hno).trans hc).trans (congrArg (· + 1) (hkeep hj).symm)⟩
  · have hno : n ≠ old := fun hno => htodo (hno ▸ hn)
    have ht := hg.todo n (by rw [hq]; exact mem_append_left _ hn)
    dsimp only
    rw [hphi]
    split
    · rename_i hp
      rw [if_pos hp] at ht
      exact ((hkeep hno).trans ht).trans (hkeep hj).symm
    · rename_i hp
      rw [if_neg hp] at ht
      exact hs n ht
  · have hn := hg.single n (by rw [← hphi, hp])
    rw [hq, count_append, count_singleton] at hn
    dsimp only
    rw [count_cons]
    omega
  · have hm := hg.all hh n (by rw [← hphi, hp])
    rw [hq] at hm
    rcases hm with hm | hm
    · exact .inl (mem_cons_of_mem _ hm)
    · rcases mem_append.mp hm with hm | hm
      · exact .inr hm
      · exact .inl (mem_singleton.mp hm ▸ mem_cons_self)

theorem setOffset (h : g.Coherent roots ms) (n : NodeId) (offset : Int) :
    (g.setOffset n offset).Coherent roots ms := by
  have hphi := isPhiOf_modifyNode (g := g) (n := n) (f := fun x => { x with offset }) fun _ _ => ⟨rfl, fun _ => rfl⟩
  have hcount (k : NodeId) : (g.setOffset n offset).inputCount k = g.inputCount k := by
    rw [inputCount, inputCount, Graph.inputs, Graph.inputs, Graph.setOffset, node?_modifyNode]
    split
    · rw [Option.map_map]
      rfl
    · rfl
  have hs (k : NodeId) (hk : g.Shows ms k) : (g.setOffset n offset).Shows ms k := by
    refine hk.step (Nat.le_of_eq (size_modifyNode _).symm) (hphi k) (fun q hq hh => ⟨q, hq, rfl, hh⟩) fun m _ _ hc => ?_
    rwa [Complete, hcount, hcount]
  refine ⟨h.inputs_modifyNode hs fun _ _ m hm => .inl hm, fun k hr => hs k (h.roots k hr),
    h.phis_modifyNode fun _ _ => ⟨rfl, fun _ => rfl⟩, fun r hr => ?_, h.distinct⟩
  refine (h.meetings r hr).step hs (fun x hx hp hi => ?_) (fun k => hphi k _) (hcount _) fun k _ => hcount k
  rw [Graph.setOffset, node?_modifyNode, hx]
  split <;> exact ⟨_, rfl, hp, hi⟩

theorem pushMet (h : g.Coherent roots ms) (hn : g'.nodes = g.nodes.push x)
    (hp : x.op.isPhi = false) (hi : x.inputs ≠ []) (hx : ∀ m ∈ x.inputs, g.Shows ms m) (hidden : Bool)
    (hv : ∀ n ∈ values, g.Shows ms n) :
    g'.Coherent roots ({ join := g.nodes.size + 1, hidden, values } :: ms) := by
  have h' := (h.add hv).pushJoin hn hp hi hx hidden fun n (hm : n ∈ []) => absurd hm not_mem_nil
  refine (h'.change (fun _ n hm _ => hm) (fun n (hm : n ∈ values) => ?_) (fun n hm => hm) (fun n hphi => ?_)
    fun _ n hm => absurd hm not_mem_nil).mono fun n hm => mem_append_right _ hm
  · exact .inr (h'.roots n (mem_append_left _ hm))
  · rw [h.not_phi_of_push hn hp] at hphi
    cases hphi

theorem shows_of_value (h : g.Coherent roots (q :: ms)) (hq : q.hidden = false) (hn : n ∈ q.values) :
    g.Shows (q :: ms) n := by
  have hg := h.meetings q mem_cons_self
  rcases hg.values n hn with hs | ⟨hp, hc⟩
  · exact hs
  · refine ⟨le_size_of_phi hp, fun m hm => ?_⟩
    cases isPhiOf_unique hm hp
    refine ⟨forall_mem_cons.mpr ⟨fun _ => hq, fun r hr hj => ?_⟩, .inl hc⟩
    exact absurd (hj ▸ mem_map_of_mem (f := Meeting.join) hr) (nodup_cons.mp h.distinct).1

theorem not_phi_of_hidden (hs : g.Shows (q :: ms) n) (hq : q.hidden = true) : g.isPhiOf n q.join = false := by
  refine Bool.eq_false_iff.mpr fun hp => ?_
  rw [(hs.2 _ hp).1 q mem_cons_self rfl] at hq
  cases hq

/-- Something in sight takes the place of what was to be extended at a join that is hidden. -/
theorem replace (h : g.Coherent roots (q :: ms)) (hq : q.hidden = true) (hn : g.Shows (q :: ms) n) :
    g.Coherent (n :: roots) ({ q with todo := [], values := n :: q.values } :: ms) := by
  have h' := (h.add (forall_mem_singleton.mpr hn)).hide hq
  have hn' := h'.roots n mem_cons_self
  exact h'.retain hn' (not_phi_of_hidden hn' hq)

theorem inputCount_pos (h : g.Coherent roots (q :: ms)) : 0 < g.inputCount q.join := by
  obtain ⟨x, hx, -, hi⟩ := (h.meetings q mem_cons_self).join
  rw [inputCount_of_node hx]
  exact length_pos_iff.mpr hi

end Coherent

/-- The ways in which a value that meets others at a join is extended by one more. -/
inductive Extended (g : Graph) (join old last : NodeId) : NodeId → Graph → Prop
  | phi (ho : g.isPhiOf old join = true) : Extended g join old last old (g.appendToPhi join old last)
  | new {g' : Graph} {x : Node} {values : List NodeId} (ho : g.isPhiOf old join = false)
    (hn : g'.nodes = g.nodes.push x) (hp : x.op.isPhi = true) (hx : x.inputs = values ++ [join])
    (hv : ∀ v ∈ values, v = old ∨ v = last) (hl : values.length = g.inputCount join) :
    Extended g join old last (g.nodes.size + 1) g'
  | same (ho : g.isPhiOf old join = false) : Extended g join old last old g

/-- Each value that meets others is extended in its turn. -/
theorem Coherent.extend {v : NodeId} (h : g.Coherent roots (q :: ms))
    (hq : q.todo = todo ++ [old]) (hl : last ∈ roots) (he : g.Extended q.join old last v g') :
    g'.Coherent roots ({ q with todo, values := v :: q.values } :: ms) := by
  have hg := h.meetings q mem_cons_self
  have hshow (ho : g.isPhiOf old q.join = false) : g.Shows (q :: ms) old := by
    have ht := hg.todo old (by simp [hq])
    rwa [if_neg (by simp [ho])] at ht
  cases he with
  | phi ho => exact h.appendToPhi hq ho (h.roots last hl)
  | @new _ x values ho hn hp hx hv hlen =>
    have h' := (h.add (forall_mem_singleton.mpr (hshow ho))).skip hq ho
    refine (h'.pushPhi hn hp hx (fun m hm => ?_) hlen).mono fun n hn => mem_cons_of_mem _ hn
    rcases hv m hm with rfl | rfl
    · exact h'.roots m mem_cons_self
    · exact h'.roots m (mem_cons_of_mem _ hl)
  | same ho =>
    have h' := (h.add (forall_mem_singleton.mpr (hshow ho))).skip hq ho
    exact (h'.retain (h'.roots old mem_cons_self) ho).mono fun n hn => mem_cons_of_mem _ hn

end Emitters

/-- Every phi that a node refers to has a value for each way into its join. -/
def PhisComplete (g : Graph) : Prop :=
  ∀ n x m y, g.node? n = some x → (x.op = .phi ∨ x.op = .effectPhi) → g.node? m = some y → n ∈ y.inputs →
    ∃ k join, x.inputs.getLast? = some k ∧ g.node? k = some join ∧ x.inputs.dropLast.length = join.inputs.length

/-- While no way is being added, whatever is in sight is complete. -/
theorem Coherent.phisComplete (h : g.Coherent roots ms) (ht : ∀ q ∈ ms, q.todo = []) : g.PhisComplete := by
  intro n x m y hx hop hy hn
  have hp : x.op.isPhi = true := by
    rcases hop with ho | ho <;> rw [ho] <;> rfl
  obtain ⟨k, join, hk, hjoin, -⟩ := h.phis n x hx hp
  obtain ⟨-, hc⟩ := (h.inputs m y hy n hn).2 k (isPhiOf_iff.mpr ⟨x, hx, hp, hk⟩)
  have hc : g.Complete n k := by
    refine hc.resolve_right ?_
    rintro ⟨q, hq, -, hmem⟩
    rw [ht q hq] at hmem
    cases hmem
  rw [Complete, inputCount_of_node hx, inputCount_of_node hjoin] at hc
  refine ⟨k, join, hk, hjoin, ?_⟩
  rw [length_dropLast, hc, Nat.add_sub_cancel]

end Graph

end ProtoWasm
