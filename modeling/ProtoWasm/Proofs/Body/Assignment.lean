import ProtoWasm.Proofs.Binary.Reading
import ProtoWasm.Proofs.Body.Children
import ProtoWasm.Proofs.Opcode

/-! # Locals that loops assign

The scan of a loop reads its code once more, with counters in the place of expressions. On code that was accepted it
goes as far as the loop does, and finds the locals that expressions in the loop set, no more and no less.
-/
namespace ProtoWasm.Body

open Body.Expr List

variable {b : FunctionBody} {i : Input} {x : Instruction} {es cs : List Expr} {xs : List Instruction}
  {before after : List Instruction}

/-- An instruction starts at its offset, and the instructions that follow it start where its operands end. -/
theorem instructions_append (h : instructions i = some (before ++ x :: after)) :
    ∃ used rest j, i.bytes = used ++ x.opcode.code :: rest ∧ x.offset = i.offset + used.length ∧
      readOperands x.opcode.form ⟨rest, x.offset + 1⟩ = .ok (x.operands, j) ∧ instructions j = some after := by
  induction before generalizing i with
  | nil =>
    obtain ⟨c, rest, ops, j, hb, ho, rfl, hj⟩ := instructions_eq_cons h
    exact ⟨[], rest, j, hb, by simp, ho, hj⟩
  | cons y before ih =>
    obtain ⟨c, rest, ops, j, hb, ho, -, hj⟩ := instructions_eq_cons h
    obtain ⟨skipped, hskip, hoffset⟩ := advances_readOperands _ _ _ _ ho
    obtain ⟨used, rest', j', hb', ho', hread, hafter⟩ := ih hj
    refine ⟨c :: skipped ++ used, rest', j', ?_, ?_, hread, hafter⟩
    · have hrest : rest = skipped ++ j.bytes := hskip
      rw [hb, hrest, hb', cons_append, cons_append, append_assoc]
    · rw [ho', hoffset]
      simp only [length_append, length_cons, Int.natCast_add, Int.natCast_one]
      omega

/-- The number that follows the opcode at an absolute offset. -/
def indexAt? (b : FunctionBody) (pc : Int) : Option Nat :=
  (Leb128.decodeUnsigned .w32 (b.code.drop ((pc - b.offset).toNat + 1))).toOption.map Prod.fst

def Instruction.target? (x : Instruction) : Option Nat :=
  match x.opcode.form, x.operands with
  | .setLocal, .index k => some k
  | _, _ => none

theorem form_of_target? {k : Nat} (h : x.target? = some k) : x.opcode.form = .setLocal := by
  unfold Instruction.target? at h
  split at h
  · assumption
  · cases h

def mark (flags : List Bool) (x : Instruction) : List Bool :=
  match x.target? with
  | some k => flags.set k true
  | none => flags

def scan (b : FunctionBody) (flags : List Bool) (pending : List Nat) : List Instruction → List Bool
  | [] => flags
  | x :: xs =>
    if pending.isEmpty then flags
    else match b.arity? x with
      | none => flags
      | some n => scan b (mark flags x) (closeFinished (n :: pending)) xs

theorem scan_of_nil (flags : List Bool) (xs : List Instruction) : scan b flags [] xs = flags := by
  cases xs <;> rfl

theorem mark_eq (flags : List Bool) (x : Instruction) :
    mark flags x = match x.opcode.form, x.operands with
      | .setLocal, .index k => flags.set k true
      | _, _ => flags := by
  unfold mark Instruction.target?
  split <;> rename_i h <;> split at h <;> simp_all

theorem scanAssigned_of_cons {m : Module} {results : Nat} {c : UInt8} {rest : List UInt8}
    (h : i.bytes = c :: rest) (flags : List Bool) (pending : List Nat) :
    scanAssigned m results flags pending i = if pending.isEmpty then flags
      else match readOperands (⟨c⟩ : Opcode).form ⟨rest, i.offset + 1⟩ with
        | .error _ => flags
        | .ok (ops, j) => match childCount m results (⟨c⟩ : Opcode).form ops with
          | none => flags
          | some n => scanAssigned m results (mark flags ⟨i.offset, ⟨c⟩, ops⟩) (closeFinished (n :: pending)) j := by
  rw [scanAssigned]
  split
  · rfl
  · split
    · rename_i h'
      cases h.symm.trans h'
    · rename_i h'
      cases h.symm.trans h'
      dsimp only
      split
      · rename_i ho
        rw [ho]
      · rename_i ops j ho
        conv_rhs => rw [ho]
        dsimp only
        cases childCount m results (⟨c⟩ : Opcode).form ops with
        | none => rfl
        | some n =>
          dsimp only
          congr 1
          rw [mark_eq]
          split
          · rename_i hf _ _
            rw [hf]
          · rename_i hother
            split
            · rename_i k hf hops
              cases hops
              exact (hother k (hf ▸ ho) hf rfl (proof_irrel_heq _ _)).elim
            · rfl

theorem scanAssigned_eq_scan (h : instructions i = some xs) (flags : List Bool) (pending : List Nat) :
    scanAssigned b.module b.signature.results.length flags pending i = scan b flags pending xs := by
  induction xs generalizing i flags pending with
  | nil =>
    have hb := bytes_of_instructions_nil h
    rw [scanAssigned, scan]
    split
    · rfl
    · split
      · rfl
      · rename_i hcons
        cases hb.symm.trans hcons
  | cons x xs ih =>
    obtain ⟨c, rest, ops, j, hb, ho, rfl, hj⟩ := instructions_eq_cons h
    rw [scanAssigned_of_cons hb, ho, scan, FunctionBody.arity?]
    simp only [ih hj]

def Scanned (b : FunctionBody) (e : Expr) : Prop :=
  ∀ (flags : List Bool) (k : Nat) (pending : List Nat) (xs : List Instruction), Shaped b e →
    scan b flags ((k + 1) :: pending) (e.code ++ xs) =
      scan b (e.code.foldl mark flags) (closeFinished (k :: pending)) xs

theorem scan_codeAll (he : ∀ e ∈ es, Scanned b e) (hs : ShapedAll b es) (flags : List Bool)
    (pending : List Nat) (xs : List Instruction) :
    scan b flags (closeFinished (es.length :: pending)) (codeAll es ++ xs) =
      scan b ((codeAll es).foldl mark flags) (closeFinished (0 :: pending)) xs := by
  induction es generalizing flags with
  | nil => rfl
  | cons e es ih =>
    obtain ⟨he, hes⟩ := forall_mem_cons.mp he
    have hclose : closeFinished ((e :: es).length :: pending) = (es.length + 1) :: pending := by
      simp [closeFinished]
    rw [hclose, codeAll, append_assoc, he flags es.length pending _ hs.1, ih hes hs.2, foldl_append]

theorem scanned (e : Expr) : Scanned b e := by
  induction e using Expr.induction with
  | h x cs ih =>
    intro flags k pending xs hs
    rw [code, cons_append, scan, if_neg (by simp), hs.1]
    dsimp only
    rw [scan_codeAll ih hs.2, foldl_cons, closeFinished, Nat.add_sub_cancel]

/-- The code of a loop is scanned to its end. -/
theorem scan_children (hs : ShapedAll b cs) (hcs : cs ≠ []) (flags : List Bool)
    (xs : List Instruction) : scan b flags [cs.length] (codeAll cs ++ xs) = (codeAll cs).foldl mark flags := by
  obtain ⟨e, es, rfl⟩ := exists_cons_of_ne_nil hcs
  have hclose : closeFinished [(e :: es).length] = [(e :: es).length] := by simp [closeFinished]
  rw [← hclose, scan_codeAll (fun e _ => scanned e) hs, closeFinished, scan_of_nil]

theorem length_marked (xs : List Instruction) (flags : List Bool) :
    (xs.foldl mark flags).length = flags.length := by
  induction xs generalizing flags with
  | nil => rfl
  | cons x xs ih =>
    rw [foldl_cons, ih, mark]
    split
    · exact length_set
    · rfl

theorem getElem?_marked (xs : List Instruction) (flags : List Bool) (i : Nat) :
    (xs.foldl mark flags)[i]? = some true ↔
      flags[i]? = some true ∨ i < flags.length ∧ ∃ x ∈ xs, x.target? = some i := by
  induction xs generalizing flags with
  | nil => simp
  | cons x xs ih =>
    have hmark : (mark flags x)[i]? = some true ↔
        flags[i]? = some true ∨ i < flags.length ∧ x.target? = some i := by
      unfold mark
      split
      · rename_i k hk
        rw [getElem?_set, hk]
        by_cases hik : k = i
        · subst hik
          by_cases hlt : k < flags.length <;> simp [hlt]
        · simp [hik]
      · rename_i hk
        simp [hk]
    have hlength : (mark flags x).length = flags.length := length_marked [x] flags
    rw [foldl_cons, ih, hmark, hlength]
    simp only [mem_cons, exists_eq_or_imp, or_assoc, and_or_left]

def assignedBy (b : FunctionBody) (xs : List Instruction) : List Bool :=
  xs.foldl mark (b.localTypes.map fun _ => false)

theorem getElem?_assignedBy {i : Nat} :
    (assignedBy b xs)[i]? = some true ↔ i < b.localTypes.length ∧ ∃ x ∈ xs, x.target? = some i := by
  have hnone : (b.localTypes.map fun _ => false)[i]? ≠ some true := by
    rw [getElem?_map]
    cases b.localTypes[i]? <;> simp
  rw [assignedBy, getElem?_marked, length_map]
  exact or_iff_right hnone

theorem length_assignedBy (xs : List Instruction) : (assignedBy b xs).length = b.localTypes.length := by
  rw [assignedBy, length_marked, length_map]

/-- An instruction is found in the code at its offset. -/
theorem drop_of_instructions (h : instructions b.input = some (before ++ x :: after)) :
    ∃ n rest j, x.offset - b.offset = (n : Nat) ∧ n < b.code.length ∧ b.code.drop n = x.opcode.code :: rest ∧
      readOperands x.opcode.form ⟨rest, x.offset + 1⟩ = .ok (x.operands, j) ∧ instructions j = some after := by
  obtain ⟨used, rest, j, hb, ho, hread, hj⟩ := instructions_append h
  have hcode : b.code = used ++ x.opcode.code :: rest := hb
  have hoffset : x.offset = b.offset + used.length := ho
  refine ⟨used.length, rest, j, by omega, ?_, ?_, hread, hj⟩
  · rw [hcode, length_append, length_cons]
    omega
  · rw [hcode, drop_left]

/-- The analysis of a loop finds the locals that its code sets. No code is longer than numbers of 64 bits with a sign
can tell. -/
theorem assignedInLoop_eq (hsize : b.code.length < 2 ^ 63)
    (hi : instructions b.input = some (before ++ (Expr.node x cs).code ++ after))
    (hs : Shaped b (.node x cs)) (hx : x.opcode = .loop) :
    assignedInLoop b x.offset = some (assignedBy b (codeAll cs)) := by
  have hform := Opcode.form_eq_loop_iff.mpr hx
  rw [append_assoc, code, cons_append] at hi
  obtain ⟨n, rest, j, hoffset, hn, hdrop, hread, hj⟩ := drop_of_instructions hi
  have hrel : ((n : Nat) : Int).bmod (2 ^ 64) = n := by
    rw [Int.bmod_eq_of_le] <;> omega
  have hop : (⟨x.opcode.code⟩ : Opcode) = .loop := hx
  have harity := hs.1
  unfold FunctionBody.arity? at harity
  unfold assignedInLoop
  dsimp only
  rw [hoffset, hrel, if_neg (by omega), Int.toNat_natCast, hdrop]
  dsimp only
  rw [if_neg (not_not.mpr hop)]
  rw [hform] at hread harity
  rw [hread]
  cases hops : x.operands with
  | index k =>
    rw [hops] at harity
    obtain rfl : k = cs.length := Option.some.inj harity
    cases cs with
    | nil => rfl
    | cons c cs =>
      dsimp only [length_cons]
      rw [scanAssigned_eq_scan hj, assignedBy]
      exact congrArg some (scan_children hs.2 (cons_ne_nil c cs) _ after)
  | none | targets _ | access _ _ | bits _ =>
    rw [hops] at harity
    cases harity

mutual

/-- The tree of an expression has its opcodes at their offsets. -/
def Mirrors : Expr → Tree → Prop
  | .node x cs, .expr op _ o _ ts => op = x.opcode ∧ o = x.offset ∧ MirrorsAll cs ts
  | _, .missing => False

def MirrorsAll : List Expr → List Tree → Prop
  | [], [] => True
  | e :: es, t :: ts => Mirrors e t ∧ MirrorsAll es ts
  | _, _ => False

end

variable {ctx : Context} {p p' : Pending} {s s' : State}

def Decoded (ctx : Context) (e : Expr) : Prop :=
  ∀ s t s', Shaped ctx.body e → eval ctx e s = .ok (t, s') →
    Mirrors e t ∧ ∀ x ∈ e.code, ∃ s₁ r, enter ctx s₁ x = .ok r

theorem feed_decoded (he : ∀ e ∈ es, Decoded ctx e) (hs : ShapedAll ctx.body es)
    (hp : p.Regular ctx) (h : feed ctx es p s = .ok (p', s')) :
    (∃ ts, p' = { p with type := p'.type, node := p'.node, done := p.done ++ ts } ∧ MirrorsAll es ts) ∧
      ∀ x ∈ codeAll es, ∃ s₁ r, enter ctx s₁ x = .ok r := by
  induction es generalizing p s with
  | nil =>
    cases h
    exact ⟨⟨[], by simp, trivial⟩, by simp [codeAll]⟩
  | cons e es ih =>
    obtain ⟨he, hes⟩ := forall_mem_cons.mp he
    obtain ⟨⟨t, s₁⟩, ht, h⟩ := bind_eq_ok.mp h
    obtain ⟨⟨p₁, s₂⟩, hr, h⟩ := bind_eq_ok.mp h
    have hq : { p with done := p.done ++ [t] }.Regular ctx := hp
    have hred := reduces_of_reduce hq hr
    obtain ⟨hmirror, hcode⟩ := he s t s₁ hs.1 ht
    obtain ⟨⟨ts, hp', hts⟩, hcodes⟩ := ih hes hs.2 (hred.regular hq) h
    refine ⟨⟨t :: ts, ?_, hmirror, hts⟩, ?_⟩
    · have hframe := hred.frame
      rw [hp', hframe]
      simp
    · exact forall_mem_append.mpr ⟨hcode, hcodes⟩

theorem decoded (e : Expr) : Decoded ctx e := by
  induction e using Expr.induction with
  | h x cs ih =>
    intro s t s' hs h
    rw [eval] at h
    obtain ⟨r, hr, h⟩ := bind_eq_ok.mp h
    have harity := arity_of_enter hr
    rw [hs.1, Option.some.injEq] at harity
    cases r with
    | leaf t₁ s₁ =>
      obtain rfl : cs = [] := length_eq_zero_iff.mp harity
      cases h
      have hb := begins_of_enter hr
      refine ⟨?_, by simpa [code, codeAll] using ⟨s, _, hr⟩⟩
      cases hb <;> exact ⟨rfl, rfl, trivial⟩
    | wait q s₁ =>
      have hb := begins_of_enter hr
      have hq : q.opcode = x.opcode ∧ q.offset = x.offset := by cases hb <;> exact ⟨rfl, rfl⟩
      dsimp only at h
      split at h
      · rename_i hzero
        obtain ⟨⟨p', s₂⟩, hp', h⟩ := bind_eq_ok.mp h
        cases h
        obtain rfl : cs = [] := length_eq_zero_iff.mp (harity.trans hzero)
        have hframe := (reduces_of_reduce hb.regular hp').frame
        refine ⟨?_, by simpa [code, codeAll] using ⟨s, _, hr⟩⟩
        rw [hframe]
        simp [Pending.tree, Mirrors, MirrorsAll, hq, hb.done]
      · obtain ⟨⟨p', s₂⟩, hp', h⟩ := bind_eq_ok.mp h
        cases h
        obtain ⟨⟨ts, hframe, hts⟩, hcodes⟩ := feed_decoded ih hs.2 hb.regular hp'
        refine ⟨?_, forall_mem_cons.mpr ⟨⟨s, _, hr⟩, hcodes⟩⟩
        rw [hframe]
        simpa [Pending.tree, Mirrors, hq, hb.done] using hts

mutual

/-- The expressions of a tree are listed as the instructions are. -/
theorem Mirrors.map_preorder : ∀ {e : Expr} {t : Tree}, Mirrors e t →
    t.preorder.map (fun u => (u.opcode, u.offset)) = e.code.map fun x => (x.opcode, x.offset)
  | .node x cs, .expr .., ⟨rfl, rfl, h⟩ => by
    rw [Tree.preorder, code, map_cons, map_cons, MirrorsAll.map_preorder h]
    rfl

theorem MirrorsAll.map_preorder : ∀ {es : List Expr} {ts : List Tree}, MirrorsAll es ts →
    (Tree.preorderAll ts).map (fun u => (u.opcode, u.offset)) = (codeAll es).map fun x => (x.opcode, x.offset)
  | [], [], _ => rfl
  | e :: es, t :: ts, h => by
    rw [Tree.preorderAll, codeAll, map_append, map_append, Mirrors.map_preorder h.1,
      MirrorsAll.map_preorder h.2]

end

mutual

/-- Every tree in a tree mirrors an expression in the expression. -/
theorem Mirrors.exists_of_mem : ∀ {e : Expr} {t u : Tree}, Shaped b e → Mirrors e t → u ∈ t.preorder →
    ∃ e' before after, Mirrors e' u ∧ Shaped b e' ∧ e.code = before ++ e'.code ++ after
  | .node x cs, .expr op type o n ts, u, hs, h, hu => by
    rcases mem_cons.mp hu with rfl | hu
    · exact ⟨.node x cs, [], [], h, hs, by simp⟩
    · obtain ⟨e', before, after, h', hs', hcode⟩ := MirrorsAll.exists_of_mem hs.2 h.2.2 hu
      exact ⟨e', x :: before, after, h', hs', by rw [code, hcode]; rfl⟩

theorem MirrorsAll.exists_of_mem : ∀ {es : List Expr} {ts : List Tree} {u : Tree}, ShapedAll b es → MirrorsAll es ts →
    u ∈ Tree.preorderAll ts → ∃ e' before after, Mirrors e' u ∧ Shaped b e' ∧ codeAll es = before ++ e'.code ++ after
  | [], [], _, _, _, hu => nomatch hu
  | e :: es, t :: ts, u, hs, h, hu => by
    rcases mem_append.mp hu with hu | hu
    · obtain ⟨e', before, after, h', hs', hcode⟩ := Mirrors.exists_of_mem hs.1 h.1 hu
      exact ⟨e', before, after ++ codeAll es, h', hs', by rw [codeAll, hcode, append_assoc]⟩
    · obtain ⟨e', before, after, h', hs', hcode⟩ := MirrorsAll.exists_of_mem hs.2 h.2 hu
      exact ⟨e', e.code ++ before, after, h', hs', by simp only [codeAll, hcode, append_assoc]⟩

end

theorem evalAll_decoded {ts : List Tree} (hs : ShapedAll ctx.body es) (h : evalAll ctx es s = .ok (ts, s')) :
    MirrorsAll es ts ∧ ∀ x ∈ codeAll es, ∃ s₁ r, enter ctx s₁ x = .ok r := by
  induction es generalizing s ts with
  | nil =>
    cases h
    exact ⟨trivial, by simp [codeAll]⟩
  | cons e es ih =>
    obtain ⟨⟨t, s₁⟩, ht, h⟩ := bind_eq_ok.mp h
    obtain ⟨⟨ts', s₂⟩, hts, h⟩ := bind_eq_ok.mp h
    cases h
    obtain ⟨hmirror, hcode⟩ := decoded e s t s₁ hs.1 ht
    obtain ⟨hmirrors, hcodes⟩ := ih hs.2 hts
    exact ⟨⟨hmirror, hmirrors⟩, forall_mem_append.mpr ⟨hcode, hcodes⟩⟩

/-- An instruction that sets a local begins only if there is such a local. -/
theorem enter_setLocal {r : Entry} (h : enter ctx s x = .ok r) (hx : x.opcode.form = .setLocal) :
    ∃ i t, x.operands = .index i ∧ ctx.types[i]? = some t ∧ r = .wait (x.await (.setLocal i t) t 1) s := by
  simp only [enter, hx] at h
  split at h
  all_goals try contradiction
  rename_i i _ hops
  split at h
  · cases h
  · rename_i t ht
    cases h
    exact ⟨i, t, hops, ht, rfl⟩

/-- The number after an opcode that sets a local is the index of that local. -/
theorem indexAt?_eq_target?
    (h : instructions b.input = some (before ++ x :: after)) (hx : x.opcode = .setLocal) :
    indexAt? b x.offset = x.target? := by
  obtain ⟨n, rest, j, hoffset, -, hdrop, hread, -⟩ := drop_of_instructions h
  have hform := Opcode.form_eq_setLocal_iff.mpr hx
  have hrest : b.code.drop (n + 1) = rest := by
    rw [← drop_drop, hdrop]
    rfl
  rw [indexAt?, hoffset, Int.toNat_natCast, hrest, Instruction.target?, hform]
  rw [hform] at hread
  obtain ⟨v, k, hv, hops⟩ := Reader.bind_eq_ok.mp hread
  obtain ⟨hops, -⟩ := Reader.pure_eq_ok.mp hops
  rw [← hops]
  unfold Reader.u32 Reader.unsigned at hv
  split at hv
  · rename_i hdecode
    cases hv
    rw [hdecode]
    rfl
  · cases hv

/-- The analysis of a loop of a body that was accepted says for every parameter and local whether an expression in the
loop sets it. -/
theorem decodeWith_assignedInLoop {o : Options} {graph : Option Graph} {r : Result} {t : Tree}
    (hsize : b.code.length < 2 ^ 63) (h : decodeWith b o graph = .ok r) (ht : t ∈ Tree.preorderAll r.trees)
    (hloop : t.opcode = .loop) :
    ∃ flags, assignedInLoop b t.offset = some flags ∧ flags.length = b.localTypes.length ∧
      ∀ i, flags[i]? = some true ↔
        ∃ u ∈ Tree.preorderAll t.children, u.opcode = .setLocal ∧ indexAt? b u.offset = some i := by
  obtain ⟨xs, es, ts, s, d, hi, hf, -, hts, -, rfl⟩ := decodeWith_eq_ok h
  obtain ⟨rfl, hs⟩ := codeAll_of_forest hf
  obtain ⟨hmirrors, hcodes⟩ := evalAll_decoded hs hts
  obtain ⟨⟨x, cs⟩, before, after, hmirror, hshaped, hcode⟩ := hmirrors.exists_of_mem hs ht
  cases t with
  | missing => exact absurd hmirror (by simp [Mirrors])
  | expr op type pc n ts =>
    obtain ⟨rfl, rfl, hchildren⟩ := hmirror
    have hplaces := hchildren.map_preorder
    have hin : ∀ y ∈ codeAll cs, y ∈ codeAll es := by
      intro y hy
      rw [hcode]
      exact mem_append_left _ (mem_append_right _ (mem_cons_of_mem x hy))
    have hindex : ∀ y ∈ codeAll cs, y.opcode = .setLocal → indexAt? b y.offset = y.target? := by
      intro y hy hset
      obtain ⟨before, after, heq⟩ := append_of_mem (hin y hy)
      exact indexAt?_eq_target? (heq ▸ hi) hset
    refine ⟨_, assignedInLoop_eq hsize (hcode ▸ hi) hshaped hloop, length_assignedBy _, fun i => ?_⟩
    rw [getElem?_assignedBy]
    constructor
    · rintro ⟨-, y, hy, htarget⟩
      have hset : y.opcode = .setLocal := Opcode.form_eq_setLocal_iff.mp (form_of_target? htarget)
      have hplace : (y.opcode, y.offset) ∈ (Tree.preorderAll ts).map fun u => (u.opcode, u.offset) := by
        rw [hplaces]
        exact mem_map_of_mem hy
      obtain ⟨u, hu, hplace⟩ := mem_map.mp hplace
      obtain ⟨hop, hoffset⟩ := Prod.mk.inj hplace
      refine ⟨u, hu, hop.trans hset, ?_⟩
      rw [hoffset, hindex y hy hset, htarget]
    · rintro ⟨u, hu, hset, hat⟩
      have hplace : (u.opcode, u.offset) ∈ (codeAll cs).map fun x => (x.opcode, x.offset) := by
        rw [← hplaces]
        exact mem_map_of_mem hu
      obtain ⟨y, hy, hplace⟩ := mem_map.mp hplace
      obtain ⟨hop, hoffset⟩ := Prod.mk.inj hplace
      have hset' : y.opcode = .setLocal := hop.trans hset
      rw [← hoffset, hindex y hy hset'] at hat
      refine ⟨?_, y, hy, hat⟩
      obtain ⟨s₁, r, hr⟩ := hcodes y (hin y hy)
      obtain ⟨k, τ, hops, hτ, -⟩ := enter_setLocal hr (Opcode.form_eq_setLocal_iff.mpr hset')
      rw [Instruction.target?, Opcode.form_eq_setLocal_iff.mpr hset', hops] at hat
      cases hat
      exact (List.getElem?_eq_some_iff.mp hτ).1

/-- A loop that sets the third of three locals, and the second in a loop inside it. The first is set after both. -/
def stepping : FunctionBody where
  signature := ⟨[.i32], []⟩
  locals := [.i32, .i32]
  code := [0x02, 0x02, 0x0f, 0x02, 0x09, 0x05, 0x01, 0x01, 0x02, 0x01, 0x0f, 0x01, 0x0e, 0x00, 0x0f, 0x00, 0x09, 0x01]
  offset := 100

theorem decodeWith_assignedInLoop_stepping :
    ∃ r t, decodeWith stepping {} none = .ok r ∧ t ∈ Tree.preorderAll r.trees ∧ t.opcode = .loop ∧ t.offset = 100 ∧
      assignedInLoop stepping 100 = some [false, true, true] ∧
      (∃ u ∈ Tree.preorderAll t.children, u.opcode = .setLocal ∧ indexAt? stepping u.offset = some 1) ∧
      ¬ ∃ u ∈ Tree.preorderAll t.children, u.opcode = .setLocal ∧ indexAt? stepping u.offset = some 0 := by
  let place (u : Tree) : Opcode × Int := (u.opcode, u.offset)
  let inner : List (Opcode × Int) :=
    [(.setLocal, 102), (⟨0x09⟩, 104), (⟨0x01⟩, 106), (.loop, 108), (.setLocal, 110), (⟨0x0e⟩, 112)]
  have hok : (decodeWith stepping {} none).toOption.bind (fun r => r.trees.head?.map fun t =>
      (place t, (Tree.preorderAll t.children).map place)) = some ((.loop, 100), inner) := by
    decide +kernel
  obtain ⟨r, hr, hok⟩ := Option.bind_eq_some_iff.mp hok
  have hr := toOption_eq_some.mp hr
  obtain ⟨t, ht, hok⟩ := Option.map_eq_some_iff.mp hok
  obtain ⟨hplace, hinner⟩ := Prod.mk.inj hok
  obtain ⟨hloop, hoffset⟩ := Prod.mk.inj hplace
  have ht : t ∈ Tree.preorderAll r.trees := by
    obtain ⟨rest, hrest⟩ := head?_eq_some_iff.mp ht
    cases t with
    | missing => cases hloop
    | expr => simp [hrest, Tree.preorderAll, Tree.preorder]
  obtain ⟨flags, hflags, hlen, hexact⟩ := decodeWith_assignedInLoop (by decide) hr ht hloop
  have hset (i : Nat) : (∃ u ∈ Tree.preorderAll t.children, u.opcode = .setLocal ∧
      indexAt? stepping u.offset = some i) ↔ ∃ c ∈ inner, c.1 = .setLocal ∧ indexAt? stepping c.2 = some i := by
    rw [← hinner]
    simp [place]
  have h₀ := mt (hset 0).mp (by decide +kernel)
  have h₁ := (hset 1).mpr (by decide +kernel)
  have h₂ := (hset 2).mpr (by decide +kernel)
  obtain ⟨x, y, z, rfl⟩ := length_eq_three.mp hlen
  obtain rfl : x = false := by simpa using mt (hexact 0).mp h₀
  obtain rfl : y = true := by simpa using (hexact 1).mpr h₁
  obtain rfl : z = true := by simpa using (hexact 2).mpr h₂
  exact ⟨r, t, hr, ht, hloop, hoffset, hoffset ▸ hflags, h₁, h₀⟩

end ProtoWasm.Body
