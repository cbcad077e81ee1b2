import ProtoWasm.Module.Encode
import ProtoWasm.Proofs.Binary.Acceptance
import ProtoWasm.Proofs.Module.Built

/-! # Every part of a module that is written is read back -/
namespace ProtoWasm.Module

open List Reader
open Leb128 (encodeUnsigned length_encodeUnsigned_pos)

variable {α β : Type} {P : β → Prop} {m : Module} {limit n : Nat} {xs ts : List α} {t : GlobalType}
  {e : ConstExpr}

theorem map_of_forall₂ {f : α → β} {ys : List β}
    (h : List.Forall₂ (fun x y => y = f x) xs ys) : ys = xs.map f := by
  rw [← map_eq_of_forall₂ (w := id) (fun _ _ hy => hy) h, map_id]

theorem length_le_flatMap {enc : α → List UInt8} (h : ∀ x ∈ xs, 0 < (enc x).length) :
    xs.length ≤ (xs.flatMap enc).length := by
  induction xs with
  | nil => exact Nat.le_refl 0
  | cons x xs ih =>
    obtain ⟨hx, hxs⟩ := forall_mem_cons.mp h
    have := ih hxs
    rw [flatMap_cons, length_append, length_cons]
    omega

theorem length_le_of_mem_flatMap (enc : α → List UInt8) {x : α} (h : x ∈ xs) :
    (enc x).length ≤ (xs.flatMap enc).length := by
  obtain ⟨before, after, rfl⟩ := append_of_mem h
  simp only [flatMap_append, flatMap_cons, length_append]
  omega

theorem accepts_count {what : String} {f : Nat → Reader β} {ys : List UInt8}
    (hn : n < 2 ^ 32) (hle : n ≤ ys.length) (hf : Accepts (f n) ys P) :
    Accepts (readCount what >>= f) (encodeUnsigned n ++ ys) P := by
  intro rest o
  obtain ⟨b, hb, hP⟩ := hf rest (o + (encodeUnsigned n).length)
  obtain ⟨k, hu, hk⟩ := accepts_u32 (what ++ " count") hn (ys ++ rest) o
  rw [hk] at hu
  refine ⟨b, bind_eq_ok.mpr ⟨n, ⟨ys ++ rest, o + (encodeUnsigned n).length⟩, ?_, ?_⟩, hP⟩
  · simp only [readCount, bind_eq_ok, offset_eq_ok, remaining_eq_ok, refuse_eq_ok, pure_eq_ok,
      append_assoc]
    refine ⟨_, _, ⟨rfl, rfl⟩, _, _, hu, _, _, ⟨rfl, rfl⟩, (), _, ⟨?_, rfl⟩, rfl, rfl⟩
    simp only [Input.remaining, length_append]
    omega
  · rw [hb, length_append]
    congr 3
    omega

theorem accepts_valType (what : String) {t : ValType} (ht : t.isValue = true) :
    Accepts (readValType what) [t.toByte] fun a => a = t := by
  refine .offset fun o => ?_
  apply (accepts_byte what t.toByte).last
  rintro _ rfl
  rw [ValType.ofByte_toByte_of_isValue ht]
  exact (accepts_refuse (by simp [ht]) _ _).after fun _ _ => accepts_pure rfl

theorem accepts_types (what : String) {ts : List ValType} (h : ∀ t ∈ ts, t.isValue = true) :
    Accepts (times ts.length fun _ => readValType what) (encodeTypes ts) fun as => as = ts := by
  have hts : encodeTypes ts = ts.flatMap fun t => [t.toByte] := by
    rw [encodeTypes, map_eq_flatMap]
  rw [hts]
  refine (accepts_times fun _ t ht => accepts_valType what (h t ht)).imp ?_
  intro as has
  rw [map_of_forall₂ (f := id) has, map_id]

theorem accepts_signature (k : Nat) {t : FuncType} (ht : t.Declared)
    (hlen : (encodeSignature t).length < 2 ^ 32) :
    Accepts (readSignature k) (encodeSignature t) fun a => a = t := by
  obtain ⟨hv, hr⟩ := ht
  simp only [FuncType.isValue, Bool.and_eq_true, all_eq_true] at hv
  simp only [encodeSignature, append_assoc, length_append, encodeTypes, length_map] at hlen
  simp only [encodeSignature, append_assoc]
  refine .offset fun o => ?_
  apply accepts_count (by omega)
  · simp only [length_append, encodeTypes, length_map]
    omega
  apply (accepts_u32 _ (by omega)).bind
  rintro _ rfl
  apply (accepts_refuse (by omega) _ _).after
  intro _ _
  apply (accepts_types _ hv.1).bind
  rintro _ rfl
  apply (accepts_types _ hv.2).map
  rintro _ rfl
  rfl

theorem accepts_tableType {t : TableType} (ht : t.Within maxTableSize) :
    Accepts readTableType (encodeLimits t.min t.max) fun a => a = { t with imported := false } := by
  have hsize : maxTableSize < 2 ^ 32 := by decide
  obtain ⟨hle, hmax⟩ := ht
  refine .offset fun o => ?_
  apply (accepts_u32 _ (by omega)).bind
  rintro _ rfl
  apply (accepts_u32 _ (by omega)).last
  rintro _ rfl
  apply (accepts_refuse (by omega) _ _).after
  intro _ _
  apply (accepts_refuse (by omega) _ _).after
  intro _ _
  exact accepts_pure rfl

theorem accepts_memoryType {t : MemoryType} (ht : t.Within limit) (hmax : t.max < 2 ^ 32) :
    Accepts (readMemoryType limit) (encodeLimits t.min t.max) fun a => a = ⟨t.min, t.max, false, false⟩ := by
  obtain ⟨hle, hlimit⟩ := ht
  refine .offset fun o => ?_
  apply (accepts_u32 _ (by omega)).bind
  rintro _ rfl
  apply (accepts_u32 _ hmax).last
  rintro _ rfl
  apply (accepts_refuse (by omega) _ _).after
  intro _ _
  apply (accepts_refuse (by omega) _ _).after
  intro _ _
  exact accepts_pure rfl

theorem encodeFlag_le (b : Bool) : ¬ 1 < (encodeFlag b).toNat := by
  cases b <;> decide

theorem encodeFlag_eq_one (b : Bool) : (encodeFlag b == 1) = b := by
  cases b <;> decide

theorem accepts_globalType (ht : t.valType.isValue = true) :
    Accepts readGlobalType (encodeGlobalType t) fun a => a = t := by
  apply (accepts_valType _ ht).cons
  rintro _ rfl
  refine .offset fun o => ?_
  apply (accepts_byte _ _).last
  rintro _ rfl
  apply (accepts_refuse (encodeFlag_le _) _ _).after
  intro _ _
  apply accepts_pure
  rw [encodeFlag_eq_one]

theorem accepts_signatureIndex {t : FuncType} (ht : m.signatures[n]? = some t)
    (hm : m.signatures.length ≤ 2 ^ 32) :
    Accepts (readSignatureIndex m) (encodeUnsigned n) fun a => a = (n, t) := by
  have hn := (List.getElem?_eq_some_iff.mp ht).1
  refine .offset fun o => ?_
  apply (accepts_u32 _ (Nat.lt_of_lt_of_le hn hm)).last
  rintro _ rfl
  rw [ht]
  exact accepts_pure rfl

theorem accepts_encodeName (what s : String) (hs : (encodeName s).length < 2 ^ 32) :
    Accepts (Reader.name what) (encodeName s) fun a => a = s := by
  apply accepts_name
  simp only [encodeName, length_append] at hs
  omega

theorem accepts_import (k : Nat) {i : Import} (hd : i.desc.Declared limit m.signatures)
    (ha : m.Admits i.desc) (hm : m.signatures.length ≤ 2 ^ 32) (hlen : (encodeImport i).length < 2 ^ 32) :
    Accepts (readImport limit m k) (encodeImport i) fun a => a = m.link i.module i.name i.desc := by
  obtain ⟨module, name, desc, place⟩ := i
  simp only [encodeImport, append_assoc, length_append] at hlen
  simp only [encodeImport, append_assoc]
  apply (accepts_encodeName _ _ (by omega)).bind
  rintro _ rfl
  apply (accepts_encodeName _ _ (by omega)).bind
  rintro _ rfl
  refine .offset fun o => ?_
  apply (accepts_byte _ _).cons
  rintro _ rfl
  cases desc with
  | func t =>
    have ht : m.signatures[t]? = some (m.signatures[t]?.getD {}) := by
      simp [getElem?_eq_getElem (show t < m.signatures.length from hd)]
    apply (accepts_signatureIndex ht hm).map
    rintro _ rfl
    rfl
  | table t =>
    have hnil : ¬ (!m.tables.isEmpty) = true := by simp [show m.tables = [] from ha]
    apply (accepts_refuse hnil _ _).after
    intro _ _
    apply (accepts_tableType hd.1).map
    rintro _ rfl
    have : ({ t with imported := true } : TableType) = t := by rw [← hd.2]
    simp [Module.link, this]
  | memory t =>
    have hnone : ¬ m.memory.isSome = true := by simp [show m.memory = none from ha]
    apply (accepts_refuse hnone _ _).after
    intro _ _
    apply (accepts_memoryType hd.1 hd.2.1).map
    rintro _ rfl
    simp [Module.link, ← hd.2.2]
  | global t =>
    apply (accepts_globalType hd).map
    rintro _ rfl
    rfl
  | unknown b => exact hd.elim

theorem accepts_consumed {r : Reader α} {bytes : List UInt8} {Q : α → Prop} (h : Accepts r bytes Q) :
    Accepts (consumed r) bytes fun x => Q x.1 ∧ x.2 = bytes := by
  intro rest o
  obtain ⟨a, ha, hQ⟩ := h rest o
  refine ⟨(a, bytes), ?_, hQ, rfl⟩
  simp [consumed, ha, Input.remaining]

theorem importedGlobal_of_getElem? (h : m.importedGlobalTypes[n]? = some t) :
    ∃ g, (if n < m.importedGlobals then m.globals[n]? else none) = some g ∧ g.type = t := by
  rw [importedGlobalTypes, getElem?_map] at h
  obtain ⟨g, hg, ht⟩ := Option.map_eq_some_iff.mp h
  rw [getElem?_take] at hg
  exact ⟨g, hg, ht⟩

theorem accepts_initializerOperand (o : Int) {t : ValType} (h : e.Initializes m.importedGlobalTypes t) :
    Accepts (readInitializerOperand m o e.opcode) e.data fun a => a = t := by
  cases h with
  | i32 h => exact (accepts_signed_own _ _ h).map fun _ _ => rfl
  | i64 h => exact (accepts_signed_own _ _ h).map fun _ _ => rfl
  | @f32 data h =>
    have := accepts_word "f32.const value" data
    rw [h] at this
    exact this.map fun _ _ => rfl
  | @f64 data h =>
    have := accepts_word "f64.const value" data
    rw [h] at this
    exact this.map fun _ _ => rfl
  | @getGlobal data n t h ht =>
    obtain ⟨g, hg, rfl⟩ := importedGlobal_of_getElem? ht
    refine .offset fun o => ?_
    apply (accepts_unsigned_own _ _ h).last
    rintro _ rfl
    simp only [hg]
    exact accepts_pure rfl

theorem accepts_constExpr {want : ValType} (h : e.Initializes m.importedGlobalTypes want) :
    Accepts (readConstExpr m want) (encodeConstExpr e) fun a => a = e := by
  refine .offset fun o => ?_
  apply (accepts_byte _ e.opcode.code).cons
  rintro _ rfl
  apply (accepts_consumed (accepts_initializerOperand o h)).bind
  rintro ⟨got, data⟩ ⟨rfl, rfl⟩
  refine .offset fun o' => ?_
  apply (accepts_byte _ _).last
  rintro _ rfl
  apply (accepts_refuse (by simp) _ _).after
  intro _ _
  apply (accepts_refuse (by simp) _ _).after
  intro _ _
  exact accepts_pure rfl

theorem accepts_global {g : Global} (h : m.Defines g) : Accepts (do
      let type ← readGlobalType
      return ({ type, init := some (← readConstExpr m type.valType) } : Global))
      (encodeGlobal g) fun a => a = { g with offset := 0 } := by
  obtain ⟨hv, hi, e, he, hx⟩ := h
  have henc : encodeGlobal g = encodeGlobalType g.type ++ encodeConstExpr e := by
    rw [encodeGlobal, he]
    rfl
  rw [henc]
  apply (accepts_globalType hv).bind
  rintro _ rfl
  apply (accepts_constExpr hx).map
  rintro _ rfl
  rw [← he, ← hi]

theorem accepts_export (k : Nat) {e : Export} (hname : e.name ∉ m.exports.map Export.name)
    (hn : m.spaceSize e.kind = some n) (hlt : e.index < n) (hsize : n ≤ 2 ^ 32)
    (hlen : (encodeExport e).length < 2 ^ 32) :
    Accepts (readExport m k) (encodeExport e) fun a => a = m.expose e := by
  have hkind : ExternKind.ofByte e.kind.toByte = e.kind := by
    cases hk : e.kind with
    | func | table | memory | global => rfl
    | unknown b =>
      rw [hk] at hn
      cases hn
  simp only [encodeExport, cons_append, length_cons, length_append] at hlen
  refine .offset fun o => ?_
  apply (accepts_byte _ e.kind.toByte).cons
  rintro _ rfl
  apply (accepts_u32 _ (by omega)).bind
  rintro _ rfl
  apply (accepts_encodeName _ _ (by omega)).last
  rintro _ rfl
  apply (accepts_refuse (by simpa using hname) _ _).after
  intro _ _
  simp only [hkind, hn]
  apply (accepts_refuse (by omega) _ _).after
  intro _ _
  apply accepts_pure
  unfold expose
  split <;> rfl

theorem accepts_element (k : Nat) {e : ElementSegment} (h : m.Placed e) (ht : m.tables.length ≤ 2 ^ 32)
    (hf : m.functions.length ≤ 2 ^ 32) (hlen : (encodeElement e).length < 2 ^ 32) :
    Accepts (readElement m k) (encodeElement e) fun a => a = e := by
  obtain ⟨htable, hinit, x, hx, hi⟩ := h
  obtain ⟨table, offset, init⟩ := e
  subst hx
  have hcount : init.length ≤ (init.flatMap encodeUnsigned).length :=
    length_le_flatMap fun n _ => length_encodeUnsigned_pos n
  simp only [encodeElement, length_append] at hlen
  simp only [encodeElement, append_assoc]
  refine .offset fun o => ?_
  apply (accepts_u32 _ (Nat.lt_of_lt_of_le htable ht)).bind
  rintro _ rfl
  apply (accepts_refuse (Nat.not_le_of_lt htable) _ _).after
  intro _ _
  apply (accepts_constExpr hi).bind
  rintro _ rfl
  apply accepts_count (by omega) hcount
  have hread : ∀ j, ∀ f ∈ init, Accepts (do
      let here ← Reader.offset
      let f ← u32 "function index"
      refuse (m.functions.length ≤ f) here (.elementFunction k j f)
      return f) (encodeUnsigned f) fun a => a = id f := by
    intro j f hmem
    refine .offset fun o => ?_
    apply (accepts_u32 _ (Nat.lt_of_lt_of_le (hinit f hmem) hf)).last
    rintro _ rfl
    exact (accepts_refuse (Nat.not_le_of_lt (hinit _ hmem)) _ _).after fun _ _ => accepts_pure rfl
  apply (accepts_times hread).map
  intro as has
  rw [map_of_forall₂ has, map_id]

theorem accepts_dataSegment {d : DataSegment}
    (h : ∃ x, d.offset = some x ∧ x.Initializes m.importedGlobalTypes .i32)
    (hlen : (encodeData d).length < 2 ^ 32) :
    Accepts (readDataSegment m) (encodeData d) fun a => a.offset = d.offset ∧ a.init = d.init := by
  obtain ⟨x, hx, hi⟩ := h
  obtain ⟨offset, place, init⟩ := d
  subst hx
  simp only [encodeData, length_append] at hlen
  simp only [encodeData, append_assoc]
  apply (accepts_constExpr hi).bind
  rintro _ rfl
  apply (accepts_u32 _ (by omega)).bind
  rintro _ rfl
  refine .offset fun o => ?_
  apply (accepts_take _ _).map
  rintro _ rfl
  exact ⟨rfl, rfl⟩

theorem flatMap_runs [DecidableEq α] (ts : List α) :
    (runs ts).flatMap (fun x => List.replicate x.1 x.2) = ts := by
  induction ts with
  | nil => rfl
  | cons t ts ih =>
    unfold runs
    split
    · rename_i n u rest hr
      rw [hr] at ih
      split
      · rename_i htu
        rw [flatMap_cons] at ih ⊢
        rw [htu, replicate_succ, cons_append, ih]
      · rw [flatMap_cons, ih]
        rfl
    · rename_i hr
      rw [hr] at ih
      rw [← ih]
      rfl

theorem accepts_locals (rs : List (Nat × ValType)) (total : Nat) (hv : ∀ x ∈ rs, x.2.isValue = true)
    (hl : rs ≠ [] → total + (rs.flatMap fun x => List.replicate x.1 x.2).length ≤ maxLocals) :
    Accepts (readLocals total rs.length) (rs.flatMap fun x => encodeUnsigned x.1 ++ [x.2.toByte])
      fun a => a = rs.flatMap fun x => List.replicate x.1 x.2 := by
  induction rs generalizing total with
  | nil => exact accepts_pure rfl
  | cons x rs ih =>
    obtain ⟨hx, hrs⟩ := forall_mem_cons.mp hv
    have hmax : maxLocals < 2 ^ 32 := by decide
    have hsum := hl (cons_ne_nil _ _)
    rw [flatMap_cons, length_append, length_replicate] at hsum
    rw [flatMap_cons, append_assoc]
    refine .offset fun o => ?_
    apply (accepts_u32 _ (by omega)).bind
    rintro _ rfl
    apply (accepts_valType _ hx).bind
    rintro _ rfl
    apply (accepts_refuse (by omega) _ _).after
    intro _ _
    apply (ih _ hrs (fun _ => by omega)).map
    rintro _ rfl
    rfl

theorem pos_of_mem_runs [DecidableEq α] : ∀ x ∈ runs ts, 0 < x.1 := by
  induction ts with
  | nil => simp [runs]
  | cons t ts ih =>
    unfold runs
    split
    · rename_i n u rest hr
      rw [hr] at ih
      obtain ⟨hn, hrest⟩ := forall_mem_cons.mp ih
      split
      · exact forall_mem_cons.mpr ⟨Nat.succ_pos n, hrest⟩
      · exact forall_mem_cons.mpr ⟨Nat.one_pos, ih⟩
    · exact forall_mem_singleton.mpr Nat.one_pos

theorem mem_of_mem_runs [DecidableEq α] {x : Nat × α} (hx : x ∈ runs ts) : x.2 ∈ ts := by
  rw [← flatMap_runs ts]
  refine mem_flatMap.mpr ⟨x, hx, ?_⟩
  exact mem_replicate.mpr ⟨Nat.ne_of_gt (pos_of_mem_runs x hx), rfl⟩

theorem length_runs_le [DecidableEq α] (ts : List α) : (runs ts).length ≤ ts.length := by
  conv_rhs => rw [← flatMap_runs ts]
  generalize hrs : runs ts = rs
  have hpos : ∀ x ∈ rs, 0 < x.1 := by
    rw [← hrs]
    exact pos_of_mem_runs
  clear hrs
  induction rs with
  | nil => exact Nat.le_refl 0
  | cons x rs ih =>
    obtain ⟨hx, hrs⟩ := forall_mem_cons.mp hpos
    have := ih hrs
    rw [flatMap_cons, length_append, length_replicate, length_cons]
    omega

theorem accepts_declarations {ls : List ValType} {params : Nat} (hv : ∀ t ∈ ls, t.isValue = true)
    (hl : ls ≠ [] → params + ls.length ≤ maxLocals) :
    Accepts (readCount "local declaration" >>= fun n => readLocals params n) (encodeLocals ls)
      fun a => a = ls := by
  have hcount : (runs ls).length ≤ maxLocals := by
    by_cases hls : ls = []
    · simp [hls, runs]
    · have := hl hls
      have := length_runs_le ls
      omega
  have hmax : maxLocals < 2 ^ 32 := by decide
  have hread := accepts_locals (runs ls) params (fun x hx => hv _ (mem_of_mem_runs hx)) (by
    intro hne
    rw [flatMap_runs]
    apply hl
    rintro rfl
    exact hne rfl)
  rw [flatMap_runs] at hread
  apply accepts_count (by omega) _ hread
  apply length_le_flatMap
  intro x _
  have := length_encodeUnsigned_pos x.1
  simp only [length_append]
  omega

theorem accepts_definition {f g : Function} (hp : f.type.params.length = g.type.params.length)
    (hv : ∀ t ∈ g.locals, t.isValue = true)
    (hl : g.locals ≠ [] → g.type.params.length + g.locals.length ≤ maxLocals)
    (hlen : (encodeBody g).length < 2 ^ 32) : Accepts (readDefinition f) (encodeBody g) fun a =>
      f.SameOutline a ∧ a.locals = g.locals ∧ a.body = g.body := by
  simp only [encodeBody, length_append] at hlen
  apply (accepts_u32 _ (by rw [length_append]; omega)).bind
  rintro _ rfl
  apply (accepts_window _ _).last
  rintro ⟨bytes, o⟩ rfl
  rw [hp]
  have hbody : ∃ x j, readBody g.type.params.length ⟨encodeLocals g.locals ++ g.body, o⟩ = .ok (x, j) ∧
      x.1 = g.locals ∧ x.2.bytes = g.body := by
    obtain ⟨ls, hread, hls⟩ := accepts_declarations hv hl g.body o
    obtain ⟨n, i, hn, hread⟩ := bind_eq_ok.mp hread
    refine ⟨(ls, _), _, bind_eq_ok.mpr ⟨n, i, hn, bind_eq_ok.mpr ⟨ls, _, hread, rfl⟩⟩, hls, rfl⟩
  apply (accepts_inside hbody).map
  rintro ⟨⟨ls, code⟩, left⟩ ⟨hls, hcode⟩
  exact ⟨rfl, hls, hcode⟩

theorem accepts_functionName (s : String) (hs : (encodeName s).length < 2 ^ 32) :
    Accepts readFunctionName (encodeName s ++ [0]) fun a => a = s := by
  have hzero : ([0] : List UInt8) = encodeUnsigned 0 ++ [] := by
    unfold encodeUnsigned
    rfl
  apply (accepts_encodeName _ _ hs).bind
  rintro _ rfl
  rw [hzero]
  apply accepts_count (by decide) (Nat.le_refl 0)
  exact (accepts_pure (P := fun _ => True) trivial).map fun _ _ => rfl

end ProtoWasm.Module
