import ProtoWasm.Proofs.Body.Placement
import ProtoWasm.Proofs.Module.Stages

/-! # Decoding what was encoded

The sections of a decoded module are read back in the order in which they are written, and each tells
again what it has told. In the end only the places in the source may differ.
-/
namespace ProtoWasm

open List

theorem Section.ofName?_name (s : Section) : Section.ofName? s.name = some s := by
  cases s <;> decide

theorem Section.mem_all (s : Section) : s ∈ all := by
  cases s <;> decide

theorem Section.eq_before {s : Section} {done rest : List Section} (h : all = done ++ s :: rest) :
    done = s.before := by
  have hnodup : (done ++ s :: rest).Nodup := by
    rw [← h]
    decide
  have hnot : ∀ t ∈ done, t ≠ s := by
    intro t ht
    exact (nodup_append.mp hnodup).2.2 t ht s mem_cons_self
  rw [before, h, takeWhile_append_of_pos (by simpa using hnot)]
  simp

namespace Module

open Reader
open Leb128 (decodeUnsigned encodeUnsigned)

variable {source source' bytes payload : List UInt8} {limit maxPages k : Nat} {seen done : List Section}
  {m m' l : Module} {s : Section} {α : Type} {p : Partial} {name : String} {i w rest left : Input} {start : Int}

theorem eq_nil_of_not_written {xs : List α} (h : (!xs.isEmpty) = false) : xs = [] := by
  simpa using h

theorem told_of_not_written (hw : m.written s = false) (hs : s ≠ .functionBodies) :
    told s m = told s {} := by
  cases s with
  | signatures | importTable | table | exportTable | elements => exact eq_nil_of_not_written hw
  | functionSignatures =>
    rw [told, show m.definedFunctions = [] from eq_nil_of_not_written hw]
    rfl
  | globals =>
    rw [told, show m.globals.drop m.importedGlobals = [] from eq_nil_of_not_written hw]
    rfl
  | dataSegments =>
    rw [told, show m.data = [] from eq_nil_of_not_written hw]
    rfl
  | memory | startFunction => exact Option.isNone_iff_eq_none.mp (Option.isSome_eq_false_iff.mp hw)
  | functionBodies => exact absurd rfl hs
  | names =>
    obtain ⟨rest, hrest, hempty⟩ := definedFunctions_eq_named m
    rw [show m.named = [] from eq_nil_of_not_written hw, nil_append] at hrest
    funext k
    change (m.definedFunctions.map Function.name)[k]?.getD "" = ""
    rw [hrest, getElem?_map]
    cases hf : rest[k]? with
    | none => rfl
    | some f => exact hempty f (mem_of_getElem? hf)
  | finish => rfl

/-- The module has what these sections tell of another, and nothing else. -/
structure Retold (seen : List Section) (m l : Module) : Prop where
  told : ∀ t ∈ seen, told t l = told t m
  untold : ∀ t, t ∉ seen → t ≠ .functionBodies → Module.told t l = Module.told t {}

theorem Retold.eq (h : Retold (done.filter m.written) m l) {t : Section} (ht : t ∈ done) :
    Module.told t l = Module.told t m := by
  cases hw : m.written t with
  | true => exact h.told t (mem_filter.mpr ⟨ht, hw⟩)
  | false =>
    by_cases hb : t = .functionBodies
    · subst hb
      have hnil : m.definedFunctions = [] := eq_nil_of_not_written hw
      have hnone : l.definedFunctions.map Function.typeIndex = [] :=
        h.untold .functionSignatures (fun hmem => absurd (mem_filter.mp hmem).2 (by simp [written, hnil])) nofun
      rw [Module.told, Module.told, hnil, map_eq_nil_iff.mp hnone]
    · rw [h.untold t (by simp [hw]) hb, told_of_not_written hw hb]

theorem length_pieces_le (m : Module) :
    (m.piece .importTable).length + (m.piece .functionSignatures).length +
      (m.piece .globals).length ≤ (encode m).length := by
  rw [encode_eq_pieces]
  simp only [Section.all, flatMap_cons, length_append]
  omega

theorem length_ofKind_le (kind : ExternKind) (imports : List Import) :
    (Import.ofKind kind imports).length ≤ imports.length := by
  rw [Import.ofKind]
  exact Nat.le_trans (length_filter_le _ _) (Nat.le_of_eq length_zipIdx)

/-- No index space is larger than the module is long. -/
theorem Built.spaceSize_le (h : Built source limit seen m) (hlen : (encode m).length < 2 ^ 32) :
    ∀ kind n, m.spaceSize kind = some n → n ≤ 2 ^ 32 := by
  have hall := length_pieces_le m
  have himports : m.imports.length ≤ (m.piece .importTable).length :=
    length_le_piece rfl rfl length_encodeImport_pos
  intro kind n hn
  cases kind with
  | func =>
    have hdefined : m.definedFunctions.length ≤ (m.piece .functionSignatures).length :=
      length_le_piece rfl rfl fun f => Leb128.length_encodeUnsigned_pos f.typeIndex
    have himported := length_ofKind_le .func m.imports
    rw [h.count_functions] at himported
    rw [definedFunctions, length_drop] at hdefined
    cases hn
    omega
  | table =>
    have := h.oneTable
    cases hn
    omega
  | memory =>
    cases hn
    split <;> omega
  | global =>
    have hdefined : (m.globals.drop m.importedGlobals).length ≤ (m.piece .globals).length :=
      length_le_piece rfl rfl length_encodeGlobal_pos
    have himported := length_ofKind_le .global m.imports
    rw [h.count_globals] at himported
    rw [length_drop] at hdefined
    cases hn
    omega
  | unknown b => cases hn

/-- What a section tells, when those before it have been read back. -/
theorem Built.accepts_contents (h : Built source limit seen m)
    (hb : ∀ f ∈ m.definedFunctions, f.Defined source) (hlen : (encode m).length < 2 ^ 32)
    (hw : m.written s = true) (hp : Built source' limit p.seen p.module) (ho : s.checkOrder p.seen = none)
    (hnew : p.module.Ready s) (htold : ∀ t ∈ s.before, told t p.module = told t m) :
    Accepts (readContents limit s p.module) (m.contents s) fun c => told s c = told s m := by
  obtain ⟨hs, -, hpre⟩ := Section.checkOrder_eq_none.mp ho
  have hcontents : (m.contents s).length < 2 ^ 32 := by
    apply Nat.lt_of_le_of_lt (length_contents_le hw)
    exact Nat.lt_of_le_of_lt (length_piece_le m s.mem_all) hlen
  have hspace := h.spaceSize_le hlen
  have hsignatures : m.signatures.length ≤ 2 ^ 32 := by
    have hle := length_le_piece (m := m) (s := .signatures) rfl rfl length_encodeSignature_pos
    have := length_piece_le m (s := .signatures) (by decide)
    omega
  cases s with
  | signatures => exact accepts_signatures h hcontents
  | importTable => exact accepts_imports h hp hsignatures hcontents hpre hnew htold
  | functionSignatures => exact accepts_functions h hsignatures hcontents hnew htold
  | table => exact accepts_tables h hp hcontents hnew htold
  | memory =>
    obtain ⟨t, ht⟩ := Option.isSome_iff_exists.mp hw
    have := accepts_memory h hp ht hs htold
    rwa [contents, ht]
  | globals => exact accepts_globals h hp hcontents hnew htold
  | exportTable => exact accepts_exports h hp hspace hcontents hnew htold
  | startFunction =>
    obtain ⟨n, hn⟩ := Option.isSome_iff_exists.mp hw
    have := accepts_start h hp (hspace .func _ rfl) hn htold
    rwa [contents, hn]
  | elements => exact accepts_elements h hp (hspace .func _ rfl) hcontents htold
  | functionBodies => exact accepts_bodies h hp hb hcontents htold
  | dataSegments => exact accepts_data h hp (by simpa [written] using hw) hcontents htold
  | names => exact accepts_names hcontents hnew htold
  | finish => cases hw

theorem Built.checkOrder_before (h : Built source limit seen m)
    (hw : m.written s = true) : s.checkOrder (s.before.filter m.written) = none := by
  apply Section.checkOrder_eq_none.mpr
  refine ⟨?_, ?_, ?_⟩
  · intro hmem
    have := mem_of_mem_filter hmem
    revert this
    cases s <;> decide
  · intro t ht
    cases s with
    | functionSignatures =>
      -- a function that the module defines has a signature
      obtain rfl := mem_singleton.mp ht
      refine mem_filter.mpr ⟨by decide, ?_⟩
      have hne : m.definedFunctions ≠ [] := by simpa [written] using hw
      obtain ⟨f, hf⟩ := exists_mem_of_ne_nil _ hne
      have hsig := h.heads f.head (mem_map_of_mem (mem_of_mem_drop hf))
      have hne : m.signatures ≠ [] := by
        intro hnil
        rw [hnil] at hsig
        cases hsig
      simpa [written] using hne
    | functionBodies =>
      obtain rfl := mem_singleton.mp ht
      exact mem_filter.mpr ⟨by decide, hw⟩
    | _ => cases ht
  · intro t ht hmem
    have hbefore := mem_of_mem_filter hmem
    cases s with
    | importTable =>
      have hlate : ∀ t ∈ Section.importTable.precedes, t ∉ Section.importTable.before := by decide
      exact hlate t ht hbefore
    | _ => cases ht

theorem decodeSections_encodeSection {P : Module → Prop} {rest : List UInt8} {o : Int} (hs : s ≠ .finish)
    (ho : s.checkOrder p.seen = none) (hlen : (encodeSection s.name bytes).length < 2 ^ 32)
    (hr : Accepts (readContents limit s p.module) bytes P)
    (hi : (⟨encodeSection s.name bytes ++ rest, o⟩ : Input).CutFrom source) :
    ∃ n o' i j, decodeSections limit p ⟨encodeSection s.name bytes ++ rest, o⟩ =
        decodeSections limit ⟨n, p.seen ++ [s]⟩ ⟨rest, o'⟩ ∧
      readContents limit s p.module i = .ok (n, j) ∧ i.CutFrom source ∧
      (⟨rest, o'⟩ : Input).CutFrom source ∧ P n := by
  obtain ⟨title, hsection, htitle⟩ := (framed_encodeSection hlen).accepts
  obtain ⟨⟨start, ⟨_, o'⟩⟩, hsec, rfl⟩ := hsection rest o
  obtain ⟨_, hname, rfl⟩ := htitle bytes o'
  obtain ⟨n, hread, hP⟩ := hr [] (o' + title.length)
  rw [append_nil] at hread
  obtain ⟨hbody, hrest⟩ := readSection_cut hsec hi
  exact ⟨n, _, _, _, (decodeSections_eq hsec hname).2.2 s n _ s.ofName?_name hs ho hread rfl, hread,
    (advances_name _).cut hname hbody, hrest, hP⟩

/-- The sections that are left are read back, from what those before them have told. -/
theorem Built.decodeSections_pieces (h : Built source limit seen m)
    (hb : ∀ f ∈ m.definedFunctions, f.Defined source) (hlen : (encode m).length < 2 ^ 32)
    {rest : List Section} (hall : Section.all = done ++ rest) (hp : Built source' limit p.seen p.module)
    (htold : Retold p.seen m p.module) (hseen : p.seen = done.filter m.written) {o : Int}
    (hi : (⟨rest.flatMap m.piece, o⟩ : Input).CutFrom source') :
    ∃ p' o', decodeSections limit p ⟨rest.flatMap m.piece, o⟩ = .ok (p', o') ∧
      p'.module.unplaced = m.unplaced ∧ p'.seen = Section.all.filter m.written := by
  induction rest generalizing done p o with
  | nil =>
    rw [append_nil] at hall
    refine ⟨p, o, by rw [decodeSections]; rfl, ?_, by rw [hseen, hall]⟩
    apply h.unplaced_of_told hp
    intro s
    rw [hseen] at htold
    exact htold.eq (hall ▸ s.mem_all)
  | cons s rest ih =>
    have hnext : Section.all = (done ++ [s]) ++ rest := by
      rw [hall, append_assoc]
      rfl
    obtain rfl := Section.eq_before hall
    rw [flatMap_cons] at hi ⊢
    cases hw : m.written s with
    | false =>
      have hnone : m.piece s = [] := by rw [piece, hw]; rfl
      rw [hnone, nil_append] at hi ⊢
      refine ih hnext hp htold ?_ hi
      rw [hseen, filter_append, filter_cons_of_neg (by simp [hw]), filter_nil, append_nil]
    | true =>
      have hpiece : m.piece s = encodeSection s.name (m.contents s) := by rw [piece, if_pos hw]
      have hne : s ≠ .finish := by
        rintro rfl
        cases hw
      have horder : s.checkOrder p.seen = none := by
        rw [hseen]
        exact h.checkOrder_before hw
      have hsize : (encodeSection s.name (m.contents s)).length < 2 ^ 32 := by
        rw [← hpiece]
        exact Nat.lt_of_le_of_lt (length_piece_le m s.mem_all) hlen
      have hready := hp.ready (Section.checkOrder_eq_none.mp horder).1 htold.untold
      have haccepts := h.accepts_contents hb hlen hw hp horder hready fun t ht => (hseen ▸ htold).eq ht
      rw [hpiece] at hi ⊢
      obtain ⟨n, o', i, j, heq, hread, hcut, hrest, hn⟩ :=
        decodeSections_encodeSection hne horder hsize haccepts hi
      obtain ⟨hbefore, hafter⟩ := hp.told_after horder hcut hread
      rw [heq]
      refine ih hnext (hp.read horder hcut hread) ⟨?_, ?_⟩ ?_ hrest
      · intro t ht
        rcases mem_append.mp ht with ht | ht
        · exact (hbefore t ht).trans (htold.told t ht)
        · rwa [mem_singleton.mp ht]
      · intro t ht hbodies
        exact (hafter t ht hbodies).trans (htold.untold t (fun hmem => ht (mem_append_left _ hmem)) hbodies)
      · rw [hseen, filter_append, filter_cons_of_pos hw, filter_nil]

theorem definedCount_congr (h : m'.unplaced = m.unplaced) : m'.definedCount = m.definedCount := by
  have hfunctions : m'.functions.map Function.unplaced = m.functions.map Function.unplaced :=
    (congrArg Module.functions h :)
  have hcount : m'.importedFunctions = m.importedFunctions := (congrArg Module.importedFunctions h :)
  rw [definedCount, definedCount, hcount, length_eq_of_map_eq hfunctions]

/-- A decoded module is decoded again from what it is encoded to. -/
theorem decode_encode_unplaced {maxPages : Nat} (h : decode source maxPages = .ok m)
    (hlen : (encode m).length < 2 ^ 32) :
    ∃ m', decode (encode m) maxPages = .ok m' ∧ m'.unplaced = m.unplaced := by
  obtain ⟨seen, hbuilt, hbodies⟩ := built_decode h
  have hstart : Section.all = [] ++ Section.all := rfl
  obtain ⟨p, o, hp, hm, hseen⟩ := hbuilt.decodeSections_pieces (p := {}) hbodies hlen hstart Built.empty
    ⟨nofun, fun _ _ _ => rfl⟩ rfl (cut_header _)
  rw [encode_eq_pieces]
  refine ⟨p.module, decode_header hp fun hnone => ?_, hm⟩
  have hw : m.written .functionBodies = false := by
    rw [hseen] at hnone
    simpa [Section.mem_all] using hnone
  rw [definedCount_congr hm, ← length_definedFunctions,
    show m.definedFunctions = [] from eq_nil_of_not_written hw]
  rfl

theorem definedFunctions_unplaced (m : Module) :
    m.unplaced.definedFunctions = m.definedFunctions.map Function.unplaced := map_drop.symm

theorem named_unplaced (m : Module) : m.unplaced.named = m.named.map Function.unplaced := by
  rw [named, definedFunctions_unplaced, ← map_reverse, dropWhile_map, ← map_reverse]
  rfl

theorem encodeAll_map {enc : α → List UInt8} {g : α → α} (h : ∀ x, enc (g x) = enc x)
    (xs : List α) : encodeAll enc (xs.map g) = encodeAll enc xs := by
  simp only [encodeAll, length_map, flatMap_map, h]

theorem contents_unplaced (m : Module) (s : Section) : m.unplaced.contents s = m.contents s := by
  cases s with
  | functionSignatures | functionBodies =>
    rw [contents, definedFunctions_unplaced]
    exact encodeAll_map (g := Function.unplaced) (fun _ => rfl) _
  | dataSegments => exact encodeAll_map (g := DataSegment.unplaced) (fun _ => rfl) _
  | names =>
    rw [contents, named_unplaced]
    exact encodeAll_map (g := Function.unplaced) (fun _ => rfl) _
  | _ => rfl

theorem written_unplaced (m : Module) (s : Section) : m.unplaced.written s = m.written s := by
  cases s with
  | functionSignatures | functionBodies => rw [written, definedFunctions_unplaced, isEmpty_map]; rfl
  | dataSegments => exact congrArg (!·) isEmpty_map
  | names => rw [written, named_unplaced, isEmpty_map]; rfl
  | _ => rfl

theorem encode_unplaced (m : Module) : encode m.unplaced = encode m := by
  have hpiece : m.unplaced.piece = m.piece := by
    funext s
    rw [piece, piece, written_unplaced, contents_unplaced]
  rw [encode_eq_pieces, encode_eq_pieces, hpiece]

theorem encode_congr (h : m'.unplaced = m.unplaced) : encode m' = encode m := by
  rw [← encode_unplaced m', h, encode_unplaced]

theorem resembles_of_unplaced (h : m'.unplaced = m.unplaced) (i : Nat) :
    (FunctionBody.ofModule m i).Resembles (FunctionBody.ofModule m' i) := by
  have hfunctions : m'.functions.map Function.unplaced = m.functions.map Function.unplaced :=
    (congrArg Module.functions h :)
  have hat : ∀ k : Nat, m'.functions[k]?.map Function.unplaced = m.functions[k]?.map Function.unplaced := by
    intro k
    rw [← getElem?_map, ← getElem?_map, hfunctions]
  have hf : (m'.functions[i]?.getD default).unplaced = (m.functions[i]?.getD default).unplaced := by
    have hgetD : ∀ x : Option Function, (x.getD default).unplaced =
        (x.map Function.unplaced).getD default := by
      intro x
      cases x <;> rfl
    rw [hgetD, hgetD, hat]
  have htypes : ∀ k, m'.functionType? k = m.functionType? k := by
    intro k
    have := congrArg (Option.map Function.type) (hat k)
    rw [Option.map_map, Option.map_map] at this
    exact this
  exact ⟨(congrArg Function.type hf :), (congrArg Function.locals hf :), (congrArg Function.body hf :),
    (congrArg Module.signatures h :), htypes, (congrArg Module.tables h :), (congrArg Module.memory h :),
    (congrArg Module.globals h :)⟩

theorem Built.onlyValues (h : Built source limit seen m) (i : Nat) :
    (FunctionBody.ofModule m i).OnlyValues := by
  have hsignatures : ∀ t ∈ m.signatures, t.isValue = true := fun t ht => (h.signatures t ht).1
  have hfunctions : ∀ f ∈ m.functions, f.type.isValue = true := by
    intro f hf
    have hsig := h.heads f.head (mem_map_of_mem hf)
    exact hsignatures _ (mem_of_getElem? hsig)
  have hglobals : ∀ g ∈ m.globals, g.type.valType.isValue = true := by
    intro g hg
    rw [← take_append_drop m.importedGlobals m.globals] at hg
    rcases mem_append.mp hg with hg | hg
    · exact (h.importedGlobals g hg).1
    · exact (h.definedGlobals g hg).1
  refine ⟨?_, hsignatures, hfunctions, hglobals⟩
  cases hf : m.functions[i]? with
  | none =>
    rw [FunctionBody.ofModule, hf]
    rfl
  | some f =>
    have := hfunctions f (mem_of_getElem? hf)
    simpa [FunctionBody.ofModule, hf] using this

theorem errorsUnder_eq_nil {validate : Validator} :
    m.errorsUnder validate = [] ↔ ∀ i ∈ m.definedIndices, validate m i = .ok () := by
  rw [errorsUnder, filterMap_eq_nil_iff]
  refine forall₂_congr fun i _ => ?_
  cases validate m i with
  | error e => exact iff_of_false nofun nofun
  | ok _ => exact iff_of_true rfl rfl

theorem validateFunction_eq_ok : m.validateFunction k = .ok () ↔ ∃ r, Body.check (.ofModule m k) {} = .ok r := by
  unfold validateFunction
  cases Body.check (.ofModule m k) {} with
  | error e => exact iff_of_false nofun nofun
  | ok r => exact iff_of_true rfl ⟨r, rfl⟩

/-- What passes the check in a decoded module does so wherever its parts stood in the source. -/
def Checks.PlaceFree (c : Checks) : Prop :=
  ∀ source source' maxPages m m', decode source maxPages = .ok m → decode source' maxPages = .ok m' →
    m'.unplaced = m.unplaced → ∀ i, c.validate m i = .ok () → c.validate m' i = .ok ()

/-- The usual check does not depend on places. -/
theorem Checks.placeFree {c : Checks} (hc : c.validate = validateFunction) : c.PlaceFree := by
  intro source source' maxPages m m' hd _ hm i hvalid
  rw [hc] at hvalid ⊢
  obtain ⟨seen, hb, -⟩ := built_decode hd
  obtain ⟨r, hr⟩ := validateFunction_eq_ok.mp hvalid
  exact validateFunction_eq_ok.mpr (Body.check_move (resembles_of_unplaced hm i) (hb.onlyValues i) hr)

/-- A module that differs in places only from one that is accepted is accepted. -/
theorem decodeUnder_of_unplaced {checks : Option Checks} (hchecks : ∀ c ∈ checks, c.PlaceFree)
    (h : decodeUnder source maxPages checks = .ok m) (hd' : decode source' maxPages = .ok m')
    (hm : m'.unplaced = m.unplaced) : decodeUnder source' maxPages checks = .ok m' := by
  obtain ⟨hd, hvalid⟩ := decodeUnder_eq_ok.mp h
  have hindices : m'.definedIndices = m.definedIndices := by
    have hcount : m'.importedFunctions = m.importedFunctions := (congrArg Module.importedFunctions hm :)
    rw [definedIndices, definedIndices, hcount, definedCount_congr hm]
  refine decodeUnder_eq_ok.mpr ⟨hd', fun c hc => errorsUnder_eq_nil.mpr fun i hi => ?_⟩
  rw [hindices] at hi
  exact hchecks c hc source source' maxPages m m' hd hd' hm i (errorsUnder_eq_nil.mp (hvalid c hc) i hi)

/-- What a decoded module is encoded to decodes to the same module, up to places in the source, and that
module is encoded to the same bytes. -/
theorem decodeUnder_encode {maxPages : Nat} {checks : Option Checks} (hchecks : ∀ c ∈ checks, c.PlaceFree)
    (h : decodeUnder source maxPages checks = .ok m) (hlen : (encode m).length < 2 ^ 32) :
    ∃ m', decodeUnder (encode m) maxPages checks = .ok m' ∧ m'.unplaced = m.unplaced ∧
      encode m' = encode m := by
  obtain ⟨m', hd', hm⟩ := decode_encode_unplaced (decodeUnder_eq_ok.mp h).1 hlen
  exact ⟨m', decodeUnder_of_unplaced hchecks h hd' hm, hm, encode_congr hm⟩

/-- The sections are put in order. -/
theorem decodeUnder_encode_scattered :
    ∃ m m', decodeUnder scattered 0 (some .all) = .ok m ∧ (encode m).length < 2 ^ 32 ∧
      encode m ≠ scattered ∧ decodeUnder (encode m) 0 (some .all) = .ok m' ∧
      m'.unplaced = m.unplaced ∧ encode m' = encode m := by
  have hok : (decodeUnder scattered 0 (some .all)).toOption.map
      (fun m => decide ((encode m).length < 2 ^ 32 ∧ encode m ≠ scattered)) = some true := by
    decide +kernel
  cases hm : decodeUnder scattered 0 (some .all) with
  | error e =>
    rw [hm] at hok
    cases hok
  | ok m =>
    rw [hm] at hok
    obtain ⟨hlen, hne⟩ := of_decide_eq_true (Option.some.inj hok)
    obtain ⟨m', hm'⟩ := decodeUnder_encode (fun _ hc => Checks.placeFree (by cases hc; rfl)) hm hlen
    exact ⟨m, m', rfl, hlen, hne, hm'⟩

end Module

end ProtoWasm
