import ProtoWasm.Proofs.Module.Parallel
import ProtoWasm.Proofs.Module.RoundTrip

/-! # The arrangement of sections

A decoded module does not depend on the order of its sections, on sections with unknown names between
them, or on what follows the section that ends it. Only the places in the source do.
-/
namespace ProtoWasm.Module

open List Reader

variable {source source' bytes payload ys : List UInt8} {limit maxPages : Nat} {seen : List Section}
  {m m' : Module} {name : String} {i w rest left i' : Input} {start : Int} {s : Section}
  {xs : List (Section × List UInt8)}

/-- The sections up to the one that ends a module, each with its name and the bytes after it. -/
def sections (i : Input) : List (String × List UInt8) :=
  match _h : readSection i with
  | .error _ => []
  | .ok ((_, body), rest) =>
    match Reader.name "section name" body with
    | .error _ => []
    | .ok (name, payload) =>
      if name = Section.finish.name then [] else (name, payload.bytes) :: sections rest
termination_by i.remaining
decreasing_by exact remaining_readSection_lt _h

def recognize (xs : List (String × List UInt8)) : List (Section × List UInt8) :=
  xs.filterMap fun x => (Section.ofName? x.1).map fun s => (s, x.2)

/-- The known sections of a source, which follow the magic number and the version. -/
def knownSections (source : List UInt8) : List (Section × List UInt8) :=
  recognize (sections ⟨source.drop 8, 8⟩)

inductive Framing : List UInt8 → Prop where
  | nil : Framing []
  | cons {bytes rest : List UInt8} {name : String} {payload : List UInt8} (first : Framed bytes name payload)
      (others : Framing rest) : Framing (bytes ++ rest)

theorem ofName?_eq_finish (h : Section.ofName? name = some .finish) :
    name = Section.finish.name := by
  have := find?_some h
  exact (eq_of_beq this).symm

theorem sections_eq_nil (h : i.remaining = 0) : sections i = [] := by
  rw [sections]
  split
  · rfl
  · rename_i hsec
    have := remaining_readSection_lt hsec
    omega

theorem sections_eq (hsec : readSection i = .ok ((start, w), rest))
    (hname : Reader.name "section name" w = .ok (name, left)) :
    sections i = if name = Section.finish.name then [] else (name, left.bytes) :: sections rest := by
  rw [sections]
  split
  · rename_i he
    rw [hsec] at he
    cases he
  · rename_i start' w' rest' he
    rw [hsec] at he
    cases he
    simp only [hname]

/-- What the bytes of a section tell of any module in which it was not read before. -/
def Tells (limit : Nat) (s : Section) (payload : List UInt8) (c : s.Contents) : Prop :=
  ∃ (m n : Module) (i j : Input), m.Ready s ∧ i.bytes = payload ∧
    readContents limit s m i = .ok (n, j) ∧ told s n = c

/-- What a section tells does not depend on what was read before it. -/
theorem Tells.unique {c d : s.Contents}
    (hc : Tells limit s payload c) (hd : Tells limit s payload d) : c = d := by
  obtain ⟨m, n, i, j, hm, hi, hr, rfl⟩ := hc
  obtain ⟨m', n', i', j', hm', hi', hr', rfl⟩ := hd
  have hpar := parallel_readContents (False.elim : False → m.unplaced = m'.unplaced) limit s
  obtain ⟨-, -, htold⟩ := (hpar i i' n j (hi.trans hi'.symm) hr).2 n' j' hr'
  exact htold hm hm'

/-- The module has what these sections tell and nothing else. -/
structure ReadFrom (limit : Nat) (xs : List (Section × List UInt8)) (m : Module) : Prop where
  tells : ∀ x ∈ xs, Tells limit x.1 x.2 (told x.1 m)
  untold : ∀ s, s ∉ xs.map Prod.fst → s ≠ .functionBodies → told s m = told s {}

theorem ReadFrom.snoc {j : Input} {n : Module}
    (hm : ReadFrom limit xs m) (h : Built source limit (xs.map Prod.fst) m)
    (ho : s.checkOrder (xs.map Prod.fst) = none) (hi : i.CutFrom source)
    (hr : readContents limit s m i = .ok (n, j)) : ReadFrom limit (xs ++ [(s, i.bytes)]) n := by
  obtain ⟨hbefore, hafter⟩ := h.told_after ho hi hr
  constructor
  · intro x hx
    rcases mem_append.mp hx with hx | hx
    · rw [hbefore x.1 (mem_map_of_mem hx)]
      exact hm.tells x hx
    · obtain rfl := mem_singleton.mp hx
      exact ⟨m, n, i, j, h.ready (Section.checkOrder_eq_none.mp ho).1 hm.untold, rfl, hr, rfl⟩
  · intro t ht hbodies
    rw [map_append] at ht
    rw [hafter t ht hbodies]
    exact hm.untold t (fun hmem => ht (mem_append_left _ hmem)) hbodies

theorem readFrom_decodeSections {p p' : Partial} {o : Int}
    (h : decodeSections limit p i = .ok (p', o)) (hi : i.CutFrom source)
    (hp : Built source limit p.seen p.module) (hseen : p.seen = xs.map Prod.fst)
    (hxs : ReadFrom limit xs p.module) : p'.seen = (xs ++ recognize (sections i)).map Prod.fst ∧
      ReadFrom limit (xs ++ recognize (sections i)) p'.module := by
  fun_induction decodeSections limit p i generalizing xs with
  | case1 p i hend =>
    cases h
    rw [sections_eq_nil hend, recognize, filterMap_nil, append_nil]
    exact ⟨hseen, hxs⟩
  | case2 | case3 | case6 | case7 | case9 => cases h
  | case4 p i _ start body rest hsec name left hname hnone ih =>
    have hne : name ≠ Section.finish.name := by
      rintro rfl
      cases hnone
    have hskip : recognize (sections i) = recognize (sections rest) := by
      rw [sections_eq hsec hname, if_neg hne, recognize, filterMap_cons_none (by rw [hnone]; rfl)]
      rfl
    rw [hskip]
    exact ih h (readSection_cut hsec hi).2 hp hseen hxs
  | case5 p i _ start body rest hsec name left hname hfinish =>
    cases h
    rw [sections_eq hsec hname, if_pos (ofName?_eq_finish hfinish), recognize, filterMap_nil,
      append_nil]
    exact ⟨hseen, hxs⟩
  | case8 p i _ start body rest hsec name left hname s hs hknown hord m end' hread _ ih =>
    obtain ⟨hbody, hrest⟩ := readSection_cut hsec hi
    have hleft := (advances_name _).cut hname hbody
    have hne : name ≠ Section.finish.name := by
      rintro rfl
      exact hs (Option.some.inj hknown.symm)
    have hnext : recognize (sections i) = (s, left.bytes) :: recognize (sections rest) := by
      rw [sections_eq hsec hname, if_neg hne, recognize, filterMap_cons_some (by rw [hknown]; rfl)]
      rfl
    have hstep : ReadFrom limit (xs ++ [(s, left.bytes)]) m := by
      rw [hseen] at hp hord
      exact hxs.snoc hp hord hleft hread
    have hall := ih h hrest (hp.read hord hleft hread) (by rw [hseen, map_append]; rfl) hstep
    rwa [hnext, append_cons]

/-- The sections that a decoded module was read from. -/
theorem readFrom_decode (h : decode source maxPages = .ok m) :
    ReadFrom (effectiveLimit maxPages) (knownSections source) m ∧
      (.functionBodies ∉ (knownSections source).map Prod.fst → m.definedFunctions = []) := by
  obtain ⟨hh, p, stop, hrun, hcount, rfl⟩ := decode_eq_ok.mp h
  have hstart : ReadFrom (effectiveLimit maxPages) [] ({} : Module) := ⟨nofun, fun _ _ _ => rfl⟩
  obtain ⟨hseen, hread⟩ := readFrom_decodeSections hrun hh.cut Built.empty rfl hstart
  refine ⟨hread, ?_⟩
  intro hbodies
  apply eq_nil_of_length_eq_zero
  rw [length_definedFunctions]
  apply hcount
  rwa [hseen]

/-- Sources with the same known sections, in whatever orders, decode to the same module. -/
theorem unplaced_of_perm (h : decode source maxPages = .ok m)
    (h' : decode source' maxPages = .ok m') (hperm : (knownSections source).Perm (knownSections source')) :
    m'.unplaced = m.unplaced := by
  obtain ⟨seen, hbuilt, -⟩ := built_decode h
  obtain ⟨seen', hbuilt', -⟩ := built_decode h'
  obtain ⟨hread, hbodies⟩ := readFrom_decode h
  obtain ⟨hread', hbodies'⟩ := readFrom_decode h'
  apply hbuilt.unplaced_of_told hbuilt'
  intro s
  by_cases hs : s ∈ (knownSections source).map Prod.fst
  · obtain ⟨⟨s, payload⟩, hmem, rfl⟩ := mem_map.mp hs
    exact (hread'.tells _ (hperm.subset hmem)).unique (hread.tells _ hmem)
  · have hs' : s ∉ (knownSections source').map Prod.fst := fun hmem => hs ((hperm.map _).symm.subset hmem)
    by_cases hb : s = .functionBodies
    · subst hb
      rw [told, told, hbodies hs, hbodies' hs']
    · rw [hread'.untold s hs' hb, hread.untold s hs hb]

def Partial.Alike (p p' : Partial) : Prop :=
  p.module.unplaced = p'.module.unplaced ∧ p.seen = p'.seen

/-- Where the sections of the first input are read, those of the second are read to the same effect. -/
def Follows (limit : Nat) (i i' : Input) : Prop :=
  ∀ p p' q stop, Partial.Alike p p' → decodeSections limit p i = .ok (q, stop) →
    ∃ q' stop', decodeSections limit p' i' = .ok (q', stop') ∧ q.Alike q'

/-- One section is read twice, and what follows it is read to the same effect. -/
theorem Follows.section {w' rest' : Input} {start' : Int}
    (hsec : readSection i = .ok ((start, w), rest)) (hsec' : readSection i' = .ok ((start', w'), rest'))
    (hw : w.bytes = w'.bytes) (hrest : Follows limit rest rest') : Follows limit i i' := by
  intro p p' q stop hp h
  have hnames : ∀ {name left}, Reader.name "section name" w = .ok (name, left) →
      ∃ left', Reader.name "section name" w' = .ok (name, left') ∧ left.bytes = left'.bytes := by
    intro name left hname
    obtain ⟨hs, hv⟩ := parallel_name "section name" w w' name left hw hname
    obtain ⟨name', left', hname'⟩ := hs trivial
    obtain ⟨hleft, rfl⟩ := hv name' left' hname'
    exact ⟨left', hname', hleft⟩
  revert h
  fun_cases decodeSections limit p i with
  | case1 hend =>
    have := remaining_readSection_lt hsec
    omega
  | case2 | case3 | case6 | case7 | case9 =>
    intro h
    cases h
  | case4 _ start₁ w₁ rest₁ hsec₁ name left hname hnone =>
    intro h
    rw [hsec] at hsec₁
    cases hsec₁
    obtain ⟨left', hname', -⟩ := hnames hname
    rw [(decodeSections_eq hsec' hname').1 hnone]
    exact hrest p p' q stop hp h
  | case5 _ start₁ w₁ rest₁ hsec₁ name left hname hfinish =>
    intro h
    rw [hsec] at hsec₁
    cases hsec₁
    cases h
    obtain ⟨left', hname', -⟩ := hnames hname
    rw [(decodeSections_eq hsec' hname').2.1 hfinish]
    exact ⟨p', _, rfl, hp⟩
  | case8 _ start₁ w₁ rest₁ hsec₁ name left hname s hs hknown hord n j hread hj =>
    intro h
    rw [hsec] at hsec₁
    cases hsec₁
    obtain ⟨left', hname', hleft⟩ := hnames hname
    obtain ⟨hmod, hseen⟩ := hp
    obtain ⟨hok, hv⟩ := parallel_readContents (fun _ : True => hmod) limit s left left' n j hleft hread
    obtain ⟨n', j', hread'⟩ := hok trivial
    obtain ⟨hbytes, hn, -⟩ := hv n' j' hread'
    have hj' : j'.remaining = 0 := by rwa [Input.remaining, ← hbytes]
    rw [hseen] at hord
    rw [(decodeSections_eq hsec' hname').2.2 s n' j' hknown hs hord hread' hj']
    refine hrest _ _ q stop ⟨hn trivial, ?_⟩ h
    rw [hseen]

theorem parallel_readSection {same : Prop} :
    Parallel same readSection readSection fun x x' => x.2.bytes = x'.2.bytes := by
  refine parallel_offset.bind fun o o' _ => (parallel_u32 _).then fun size => ?_
  exact (parallel_window size _).map fun _ _ h => h

theorem follows_of_bytes (h : i.bytes = i'.bytes) : Follows limit i i' := by
  induction hn : i.remaining using Nat.strongRecOn generalizing i i' with
  | ind n ih =>
    cases hsec : readSection i with
    | error e =>
      intro p p' q stop hp hrun
      by_cases hend : i.remaining = 0
      · rw [decodeSections, if_pos hend] at hrun
        cases hrun
        have hend' : i'.remaining = 0 := by rwa [Input.remaining, ← h]
        exact ⟨p', i'.offset, by rw [decodeSections, if_pos hend'], hp⟩
      · rw [decodeSections, if_neg hend] at hrun
        split at hrun
        · cases hrun
        · rename_i hok
          rw [hsec] at hok
          cases hok
    | ok x =>
      obtain ⟨⟨start, w⟩, rest⟩ := x
      obtain ⟨hok, hv⟩ := parallel_readSection i i' _ _ h hsec
      obtain ⟨⟨start', w'⟩, rest', hsec'⟩ := hok trivial
      obtain ⟨hrest, hw⟩ := hv _ _ hsec'
      exact Follows.section hsec hsec' hw (ih _ (hn ▸ remaining_readSection_lt hsec) hrest rfl)

theorem Framing.follows {xs : List UInt8} (h : Framing bytes)
    (hxs : ∀ o o', Follows limit ⟨xs, o⟩ ⟨ys, o'⟩) (o o' : Int) :
    Follows limit ⟨bytes ++ xs, o⟩ ⟨bytes ++ ys, o'⟩ := by
  induction h generalizing o o' with
  | nil => exact hxs o o'
  | @cons bytes rest name payload first others ih =>
    obtain ⟨title, hsection, -⟩ := first.accepts
    obtain ⟨⟨start, w⟩, hsec, hw⟩ := hsection (rest ++ xs) o
    obtain ⟨⟨start', w'⟩, hsec', hw'⟩ := hsection (rest ++ ys) o'
    rw [append_assoc, append_assoc]
    exact Follows.section hsec hsec' (hw.trans hw'.symm) (ih _ _)

theorem Framed.follows_of_unknown (h : Framed bytes name payload) (hname : Section.ofName? name = none)
    (hi : ∀ o, Follows limit i ⟨ys, o⟩) (o : Int) : Follows limit i ⟨bytes ++ ys, o⟩ := by
  obtain ⟨title, hsection, htitle⟩ := h.accepts
  obtain ⟨⟨start, ⟨_, o'⟩⟩, hsec, rfl⟩ := hsection ys o
  obtain ⟨_, hread, rfl⟩ := htitle payload o'
  intro p p' q stop hp hrun
  rw [(decodeSections_eq hsec hread).1 hname]
  exact hi _ p p' q stop hp hrun

theorem Framed.follows_of_finish (h : Framed bytes Section.finish.name payload)
    (xs ys : List UInt8) (o o' : Int) : Follows limit ⟨bytes ++ xs, o⟩ ⟨bytes ++ ys, o'⟩ := by
  obtain ⟨title, hsection, htitle⟩ := h.accepts
  have hstop : ∀ p zs o, ∃ stop, decodeSections limit p ⟨bytes ++ zs, o⟩ = .ok (p, stop) := by
    intro p zs o
    obtain ⟨⟨start, ⟨_, o'⟩⟩, hsec, rfl⟩ := hsection zs o
    obtain ⟨_, hread, rfl⟩ := htitle payload o'
    exact ⟨_, (decodeSections_eq hsec hread).2.1 rfl⟩
  intro p p' q stop hp hrun
  obtain ⟨stop₁, hrun₁⟩ := hstop p xs o
  obtain ⟨stop₂, hrun₂⟩ := hstop p' ys o'
  rw [hrun₁] at hrun
  cases hrun
  exact ⟨p', stop₂, hrun₂, hp⟩

/-- Other bytes after the header, which are read to the same effect. -/
theorem decodeUnder_of_follows {checks : Option Checks} (hchecks : ∀ c ∈ checks, c.PlaceFree)
    {head xs : List UInt8} (hhead : head.length = 8) (hxs : ∀ o o', Follows (effectiveLimit maxPages) ⟨xs, o⟩ ⟨ys, o'⟩)
    (h : decodeUnder (head ++ xs) maxPages checks = .ok m) :
    ∃ m', decodeUnder (head ++ ys) maxPages checks = .ok m' ∧ m'.unplaced = m.unplaced := by
  suffices hdecode : ∃ m', decode (head ++ ys) maxPages = .ok m' ∧ m'.unplaced = m.unplaced by
    obtain ⟨m', hd', hm⟩ := hdecode
    exact ⟨m', decodeUnder_of_unplaced hchecks h hd' hm, hm⟩
  obtain ⟨hh, p, stop, hrun, hcount, rfl⟩ := decode_eq_ok.mp (decodeUnder_eq_ok.mp h).1
  rw [headed_append hhead, ← headed_append hhead ys] at hh
  rw [drop_left' hhead] at hrun
  obtain ⟨p', stop', hrun', hmod, hseen⟩ := hxs 8 8 {} {} p stop ⟨rfl, rfl⟩ hrun
  refine ⟨p'.module, decode_eq_ok.mpr ⟨hh, p', stop', ?_, ?_, rfl⟩, hmod.symm⟩
  · rw [drop_left' hhead]
    exact hrun'
  · rw [← hseen, definedCount_congr hmod.symm]
    exact hcount

/-- Sources that have the same known sections in any two orders decode to the same module, up to places in
the source. A section with an unknown name between two others changes nothing, and neither do the bytes
after the section that ends the module. -/
theorem decodeUnder_arrangement (maxPages : Nat) (checks : Option Checks) :
    (∀ source source' m m', decodeUnder source maxPages checks = .ok m →
      decodeUnder source' maxPages checks = .ok m' → (knownSections source).Perm (knownSections source') →
      m'.unplaced = m.unplaced) ∧ ((∀ c ∈ checks, c.PlaceFree) →
      (∀ head before after extra name payload m, head.length = 8 → Framing before →
        Framed extra name payload → Section.ofName? name = none →
        decodeUnder (head ++ (before ++ after)) maxPages checks = .ok m →
        ∃ m', decodeUnder (head ++ (before ++ (extra ++ after))) maxPages checks = .ok m' ∧
          m'.unplaced = m.unplaced) ∧
      ∀ head before final payload after after' m, head.length = 8 → Framing before →
        Framed final Section.finish.name payload →
        decodeUnder (head ++ (before ++ (final ++ after))) maxPages checks = .ok m →
        ∃ m', decodeUnder (head ++ (before ++ (final ++ after'))) maxPages checks = .ok m' ∧
          m'.unplaced = m.unplaced) := by
  refine ⟨?_, fun hchecks => ⟨?_, ?_⟩⟩
  · intro source source' m m' h h' hperm
    exact unplaced_of_perm (decodeUnder_eq_ok.mp h).1 (decodeUnder_eq_ok.mp h').1 hperm
  · intro head before after extra name payload m hhead hbefore hextra hname h
    refine decodeUnder_of_follows hchecks hhead ?_ h
    apply hbefore.follows
    intro o o'
    exact hextra.follows_of_unknown hname (fun o' => follows_of_bytes rfl) o'
  · intro head before final payload after after' m hhead hbefore hfinal h
    refine decodeUnder_of_follows hchecks hhead ?_ h
    apply hbefore.follows
    exact hfinal.follows_of_finish after after'

/-- A memory and a table in both orders, with a note between them, and with bytes after the end. -/
theorem decodeUnder_arrangement_table_memory :
    let head := magic ++ LittleEndian.encode 4 version
    let table := encodeSection "table" ([1] ++ encodeLimits 1 2)
    let memory := encodeSection "memory" (encodeMemory ⟨1, 2, true, false⟩)
    let note := encodeSection "notes" [1, 2, 3]
    let final := encodeSection "end" []
    ∃ m m₁ m₂ m₃, decodeUnder (head ++ (table ++ (memory ++ (final ++ [])))) 0 (some .all) = .ok m ∧
      m.tables = [{ min := 1, max := 2 }] ∧
      decodeUnder (head ++ (memory ++ (table ++ (final ++ [])))) 0 (some .all) = .ok m₁ ∧
      decodeUnder (head ++ (table ++ (note ++ (memory ++ (final ++ []))))) 0 (some .all) = .ok m₂ ∧
      decodeUnder (head ++ ((table ++ memory) ++ (final ++ [9]))) 0 (some .all) = .ok m₃ ∧
      m₁.unplaced = m.unplaced ∧ m₂.unplaced = m.unplaced ∧ m₃.unplaced = m.unplaced := by
  intro head table memory note final
  obtain ⟨hperm, hothers⟩ := decodeUnder_arrangement 0 (some .all)
  obtain ⟨hskip, hend⟩ := hothers fun _ hc => Checks.placeFree (by cases hc; rfl)
  have hok : (decodeUnder (head ++ (table ++ (memory ++ (final ++ [])))) 0 (some .all)).toOption.map
      Module.tables = some [{ min := 1, max := 2 }] := by
    decide +kernel
  have hok₁ : (decodeUnder (head ++ (memory ++ (table ++ (final ++ [])))) 0 (some .all)).isOk = true := by
    decide +kernel
  have hsame : (knownSections (head ++ (table ++ (memory ++ (final ++ []))))).Perm
      (knownSections (head ++ (memory ++ (table ++ (final ++ []))))) := by
    decide +kernel
  have htable : Framed table "table" ([1] ++ encodeLimits 1 2) := framed_encodeSection (by decide +kernel)
  have hmemory : Framed memory "memory" (encodeMemory ⟨1, 2, true, false⟩) :=
    framed_encodeSection (by decide +kernel)
  have hnote : Framed note "notes" [1, 2, 3] := framed_encodeSection (by decide +kernel)
  have hfinal : Framed final "end" [] := framed_encodeSection (by decide +kernel)
  cases hm : decodeUnder (head ++ (table ++ (memory ++ (final ++ [])))) 0 (some .all) with
  | error e =>
    rw [hm] at hok
    cases hok
  | ok m =>
    cases hm₁ : decodeUnder (head ++ (memory ++ (table ++ (final ++ [])))) 0 (some .all) with
    | error e =>
      rw [hm₁] at hok₁
      cases hok₁
    | ok m₁ =>
      rw [hm] at hok
      have hbefore : Framing (table ++ []) := .cons htable .nil
      have hboth : Framing (table ++ (memory ++ [])) := .cons htable (.cons hmemory .nil)
      rw [append_nil] at hbefore hboth
      obtain ⟨m₂, hm₂, heq₂⟩ := hskip head table _ note "notes" _ m (by decide) hbefore hnote rfl hm
      obtain ⟨m₃, hm₃, heq₃⟩ := hend head _ final [] [] [9] m (by decide) hboth hfinal
        (by rwa [append_assoc table])
      exact ⟨m, m₁, m₂, m₃, rfl, Option.some.inj hok, rfl, hm₂, hm₃, hperm _ _ _ _ hm hm₁ hsame, heq₂, heq₃⟩

end ProtoWasm.Module
