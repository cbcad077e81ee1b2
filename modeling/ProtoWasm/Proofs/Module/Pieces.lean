import ProtoWasm.Proofs.Module.Acceptance

/-! # The sections of a module as they are written -/
namespace ProtoWasm.Module

open List

open Leb128 (encodeUnsigned length_encodeUnsigned_pos)

variable {α β : Type} {m : Module} {enc : α → List UInt8} {s : Section} {xs cs : List α} {what : String}

def named (m : Module) : List Function :=
  (m.definedFunctions.reverse.dropWhile (·.name == "")).reverse

def encodeAll (encodeElement : α → List UInt8) (xs : List α) : List UInt8 :=
  encodeUnsigned xs.length ++ xs.flatMap encodeElement

def contents (m : Module) : Section → List UInt8
  | .signatures => encodeAll encodeSignature m.signatures
  | .importTable => encodeAll encodeImport m.imports
  | .functionSignatures => encodeAll (encodeUnsigned ·.typeIndex) m.definedFunctions
  | .table => encodeAll (fun t => encodeLimits t.min t.max) (m.tables.drop m.importedTables)
  | .memory => (m.ownMemory.map encodeMemory).getD []
  | .globals => encodeAll encodeGlobal (m.globals.drop m.importedGlobals)
  | .exportTable => encodeAll encodeExport m.exports
  | .startFunction => (m.start.map encodeUnsigned).getD []
  | .elements => encodeAll encodeElement m.elements
  | .functionBodies => encodeAll encodeBody m.definedFunctions
  | .dataSegments => encodeAll encodeData m.data
  | .names => encodeAll (fun f => encodeName f.name ++ [0]) m.named
  | .finish => []

def written (m : Module) : Section → Bool
  | .signatures => !m.signatures.isEmpty
  | .importTable => !m.imports.isEmpty
  | .functionSignatures | .functionBodies => !m.definedFunctions.isEmpty
  | .table => !(m.tables.drop m.importedTables).isEmpty
  | .memory => m.ownMemory.isSome
  | .globals => !(m.globals.drop m.importedGlobals).isEmpty
  | .exportTable => !m.exports.isEmpty
  | .startFunction => m.start.isSome
  | .elements => !m.elements.isEmpty
  | .dataSegments => !m.data.isEmpty
  | .names => !m.named.isEmpty
  | .finish => false

def piece (m : Module) (s : Section) : List UInt8 :=
  if m.written s then encodeSection s.name (m.contents s) else []

theorem encodeVector_eq (s : Section) (enc : α → List UInt8) (xs : List α) :
    encodeVector s enc xs = if !xs.isEmpty then encodeSection s.name (encodeAll enc xs) else [] := by
  cases xs <;> rfl

theorem encodeOption_eq (s : Section) (enc : α → List UInt8) (x : Option α) :
    encodeOption s enc x = if x.isSome then encodeSection s.name ((x.map enc).getD []) else [] := by
  cases x <;> rfl

theorem encodeNames_eq (m : Module) : encodeNames m.definedFunctions = m.piece .names := by
  unfold encodeNames piece
  change (if m.named.isEmpty then _ else _) = if (!m.named.isEmpty) = true then _ else _
  cases m.named.isEmpty <;> rfl

theorem encode_eq_pieces (m : Module) : encode m = header ++ Section.all.flatMap m.piece := by
  have hfinish : m.piece .finish = [] := rfl
  simp only [encode, encodeVector_eq, encodeOption_eq, encodeNames_eq, Section.all, flatMap_cons,
    flatMap_nil, hfinish, append_nil, append_assoc]
  rfl

theorem length_encodeSignature_pos (t : FuncType) : 0 < (encodeSignature t).length := by
  have := length_encodeUnsigned_pos t.params.length
  simp only [encodeSignature, length_append]
  omega

theorem length_encodeLimits_pos (min max : Nat) : 0 < (encodeLimits min max).length := by
  have := length_encodeUnsigned_pos min
  simp only [encodeLimits, length_append]
  omega

theorem length_encodeImport_pos (i : Import) : 0 < (encodeImport i).length := by
  simp only [encodeImport, length_append, length_cons]
  omega

theorem length_encodeGlobal_pos (g : Global) : 0 < (encodeGlobal g).length := by
  simp only [encodeGlobal, encodeGlobalType, length_append, length_cons]
  omega

theorem length_encodeExport_pos (e : Export) : 0 < (encodeExport e).length := by
  simp only [encodeExport, cons_append, length_cons]
  omega

theorem length_encodeElement_pos (e : ElementSegment) : 0 < (encodeElement e).length := by
  have := length_encodeUnsigned_pos e.table
  simp only [encodeElement, length_append]
  omega

theorem length_encodeBody_pos (f : Function) : 0 < (encodeBody f).length := by
  have := length_encodeUnsigned_pos (encodeLocals f.locals ++ f.body).length
  rw [encodeBody, length_append]
  omega

theorem length_encodeData_pos (d : DataSegment) : 0 < (encodeData d).length := by
  have := length_encodeUnsigned_pos d.init.length
  simp only [encodeData, length_append]
  omega

theorem length_le_encodeAll (hpos : ∀ x, 0 < (enc x).length) (xs : List α) :
    xs.length ≤ (encodeAll enc xs).length := by
  have := length_le_flatMap fun x (_ : x ∈ xs) => hpos x
  rw [encodeAll, length_append]
  omega

theorem length_le_of_mem_encodeAll {x : α} (hx : x ∈ xs) :
    (enc x).length ≤ (encodeAll enc xs).length := by
  have := length_le_of_mem_flatMap enc hx
  rw [encodeAll, length_append]
  omega

theorem length_contents_le (hw : m.written s = true) :
    (m.contents s).length ≤ (m.piece s).length := by
  rw [piece, if_pos hw, encodeSection]
  simp only [length_append]
  omega

theorem length_piece_le (m : Module) (hs : s ∈ Section.all) :
    (m.piece s).length ≤ (encode m).length := by
  rw [encode_eq_pieces, length_append]
  have := length_le_of_mem_flatMap m.piece hs
  omega

theorem length_le_piece (hw : m.written s = !xs.isEmpty) (hc : m.contents s = encodeAll enc xs)
    (hpos : ∀ x, 0 < (enc x).length) : xs.length ≤ (m.piece s).length := by
  cases xs with
  | nil => exact Nat.zero_le _
  | cons x xs =>
    have := length_contents_le hw
    rw [hc] at this
    exact Nat.le_trans (length_le_encodeAll hpos _) this

theorem accepts_countAll {P : β → Prop} {f : Nat → Reader β}
    (hlen : (encodeAll enc cs).length < 2 ^ 32) (hpos : ∀ c, 0 < (enc c).length)
    (hf : Reader.Accepts (f cs.length) (cs.flatMap enc) P) :
    Reader.Accepts (readCount what >>= f) (encodeAll enc cs) P := by
  refine accepts_count (Nat.lt_of_le_of_lt (length_le_encodeAll hpos cs) hlen) ?_ hf
  exact length_le_flatMap fun c _ => hpos c

theorem accepts_encodeAll {γ : Type} {P : β → Prop} {r : Nat → Reader γ} {f : List γ → β} {R : α → γ → Prop}
    (hlen : (encodeAll enc cs).length < 2 ^ 32) (hpos : ∀ c, 0 < (enc c).length)
    (hr : ∀ k, ∀ c ∈ cs, (enc c).length < 2 ^ 32 → Reader.Accepts (r k) (enc c) (R c))
    (hf : ∀ as, List.Forall₂ R cs as → P (f as)) :
    Reader.Accepts (readCount what >>= fun n => Reader.times n r >>= fun as => pure (f as))
      (encodeAll enc cs) P := by
  apply accepts_countAll hlen hpos
  refine (Reader.accepts_times ?_).map hf
  intro k c hc
  exact hr k c hc (Nat.lt_of_le_of_lt (length_le_of_mem_encodeAll hc) hlen)

end ProtoWasm.Module
