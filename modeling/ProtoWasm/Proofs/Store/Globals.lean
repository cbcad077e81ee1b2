import ProtoWasm.Proofs.Store.Calls

/-! # Globals as views of their storage -/
namespace ProtoWasm

open List

theorem ValType.size_pos {t : ValType} (h : t.isValue = true) : 0 < t.size := by
  cases t with
  | i32 | i64 | f32 | f64 => decide
  | void | unreachable | unknown b => cases h

/-- What is left of a value in as many bytes as the type takes. -/
def ValType.cut (t : ValType) (v : UInt64) : UInt64 := .ofNat (v.toNat % 256 ^ t.size)

namespace GlobalInstance

variable {g g' : GlobalInstance} {bytes bytes' : List UInt8} {v : UInt64}

def Apart (g g' : GlobalInstance) : Prop := g.storage = g'.storage →
  g.offset + g.type.valType.size ≤ g'.offset ∨ g'.offset + g'.type.valType.size ≤ g.offset

section

variable (hw : g.write bytes v = .ok bytes') (hlen : g.offset + g.type.valType.size ≤ bytes.length)
include hw hlen

theorem read_write : g.read bytes' = .ok (g.type.valType.cut v) := by
  have hnew := LittleEndian.length_encode g.type.valType.size v.toNat
  unfold write at hw
  split at hw
  · cases hw
  · rename_i hsize
    cases hw
    rw [read, if_neg hsize, append_assoc, drop_left' (length_take_of_le (by omega)), take_left' hnew,
      LittleEndian.decode_encode]
    rfl

theorem read_write_apart (h : g.offset + g.type.valType.size ≤ g'.offset ∨
    g'.offset + g'.type.valType.size ≤ g.offset) : g'.read bytes' = g'.read bytes := by
  have hnew := LittleEndian.length_encode g.type.valType.size v.toNat
  unfold write at hw
  split at hw
  · cases hw
  · cases hw
    have hsame : ((bytes.take g.offset ++ LittleEndian.encode g.type.valType.size v.toNat ++
        bytes.drop (g.offset + g.type.valType.size)).drop g'.offset).take g'.type.valType.size =
        (bytes.drop g'.offset).take g'.type.valType.size := by
      apply ext_getElem?
      intro k
      simp only [getElem?_take, getElem?_drop, getElem?_append, length_append, length_take, hnew]
      grind
    rw [read, read, hsame]

end

end GlobalInstance

namespace Store

open StoreM

variable {s s' : Store} {id : GlobalId} {g : GlobalInstance} {bytes bytes' : List UInt8} {v : UInt64}

theorem globalValue_eq_ok (hg : s.globals[id]? = some g) (hbytes : s.storages[g.storage]? = some bytes) :
    globalValue id s = .ok (v, s) ↔ g.read bytes = .ok v := by
  change (expect .unset s.globals[id]? >>= fun g => get >>= fun s => expect .unset s.storages[g.storage]? >>=
    fun bytes => checked (g.read bytes)) s = _ ↔ _
  rw [hg]
  change (expect .unset s.storages[g.storage]? >>= fun bytes => checked (g.read bytes)) s = _ ↔ _
  rw [hbytes]
  change checked (g.read bytes) s = _ ↔ _
  cases g.read bytes with
  | error d => exact ⟨nofun, nofun⟩
  | ok w =>
    constructor
    · rintro ⟨⟩
      rfl
    · rintro ⟨⟩
      rfl

theorem Extends.globalValue (h : s.Extends s') (hs : s.Sound) (hid : id < s.globals.size) :
    ∃ v, globalValue id s = .ok (v, s) ∧ globalValue id s' = .ok (v, s') := by
  have hg := Array.getElem?_eq_getElem hid
  obtain ⟨hvalue, bytes, hbytes, -⟩ := hs.views id _ hg
  have hread : GlobalInstance.read _ bytes = .ok _ := if_neg (Nat.ne_of_gt (ValType.size_pos hvalue))
  exact ⟨_, (globalValue_eq_ok hg hbytes).mpr hread,
    (globalValue_eq_ok (h.globals id _ hg) (h.storages _ _ hbytes)).mpr hread⟩

section

variable (hs : s.Sound) (hg : s.globals[id]? = some g) (hbytes : s.storages[g.storage]? = some bytes)
  (hw : g.write bytes v = .ok bytes') (hs' : s' = { s with storages := s.storages.setIfInBounds g.storage bytes' })
include hs hg hbytes hw hs'

theorem Sound.globalValue_set : globalValue id s' = .ok (g.type.valType.cut v, s') := by
  obtain ⟨-, b, hb, hlen⟩ := hs.views id g hg
  cases hbytes.symm.trans hb
  have hg' : s'.globals[id]? = some g := hs' ▸ hg
  have hset : s'.storages[g.storage]? = some bytes' := by
    rw [hs']
    exact getElem?_put hbytes
  exact (globalValue_eq_ok hg' hset).mpr (GlobalInstance.read_write hw hlen)

theorem Sound.globalValue_set_apart {id' : GlobalId} {g' : GlobalInstance} {v' : UInt64}
    (hg' : s.globals[id']? = some g') (hapart : g.Apart g') (hv : globalValue id' s = .ok (v', s)) :
    globalValue id' s' = .ok (v', s') := by
  obtain ⟨-, b, hb, hlen⟩ := hs.views id g hg
  cases hbytes.symm.trans hb
  obtain ⟨-, b', hb', -⟩ := hs.views id' g' hg'
  have hread := (globalValue_eq_ok hg' hb').mp hv
  have hkept : s'.globals[id']? = some g' := hs' ▸ hg'
  by_cases hst : g.storage = g'.storage
  · rw [hst] at hbytes
    cases hbytes.symm.trans hb'
    have hset : s'.storages[g'.storage]? = some bytes' := by
      rw [hs', hst]
      exact getElem?_put hbytes
    rw [globalValue_eq_ok hkept hset, GlobalInstance.read_write_apart hw hlen (hapart hst), hread]
  · refine (globalValue_eq_ok hkept ?_).mpr hread
    rw [hs']
    exact (Array.getElem?_setIfInBounds_ne hst).trans hb'

end

/-- The last value for an index. -/
def lastSet? (sets : List (Nat × UInt64)) (k : Nat) : Option UInt64 := (sets.reverse.find? (·.1 = k)).map Prod.snd

/-- Sets globals of an index space one after the other. -/
def setGlobals (globals : List (Option GlobalId)) : List (Nat × UInt64) → StoreM Unit
  | [] => return ()
  | (k, v) :: rest => do
    setGlobal (← entry globals k) v
    setGlobals globals rest

theorem lastSet?_cons (w : Nat × UInt64) (sets : List (Nat × UInt64)) (k : Nat) :
    lastSet? (w :: sets) k = (lastSet? sets k).or (if w.1 = k then some w.2 else none) := by
  rw [lastSet?, reverse_cons, find?_append, Option.map_or, lastSet?]
  congr 1
  by_cases hk : w.1 = k <;> simp [hk]

/-- A global that is apart from the others of its index space holds the last value that was set on it. -/
theorem does_setGlobals {globals : List (Option GlobalId)} (hs : s.Sound) {sets : List (Nat × UInt64)}
    (hsets : ∀ w ∈ sets, ∃ id g, globals[w.1]? = some (some id) ∧ s.globals[id]? = some g) :
    Does True (setGlobals globals sets) s fun _ s' => ∀ k id g v, globals[k]? = some (some id) →
      s.globals[id]? = some g →
      (∀ j id' g', j ≠ k → globals[j]? = some (some id') → s.globals[id']? = some g' → g'.Apart g) →
      globalValue id s = .ok (v, s) →
      globalValue id s' = .ok (((lastSet? sets k).map g.type.valType.cut).getD v, s') := by
  induction sets generalizing s with
  | nil => exact does_pure fun k id g v _ _ _ hv => hv
  | cons w sets ih =>
    obtain ⟨⟨id₀, g₀, hid₀, hg₀⟩, hrest⟩ := forall_mem_cons.mp hsets
    obtain ⟨hvalue, bytes, hbytes, -⟩ := hs.views id₀ g₀ hg₀
    refine Does.bind (does_entry_some hid₀ (Does.bind (does_setGlobal
      (fun _ => ⟨g₀, bytes, hg₀, hbytes, ValType.size_pos hvalue⟩) fun g b b' hg hb hw => ?_)))
    cases hg₀.symm.trans hg
    refine (ih (hs.lives (.setStorage hb (GlobalInstance.length_write hw))) hrest).imp ?_
    intro _ s' h k id g v hid hg' hapart hv
    rw [lastSet?_cons]
    by_cases hk : w.1 = k
    · subst hk
      cases hid₀.symm.trans hid
      cases hg.symm.trans hg'
      rw [h w.1 id₀ g₀ _ hid hg hapart (hs.globalValue_set hg hb hw rfl)]
      cases lastSet? sets w.1 <;> simp
    · rw [h k id g v hid hg' hapart
        (hs.globalValue_set_apart hg hb hw rfl hg' (hapart w.1 id₀ g₀ hk hid₀ hg) hv), if_neg hk, Option.or_none]

end Store

end ProtoWasm
