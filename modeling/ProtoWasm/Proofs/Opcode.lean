import ProtoWasm.Opcode

/-! # What the tables of opcodes say -/
namespace ProtoWasm

namespace Opcode

section

variable {op : Opcode}

theorem form_of_small (h : op.code.toNat < 0x20) :
    (∀ a, op.form ≠ .access a) ∧ ∀ sig, op.form ≠ .numeric sig := by
  have hf : ∀ f ∈ controlForms, (∀ a, f ≠ .access a) ∧ ∀ sig, f ≠ .numeric sig := by simp [controlForms]
  unfold form
  simp only [h, if_true]
  cases hc : controlForms[op.code.toNat]? with
  | none => simp
  | some f => exact hf f (List.mem_of_getElem? hc)

theorem access?_of_form {a : MemoryAccess} (h : op.form = .access a) : op.access? = some a := by
  have hn : ¬op.code.toNat < 0x20 := fun hn => (form_of_small hn).1 a h
  unfold form at h
  simp only [hn, if_false] at h
  split at h
  · cases h
  · split at h
    · cases h
    · split at h
      · rename_i b hb
        cases h
        exact hb
      · split at h <;> cases h

theorem numeric?_of_form {sig : FuncType} (h : op.form = .numeric sig) : op.numeric? = some sig := by
  have hn : ¬op.code.toNat < 0x20 := fun hn => (form_of_small hn).2 sig h
  unfold form at h
  simp only [hn, if_false] at h
  split at h
  · cases h
  · split at h
    · cases h
    · split at h
      · cases h
      · split at h
        · rename_i b hb
          cases h
          exact hb
        · cases h

theorem isValue_of_access? {a : MemoryAccess} (h : op.access? = some a) : a.type.isValue = true := by
  have ht : ∀ r ∈ accessTable, r.2.type.isValue = true := by decide
  unfold access? at h
  split at h
  · obtain ⟨r, hr, rfl⟩ := Option.map_eq_some_iff.mp h
    exact ht r (List.mem_of_getElem? hr)
  · cases h

section

variable {sig : FuncType} (h : op.numeric? = some sig)
include h

theorem row_of_numeric? : sig.isValue = true ∧ sig.params ≠ [] ∧ sig.params.length ≤ 2 := by
  have ht : ∀ r ∈ numericTable, (⟨r.2.1, [r.2.2]⟩ : FuncType).isValue = true ∧ r.2.1 ≠ [] ∧ r.2.1.length ≤ 2 := by
    decide +kernel
  unfold numeric? at h
  split at h
  · obtain ⟨r, hr, rfl⟩ := Option.map_eq_some_iff.mp h
    exact ht r (List.mem_of_getElem? hr)
  · cases h

theorem isValue_of_numeric? : sig.isValue = true := (row_of_numeric? h).1

theorem params_ne_nil_of_numeric? : sig.params ≠ [] := (row_of_numeric? h).2.1

theorem length_params_of_numeric? : sig.params.length ≤ 2 := (row_of_numeric? h).2.2

end

theorem form_byte (c : Fin 256) : ((⟨⟨⟨c⟩⟩⟩ : Opcode).form = .loop ↔ (⟨⟨⟨c⟩⟩⟩ : Opcode) = .loop) ∧
      ((⟨⟨⟨c⟩⟩⟩ : Opcode).form = .setLocal ↔ (⟨⟨⟨c⟩⟩⟩ : Opcode) = .setLocal) := by
  decide +kernel +revert

theorem form_eq_loop_iff : op.form = .loop ↔ op = .loop := (form_byte op.code.toBitVec.toFin).1

theorem form_eq_setLocal_iff : op.form = .setLocal ↔ op = .setLocal := (form_byte op.code.toBitVec.toFin).2

end

end Opcode
end ProtoWasm
