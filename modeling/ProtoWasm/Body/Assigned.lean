import ProtoWasm.Body.Basic
import ProtoWasm.Body.Operands

/-! # Locals assigned in a loop

A scan over the opcodes of a loop that finds the locals it assigns. The scan only counts children: it
ignores locals out of range and stops at the first opcode that is malformed.
-/
namespace ProtoWasm.Body

/-- Closes expressions that wait for no more children; each is a child of the one below it. -/
def closeFinished : List Nat → List Nat
  | 0 :: n :: rest => closeFinished ((n - 1) :: rest)
  | [0] => []
  | pending => pending

def scanAssigned (m : Module) (results : Nat) (assigned : List Bool) (pending : List Nat)
    (i : Input) : List Bool :=
  if pending.isEmpty then assigned
  else match _hb : i.bytes with
    | [] => assigned
    | b :: rest =>
      let form := (⟨b⟩ : Opcode).form
      match _ho : readOperands form ⟨rest, i.offset + 1⟩ with
      | .error _ => assigned
      | .ok (ops, j) =>
        match childCount m results form ops with
        | none => assigned
        | some n =>
          let assigned := match form, ops with
            | .setLocal, .index k => assigned.set k true
            | _, _ => assigned
          scanAssigned m results assigned (closeFinished (n :: pending)) j
termination_by i.remaining
decreasing_by
  have h := shrinks_readOperands _ _ _ _ _ho
  simp only [Input.remaining] at h ⊢
  simp only [_hb, List.length_cons]
  omega

/-- For every parameter and local, whether the loop at an absolute offset assigns it; nothing if there
is no loop. -/
def assignedInLoop (b : FunctionBody) (pc : Int) : Option (List Bool) :=
  let rel := (pc - b.offset).bmod (2 ^ 64)
  if rel < 0 then none
  else match b.code.drop rel.toNat with
    | [] => none
    | op :: rest =>
      if (⟨op⟩ : Opcode) ≠ .loop then none
      else
        let unassigned := b.localTypes.map fun _ => false
        match readOperands .loop ⟨rest, pc + 1⟩ with
        | .ok (.index (n + 1), j) =>
          some (scanAssigned b.module b.signature.results.length unassigned [n + 1] j)
        | _ => some unassigned

end ProtoWasm.Body
