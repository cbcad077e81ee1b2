import ProtoWasm.Body.Decode
import ProtoWasm.Proofs.Body.Syntax

/-! # Types by recursion

A checker for bodies that knows no stack and no environment. It goes through an expression from left to
right and keeps whether control gets to the point it has come to, and for every block around it the types
of the values that were brought to its end.
-/
namespace ProtoWasm.Body

open Body.Expr

/-- What is known of a target: the types of the values that were brought to the end of a block or loop,
or that it is the beginning of a loop, to which no values are brought. -/
inductive Goal where
  | exit (types : List ValType)
  | header
deriving DecidableEq, Repr

structure Scope where
  reachable : Bool := true
  /-- Targets of branches, innermost first. -/
  goals : List Goal := []
deriving DecidableEq, Repr

/-- The type of an expression to whose end values of these types are brought. -/
def commonType : List ValType → ValType
  | [] => .unreachable
  | t :: ts => if ts.all (· = t) then t else .void

namespace Scope

/-- A branch brings a value of a type to a target. -/
def bring (σ : Scope) (t : ValType) (depth : Nat) : Scope :=
  if σ.reachable then
    { σ with goals := σ.goals.modify depth fun
      | .exit ts => .exit (t :: ts)
      | .header => .header }
  else σ

def stop (σ : Scope) : Scope := { σ with reachable := false }

def enterBlock (σ : Scope) (isLoop : Bool) : Scope :=
  { σ with goals := (if isLoop then [.header] else []) ++ .exit [] :: σ.goals }

/-- The end of a block whose last child has the given type: the type of the block and what follows it. -/
def closeBlock (σ : Scope) (isLoop : Bool) (last : ValType) : Option (ValType × Scope) :=
  match if isLoop then σ.goals.drop 1 else σ.goals with
  | .exit ts :: goals =>
    let ts := if σ.reachable then last :: ts else ts
    some (commonType ts, ⟨!ts.isEmpty, goals⟩)
  | _ => none

end Scope

/-- A type stands where another is expected if it is that type or if the expression never completes. -/
def accepts (expected found : ValType) : Bool := found = expected || found = .unreachable

def acceptAll : List ValType → List Tree → Bool
  | [], [] => true
  | τ :: τs, t :: ts => accepts τ t.type && acceptAll τs ts
  | _, _ => false

/-- What an instruction does with its children. -/
inductive Role where
  /-- It takes operands of these types and gives a value. -/
  | value (params : List ValType) (type : ValType)
  /-- It takes operands of these types and never completes. -/
  | stop (params : List ValType)
  | block (isLoop : Bool)
  | ifThen
  | ifElse
  | select
  | br (depth : Nat)
  | brIf (depth : Nat)
  | brTable (depths : List Nat)
deriving DecidableEq, Repr

/-- The role of an instruction inside so many targets, if all that it refers to is there. A block
without children does nothing. -/
def role? (b : FunctionBody) (depth : Nat) (x : Instruction) : Option Role :=
  let m := b.module
  match x.opcode.form, x.operands with
  | .nop, _ => some (.value [] .void)
  | .block, .index n => some (if n = 0 then .value [] .void else .block false)
  | .loop, .index n => some (if n = 0 then .value [] .void else .block true)
  | .ifThen, _ => some .ifThen
  | .ifElse, _ => some .ifElse
  | .select, _ => some .select
  | .br, .index d => if d < depth then some (.br d) else none
  | .brIf, .index d => if d < depth then some (.brIf d) else none
  | .brTable, .targets ds => if ds.all (· < depth) then some (.brTable ds) else none
  | .ret, _ => some (.stop b.signature.results)
  | .unreachable, _ => some (.stop [])
  | .constI8, .bits _ | .constI32, .bits _ => some (.value [] .i32)
  | .constI64, .bits _ => some (.value [] .i64)
  | .constF32, .bits _ => some (.value [] .f32)
  | .constF64, .bits _ => some (.value [] .f64)
  | .getLocal, .index i => b.localTypes[i]?.map fun t => .value [] t
  | .setLocal, .index i => b.localTypes[i]?.map fun t => .value [t] t
  | .getGlobal, .index i => m.globals[i]?.map fun v => .value [] v.type.valType
  | .setGlobal, .index i => (m.globals[i]?.filter (·.type.isMutable)).map fun v =>
    .value [v.type.valType] v.type.valType
  | .call, .index i => (m.functionType? i).map fun sig => .value sig.params sig.resultType
  | .callIndirect, .index i =>
    if m.tables.isEmpty then none
    else m.signatures[i]?.map fun sig => .value (.i32 :: sig.params) sig.resultType
  | .growMemory, _ => if m.memory.isSome then some (.value [.i32] .i32) else none
  | .memorySize, _ => if m.memory.isSome then some (.value [] .i32) else none
  | .access a, .access alignment _ =>
    if m.memory.isSome ∧ alignment ≤ a.maxAlignment then
      some (.value (if a.store then [.i32, a.type] else [.i32]) a.type)
    else none
  | .numeric sig, _ => some (.value sig.params sig.resultType)
  | _, _ => none

def Instruction.tree (x : Instruction) (type : ValType) (children : List Tree) : Tree :=
  .expr x.opcode type x.offset noNode children

mutual

/-- The tree of an expression with its types, and the scope after it. -/
def infer (b : FunctionBody) : Expr → Scope → Option (Tree × Scope)
  | .node x cs, σ => do
    match ← role? b σ.goals.length x with
    | .value params t =>
      let (ts, σ) ← inferAll b cs σ
      if acceptAll params ts then some (x.tree t ts, σ) else none
    | .stop params =>
      let (ts, σ) ← inferAll b cs σ
      if acceptAll params ts then some (x.tree .unreachable ts, σ.stop) else none
    | .block isLoop =>
      let (ts, σ) ← inferAll b cs (σ.enterBlock isLoop)
      let last ← ts.getLast?
      let (t, σ) ← σ.closeBlock isLoop last.type
      some (x.tree t ts, σ)
    | .ifThen => inferIf b x cs σ
    | .ifElse => inferIfElse b x cs σ
    | .select =>
      match ← inferAll b cs σ with
      | ([u, v, c], σ) =>
        -- the first operand that completes decides
        let t := if u.type = .unreachable then v.type else u.type
        if t ≠ .void ∧ accepts t v.type ∧ accepts .i32 c.type then
          some (x.tree t [u, v, c], σ)
        else none
      | _ => none
    | .br depth =>
      match ← inferAll b cs σ with
      | ([v], σ) => some (x.tree .unreachable [v], (σ.bring v.type depth).stop)
      | _ => none
    | .brIf depth =>
      match ← inferAll b cs σ with
      | ([v, c], σ) =>
        if accepts .i32 c.type then some (x.tree .void [v, c], σ.bring v.type depth) else none
      | _ => none
    | .brTable depths =>
      match ← inferAll b cs σ with
      | ([v, k], σ) =>
        if accepts .i32 k.type then
          some (x.tree .unreachable [v, k], (depths.foldl (·.bring v.type ·) σ).stop)
        else none
      | _ => none

/-- Control goes on after the condition, whether or not it gets to the end of the arm. -/
def inferIf (b : FunctionBody) (x : Instruction) : List Expr → Scope → Option (Tree × Scope)
  | [c, a], σ => do
    let (c, σ) ← infer b c σ
    if accepts .i32 c.type then
      let (a, after) ← infer b a σ
      some (x.tree .void [c, a], { after with reachable := σ.reachable })
    else none
  | _, _ => none

/-- Both arms are reached from the condition, and both bring their value to the end. -/
def inferIfElse (b : FunctionBody) (x : Instruction) : List Expr → Scope → Option (Tree × Scope)
  | [c, a, e], σ => do
    let (c, σ) ← infer b c σ
    if accepts .i32 c.type then
      let (a, after) ← infer b a σ
      let (e, last) ← infer b e { after with reachable := σ.reachable }
      let types := (if last.reachable then [e.type] else []) ++ if after.reachable then [a.type] else []
      some (x.tree (commonType types) [c, a, e], { last with reachable := !types.isEmpty })
    else none
  | _, _ => none

def inferAll (b : FunctionBody) : List Expr → Scope → Option (List Tree × Scope)
  | [], σ => some ([], σ)
  | e :: es, σ => do
    let (t, σ) ← infer b e σ
    let (ts, σ) ← inferAll b es σ
    some (t :: ts, σ)

end

/-- A body returns the value of its last expression, if control gets to its end. -/
def returns (b : FunctionBody) (ts : List Tree) (σ : Scope) : Bool :=
  !σ.reachable || b.returnType = .void || ts.getLast?.any fun t => accepts b.returnType t.type

end ProtoWasm.Body
