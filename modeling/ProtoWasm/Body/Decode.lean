import ProtoWasm.Body.Assigned
import ProtoWasm.Body.Env
import ProtoWasm.Body.Failure

/-! # Decoding function bodies

A body is decoded from left to right. An opcode with children waits on a stack until its children are complete, and
each child is checked when it is attached. If there is a graph, its nodes are emitted on the way.
-/
namespace ProtoWasm.Body

/-- The point where ways out of a block or an alternative meet, with the value they bring: its type is
unreachable as long as no way came, and void once two ways disagree. -/
structure Join where
  env : Env
  type : ValType := .unreachable
  node : NodeId := noNode
deriving DecidableEq, Repr, Inhabited

inductive Target where
  | exit (join : Join)
  | header (env : Env)
deriving DecidableEq, Repr, Inhabited

/-- A condition that was decided: where the other direction goes on, and where both meet. -/
structure Choice where
  otherwise : Env
  join : Join
deriving DecidableEq, Repr, Inhabited

inductive Rule where
  | block
  | loop
  | ifThen
  | ifElse
  | select
  | br (depth : Nat)
  | brIf (depth : Nat)
  | brTable (depths : List Nat)
  | ret
  | setLocal (index : Nat) (type : ValType)
  | setGlobal (index : Nat)
  | call (function : Nat) (sig : FuncType)
  | callIndirect (signature : Nat) (sig : FuncType)
  | growMemory
  | numeric (sig : FuncType)
  | access (a : MemoryAccess) (offset : Nat)
deriving DecidableEq, Repr, Inhabited

structure Pending where
  opcode : Opcode
  offset : Int
  type : ValType
  node : NodeId := noNode
  rule : Rule
  arity : Nat
  done : List Tree := []
deriving Inhabited

namespace Pending

def complete (p : Pending) : Bool := p.arity ≤ p.done.length

def tree (p : Pending) : Tree := .expr p.opcode p.type p.offset p.node p.done

def failure (p : Pending) (issue : Issue) : Failure := ⟨p.offset, p.opcode, issue⟩

end Pending

structure Context where
  body : FunctionBody
  /-- Loops give a phi only to the locals that they assign. -/
  loopAnalysis : Bool
  types : List ValType

structure State where
  env : Env
  /-- Targets of branches, innermost first. -/
  blocks : List Target := []
  /-- Open choices, innermost first. -/
  choices : List Choice := []
  graph : Option Graph := none
deriving Inhabited

namespace State

def building (s : State) : Option Graph := if s.env.live then s.graph else none

def finishPath (s : State) : State := { s with env := .ended }

def emit (s : State) (f : Graph → NodeId × Graph) : NodeId × State :=
  match s.building with
  | none => (noNode, s)
  | some g =>
    let (n, g) := f g
    (n, { s with graph := some g })

def emitOn (s : State) (f : Graph.Emitter) : NodeId × State :=
  match s.building with
  | none => (noNode, s)
  | some g =>
    let (n, chain, g) := f g s.env.chain
    (n, { s with graph := some g, env := { s.env with chain } })

def emitAt (s : State) (offset : Int) (f : Graph.Emitter) :
    NodeId × State :=
  s.emitOn fun g c =>
    let (n, c, g) := f g c
    (n, c, g.setOffset n offset)

end State

/-- A type is accepted where it is expected, where nothing is expected, and if the expression never
completes. -/
def typeMatches (expected found : ValType) : Bool :=
  found = expected || found = .unreachable || expected = .void

def checkLast (p : Pending) (expected : ValType) : Except Failure Tree :=
  match p.done.getLast? with
  | none => .error (p.failure .internal)
  | some t =>
    if typeMatches expected t.type then .ok t
    else .error (p.failure (.childType (p.done.length - 1) expected t.opcode t.type))

def lastChild (p : Pending) : Except Failure Tree :=
  match p.done.getLast? with
  | none => .error (p.failure .internal)
  | some t => .ok t

def child (p : Pending) (i : Nat) : Except Failure Tree :=
  match p.done[i]? with
  | none => .error (p.failure .internal)
  | some t => .ok t

def expectedAt (p : Pending) (ts : List ValType) (i : Nat) : Except Failure ValType :=
  match ts[i]? with
  | none => .error (p.failure .internal)
  | some t => .ok t

/-- Goes on from the current environment to another one, which ends the current path. -/
def leave (ctx : Context) (p : Pending) (s : State) (target : Env) : Except Failure (Env × State) :=
  match goTo ctx.types s.env target s.graph with
  | none => .error (p.failure .internal)
  | some (env, graph) =>
    .ok (env, { s with graph, env := if s.env.live then .ended else s.env })

def bring (ctx : Context) (p : Pending) (s : State) (j : Join) (value : Tree) :
    Except Failure (Join × State) :=
  if !s.env.live then .ok (j, s)
  else do
    let first := j.env.reach = .unreached
    let (env, s) ← leave ctx p s j.env
    if value.type = .unreachable then return ({ j with env }, s)
    else if first then return (⟨env, value.type, value.node⟩, s)
    else if value.type ≠ j.type then return (⟨env, .void, noNode⟩, s)
    else if j.type = .void then return ({ j with env }, s)
    else match s.graph with
      | none => return ({ j with env }, s)
      | some g =>
        let (node, g) := extendValue g j.type env.chain.control j.node value.node
        return (⟨env, j.type, node⟩, { s with graph := some g })

def breakTo (ctx : Context) (p : Pending) (s : State) (depth : Nat) (value : Tree) :
    Except Failure State :=
  match s.blocks[depth]? with
  | none => .error (p.failure .internal)
  | some (.header target) => do
    let (env, s) ← leave ctx p s target
    return { s with blocks := s.blocks.set depth (.header env) }
  | some (.exit j) => do
    let (j, s) ← bring ctx p s j value
    return { s with blocks := s.blocks.set depth (.exit j) }

/-- Ends a block: its last child is the value that falls through. -/
def closeBlock (ctx : Context) (p : Pending) (s : State) : Except Failure (Pending × State) := do
  match s.blocks with
  | .exit j :: rest =>
    let (j, s) ← bring ctx p s j (← lastChild p)
    return ({ p with type := j.type, node := j.node }, { s with env := j.env, blocks := rest })
  | _ => .error (p.failure .internal)

def branchOn (s : State) (cond : Tree) : Env × Env × State :=
  let holds := s.env.split
  match s.building with
  | none => (holds, s.env, s)
  | some g =>
    let ((t, f), g) := g.emitBranch cond.node s.env.chain.control
    (holds.setControl t, s.env.setControl f, { s with graph := some g })

def openChoice (p : Pending) (s : State) : Except Failure State := do
  let cond ← checkLast p .i32
  let (holds, fails, s) := branchOn s cond
  return { s with env := holds, choices := ⟨fails, { env := .unreached }⟩ :: s.choices }

def reduceIf (ctx : Context) (p : Pending) (s : State) : Except Failure (Pending × State) := do
  match p.done.length, s.choices with
  | 1, _ => return (p, ← openChoice p s)
  | 2, top :: rest =>
    let (env, s) ← leave ctx p s top.otherwise
    return (p, { s with env, choices := rest })
  | _, _ => .error (p.failure .internal)

def reduceIfElse (ctx : Context) (p : Pending) (s : State) : Except Failure (Pending × State) := do
  match p.done.length, s.choices with
  | 1, _ => return (p, ← openChoice p s)
  | 2, top :: rest =>
    let (join, s) ← bring ctx p s top.join (← lastChild p)
    return (p, { s with env := top.otherwise, choices := ⟨top.otherwise, join⟩ :: rest })
  | 3, top :: rest =>
    let (j, s) ← bring ctx p s top.join (← lastChild p)
    return ({ p with type := j.type, node := j.node }, { s with env := j.env, choices := rest })
  | _, _ => .error (p.failure .internal)

def selectType (p : Pending) : Except Failure Pending := do
  let t ← lastChild p
  if t.type = .void then .error (p.failure .selectOperand)
  else return { p with type := t.type }

/-- Decides between two values by a branch whose directions meet at once. -/
def emitSelect (g : Graph) (c : Chain) (t : ValType) (cond a b : NodeId) : NodeId × Chain × Graph :=
  let ((holds, fails), g) := g.emitBranch cond c.control
  let (merge, g) := g.emitMerge [holds, fails]
  let (phi, g) := g.emitPhi t merge [a, b]
  (phi, { c with control := merge }, g)

def reduceSelect (p : Pending) (s : State) : Except Failure (Pending × State) := do
  match p.done.length with
  | 1 => return (← selectType p, s)
  | 2 =>
    if p.type = .unreachable then return (← selectType p, s)
    else
      let _ ← checkLast p p.type
      return (p, s)
  | 3 =>
    let cond ← checkLast p .i32
    let a ← child p 0
    let b ← child p 1
    let (node, s) := s.emitOn fun g c => emitSelect g c p.type cond.node a.node b.node
    return ({ p with node }, s)
  | _ => .error (p.failure .internal)

def reduceBrIf (ctx : Context) (p : Pending) (s : State) (depth : Nat) :
    Except Failure (Pending × State) := do
  if !p.complete then return (p, s)
  else
    let cond ← checkLast p .i32
    let (holds, fails, s) := branchOn s cond
    let s ← breakTo ctx p { s with env := holds } depth (← child p 0)
    return (p, { s with env := fails })

/-- The state in which a table goes to its case `i`. `entry` is the environment before the table and
`switch` its node, if the table has one. -/
def tableCase (entry : Env) (switch : NodeId) (last i : Nat) (s : State) : State :=
  if last = 0 then { s with env := entry }
  else match s.graph with
    | none => { s with env := entry.split }
    | some g =>
      if switch = noNode then { s with env := entry.split }
      else
        let (n, g) := if i = last then g.emitIfDefault switch else g.emitIfValue i switch
        { s with env := entry.split.setControl n, graph := some g }

def branchAll (ctx : Context) (p : Pending) (value : Tree) (entry : Env) (switch : NodeId)
    (last : Nat) : (cases : List (Nat × Nat)) → State → Except Failure State
  | [], s => .ok s
  | (depth, i) :: rest, s => do
    let s ← breakTo ctx p (tableCase entry switch last i s) depth value
    branchAll ctx p value entry switch last rest s

def reduceBrTable (ctx : Context) (p : Pending) (s : State) (depths : List Nat) :
    Except Failure (Pending × State) := do
  if !p.complete then return (p, s)
  else
    let key ← checkLast p .i32
    let value ← child p 0
    let entry := s.env.split
    -- a table with nothing but a default needs no switch
    let (switch, s) :=
      if depths.length ≤ 1 then (noNode, s)
      else s.emit fun g => g.emitSwitch depths.length key.node entry.chain.control
    let s ← branchAll ctx p value entry switch (depths.length - 1) depths.zipIdx s
    return (p, s.finishPath)

def childNodes (p : Pending) : List NodeId := p.done.map Tree.node

def reduceReturn (ctx : Context) (p : Pending) (s : State) : Except Failure (Pending × State) := do
  let _ ← checkLast p (← expectedAt p ctx.body.signature.results (p.done.length - 1))
  if !p.complete then return (p, s)
  else
    let (_, s) := s.emitOn fun g c => g.emitReturn c (childNodes p)
    return (p, s.finishPath)

def reduceSetLocal (p : Pending) (s : State) (index : Nat) (t : ValType) :
    Except Failure (Pending × State) := do
  let value ← checkLast p t
  let env := match s.building with
    | some _ => { s.env with locals := s.env.locals.set index value.node }
    | none => s.env
  return ({ p with node := value.node }, { s with env })

def reduceSetGlobal (p : Pending) (s : State) (index : Nat) : Except Failure (Pending × State) := do
  let value ← checkLast p p.type
  let (_, s) := s.emitOn fun g c => g.emitStoreGlobal c index value.node
  return ({ p with node := value.node }, s)

def reduceCall (p : Pending) (s : State) (function : Nat) (sig : FuncType) :
    Except Failure (Pending × State) := do
  if !p.done.isEmpty then
    let _ ← checkLast p (← expectedAt p sig.params (p.done.length - 1))
  if !p.complete then return (p, s)
  else
    let (node, s) := s.emitAt p.offset fun g c => g.emitCall c function sig (childNodes p)
    return ({ p with node }, s)

def reduceCallIndirect (p : Pending) (s : State) (signature : Nat) (sig : FuncType) :
    Except Failure (Pending × State) := do
  let _ ← checkLast p (← expectedAt p (.i32 :: sig.params) (p.done.length - 1))
  if !p.complete then return (p, s)
  else match childNodes p with
    | [] => .error (p.failure .internal)
    | key :: args =>
      let (node, s) := s.emitAt p.offset fun g c => g.emitCallIndirect c signature sig key args
      return ({ p with node }, s)

def reduceNumeric (p : Pending) (s : State) (sig : FuncType) : Except Failure (Pending × State) := do
  let _ ← checkLast p (← expectedAt p sig.params (p.done.length - 1))
  if !p.complete then return (p, s)
  else match childNodes p with
    | [x] =>
      let (node, s) := s.emitAt p.offset fun g c =>
        let (n, g) := g.emitUnop p.opcode x
        (n, c, g)
      return ({ p with node }, s)
    | x :: y :: _ =>
      let (node, s) := s.emitAt p.offset fun g c =>
        let (n, g) := g.emitBinop p.opcode x y
        (n, c, g)
      return ({ p with node }, s)
    | [] => .error (p.failure .internal)

def reduceAccess (p : Pending) (s : State) (a : MemoryAccess) (offset : Nat) :
    Except Failure (Pending × State) := do
  let _ ← checkLast p (if p.done.length = 2 then a.type else .i32)
  if !p.complete then return (p, s)
  else match s.building with
    | none => return (p, s)
    | some _ =>
      let index ← child p 0
      if a.store then
        let value ← child p 1
        let (_, s) := s.emitAt p.offset fun g c => g.emitStoreMem c a index.node offset value.node
        return ({ p with node := value.node }, s)
      else
        let (node, s) := s.emitAt p.offset fun g c => g.emitLoadMem c a index.node offset
        return ({ p with node }, s)

/-- Handles the child that was attached last, or an expression without children. -/
def reduce (ctx : Context) (p : Pending) (s : State) : Except Failure (Pending × State) :=
  match p.rule with
  | .block => if p.complete then closeBlock ctx p s else .ok (p, s)
  | .loop =>
    if p.complete then closeBlock ctx p { s with blocks := s.blocks.drop 1 } else .ok (p, s)
  | .ifThen => reduceIf ctx p s
  | .ifElse => reduceIfElse ctx p s
  | .select => reduceSelect p s
  | .br depth => do
    let s ← breakTo ctx p s depth (← lastChild p)
    return (p, s)
  | .brIf depth => reduceBrIf ctx p s depth
  | .brTable depths => reduceBrTable ctx p s depths
  | .ret => reduceReturn ctx p s
  | .setLocal index t => reduceSetLocal p s index t
  | .setGlobal index => reduceSetGlobal p s index
  | .call function sig => reduceCall p s function sig
  | .callIndirect signature sig => reduceCallIndirect p s signature sig
  | .growMemory => do
    let delta ← checkLast p .i32
    let (node, s) := s.emitOn fun g c => g.emitGrowMemory c delta.node
    return ({ p with node }, s)
  | .numeric sig => reduceNumeric p s sig
  | .access a offset => reduceAccess p s a offset

structure Decoder where
  /-- Expressions that wait for children, innermost first. -/
  stack : List Pending := []
  trees : List Tree := []
  state : State
  opcodes : Nat := 0
  depth : Nat := 0
deriving Inhabited

/-- Attaches a complete expression to the one that waits on top; the expression that is complete at
the end, if none waits any more, is given back. -/
def attach (ctx : Context) : List Pending → State → Tree →
    Except Failure (List Pending × State × Option Tree)
  | [], s, t => .ok ([], s, some t)
  | p :: rest, s, t => do
    let (p, s) ← reduce ctx { p with done := p.done ++ [t] } s
    if p.complete then attach ctx rest s p.tree
    else return (p :: rest, s, none)

def Decoder.push (ctx : Context) (d : Decoder) (s : State) (t : Tree) : Except Failure Decoder := do
  let (stack, state, root) ← attach ctx d.stack s t
  return { d with stack, state, trees := d.trees ++ root.toList }

def Decoder.shift (ctx : Context) (d : Decoder) (s : State) (p : Pending) : Except Failure Decoder :=
  if p.arity = 0 then do
    let (p, s) ← reduce ctx p s
    d.push ctx s p.tree
  else
    .ok { d with
      stack := p :: d.stack
      state := s
      depth := max d.depth (d.stack.length + 1) }

/-- Opens a block or a loop: branches to it go on where it was opened from. -/
def openBlock (ctx : Context) (s : State) (pc : Int) (isLoop : Bool) : State :=
  let inner := s.env.split
  let blocks := .exit { env := s.env.vacate } :: s.blocks
  if !isLoop then { s with env := inner, blocks }
  else if !inner.live then { s with env := inner.split, blocks := .header inner :: blocks }
  else match s.graph with
    | none =>
      let header := { inner with reach := .joined }
      { s with env := header.split, blocks := .header header :: blocks }
    | some g =>
      let assigned := if ctx.loopAnalysis then assignedInLoop ctx.body pc else none
      let (header, g) := openLoop ctx.types assigned inner g
      { s with env := header.split, blocks := .header header :: blocks, graph := some g }

inductive Entry where
  | leaf (t : Tree) (s : State)
  | wait (p : Pending) (s : State)
deriving Inhabited

def enter (ctx : Context) (s : State) (x : Instruction) : Except Failure Entry :=
  let m := ctx.body.module
  let fail (issue : Issue) : Except Failure Entry := .error ⟨x.offset, x.opcode, issue⟩
  let leaf (t : ValType) (node : NodeId) (s : State) : Except Failure Entry :=
    .ok (.leaf (.expr x.opcode t x.offset node []) s)
  let wait (rule : Rule) (type : ValType) (arity : Nat) (s : State) : Except Failure Entry :=
    .ok (.wait { opcode := x.opcode, offset := x.offset, type, rule, arity } s)
  let constant (t : ValType) (emit : Graph → NodeId × Graph) : Except Failure Entry :=
    let (n, s) := s.emit emit
    leaf t n s
  match x.opcode.form, x.operands with
  | .nop, _ => leaf .void noNode s
  | .block, .index n =>
    if n = 0 then leaf .void noNode s
    else wait .block .unreachable n (openBlock ctx s x.offset false)
  | .loop, .index n =>
    if n = 0 then leaf .void noNode s
    else wait .loop .unreachable n (openBlock ctx s x.offset true)
  | .ifThen, _ => wait .ifThen .void 2 s
  | .ifElse, _ => wait .ifElse .unreachable 3 s
  | .select, _ => wait .select .unreachable 3 s
  | .br, .index depth =>
    if s.blocks.length ≤ depth then fail (.breakDepth depth s.blocks.length)
    else wait (.br depth) .unreachable 1 s
  | .brIf, .index depth =>
    if s.blocks.length ≤ depth then fail (.breakDepth depth s.blocks.length)
    else wait (.brIf depth) .void 2 s
  | .brTable, .targets depths =>
    match depths.zipIdx.find? fun (depth, _) => s.blocks.length ≤ depth with
    | some (depth, i) => fail (.tableDepth i depth s.blocks.length)
    | none => wait (.brTable depths) .unreachable 2 s
  | .ret, _ =>
    if ctx.body.signature.results.isEmpty then
      let (_, s) := s.emitOn fun g c => g.emitReturn c []
      leaf .unreachable noNode s.finishPath
    else wait .ret .unreachable ctx.body.signature.results.length s
  | .unreachable, _ =>
    let (_, s) := s.emitAt x.offset fun g c => g.emitUnreachable c
    leaf .unreachable noNode s.finishPath
  | .constI8, .bits n | .constI32, .bits n => constant .i32 (·.emitInt32 n)
  | .constI64, .bits n => constant .i64 (·.emitInt64 n)
  | .constF32, .bits n => constant .f32 (·.emitFloat32 n)
  | .constF64, .bits n => constant .f64 (·.emitFloat64 n)
  | .getLocal, .index i =>
    match ctx.types[i]? with
    | none => fail (.localIndex i)
    | some t =>
      let node := if s.building.isSome then s.env.locals[i]?.getD noNode else noNode
      leaf t node s
  | .setLocal, .index i =>
    match ctx.types[i]? with
    | none => fail (.localIndex i)
    | some t => wait (.setLocal i t) t 1 s
  | .getGlobal, .index i =>
    match m.globals[i]? with
    | none => fail (.globalIndex i)
    | some g =>
      let (n, s) := s.emitOn fun gr c => gr.emitLoadGlobal c i g.type.valType
      leaf g.type.valType n s
  | .setGlobal, .index i =>
    match m.globals[i]? with
    | none => fail (.globalIndex i)
    | some g =>
      if !g.type.isMutable then fail (.globalImmutable i)
      else wait (.setGlobal i) g.type.valType 1 s
  | .call, .index i =>
    match m.functionType? i with
    | none => fail (.functionIndex i)
    | some sig => wait (.call i sig) sig.resultType sig.params.length s
  | .callIndirect, .index i =>
    if m.tables.isEmpty then fail .tableMissing
    else match m.signatures[i]? with
      | none => fail (.signatureIndex i)
      | some sig => wait (.callIndirect i sig) sig.resultType (1 + sig.params.length) s
  | .growMemory, _ => if m.memory.isNone then fail .memoryMissing else wait .growMemory .i32 1 s
  | .memorySize, _ => if m.memory.isNone then fail .memoryMissing else constant .i32 (·.emitMemSize)
  | .access a, .access alignment offset =>
    if m.memory.isNone then fail .memoryMissing
    else if a.maxAlignment < alignment then fail (.alignment alignment a.maxAlignment)
    else wait (.access a offset) a.type a.arity s
  | .numeric sig, _ => wait (.numeric sig) sig.resultType sig.params.length s
  | .undefined, _ => fail (.opcode x.opcode.code)
  | _, _ => fail .internal

/-- The number of children of a block, if fewer bytes remain. They are counted in 32 bits. -/
def tooMany? (x : Instruction) (remaining : Nat) : Option Nat :=
  match x.opcode.form, x.operands with
  | .block, .index n | .loop, .index n => if remaining % 2 ^ 32 < n then some n else none
  | _, _ => none

def advance (ctx : Context) (d : Decoder) (x : Instruction) : Except Failure Decoder := do
  match ← enter ctx d.state x with
  | .leaf t s => d.push ctx s t
  | .wait p s => d.shift ctx s p

def step (ctx : Context) (d : Decoder) (x : Instruction) (remaining : Nat) : Except Failure Decoder :=
  match tooMany? x remaining with
  | some n => .error ⟨x.offset, x.opcode, .arity n remaining⟩
  | none => advance ctx d x

def run (ctx : Context) (d : Decoder) (i : Input) : Except Failure Decoder :=
  match _hb : i.bytes with
  | [] => .ok d
  | b :: rest =>
    let op : Opcode := ⟨b⟩
    match _ho : readOperands op.form ⟨rest, i.offset + 1⟩ with
    | .error e => .error ⟨i.offset, op, .operand e.fault⟩
    | .ok (ops, j) =>
      match step ctx { d with opcodes := d.opcodes + 1 } ⟨i.offset, op, ops⟩ j.remaining with
      | .error e => .error e
      | .ok d => run ctx d j
termination_by i.remaining
decreasing_by
  have h := shrinks_readOperands _ _ _ _ _ho
  simp only [Input.remaining] at h ⊢
  simp only [_hb, List.length_cons]
  omega

/-- The value of a local before its first assignment. Locals of one type share a node. -/
def zeroOf (zeros : List (ValType × NodeId)) (t : ValType) (g : Graph) :
    NodeId × List (ValType × NodeId) × Graph :=
  match zeros.lookup t with
  | some n => (n, zeros, g)
  | none =>
    let (n, g) := match t with
      | .i32 => g.emitInt32 0
      | .i64 => g.emitInt64 0
      | .f32 => g.emitFloat32 0
      | .f64 => g.emitFloat64 0
      | _ => (noNode, g)
    (n, (t, n) :: zeros, g)

def entryEnv (b : FunctionBody) (g : Graph) : Env × Graph :=
  let (chain, g) := g.emitStart b.signature.params.length
  let (params, g) := b.signature.params.zipIdx.foldl
    (fun (ns, g) (t, i) =>
      let (n, g) := Graph.emitParam g i t
      (ns ++ [n], g))
    (([] : List NodeId), g)
  let (locals, _, g) := b.locals.foldl
    (fun (ns, zeros, g) t =>
      let (n, zeros, g) := zeroOf zeros t g
      (n :: ns, zeros, g))
    (([] : List NodeId), [], g)
  (⟨.once, chain, params ++ locals.reverse⟩, g)

def finish (ctx : Context) (d : Decoder) : Except Failure Decoder :=
  let s := d.state
  let returning (values : List NodeId) : Decoder :=
    { d with state := (s.emitOn fun g c => g.emitReturn c values).2 }
  match d.stack with
  | p :: _ => .error (p.failure (.unterminated p.done.length p.arity))
  | [] =>
    if !s.env.live then .ok d
    else if ctx.body.returnType = .void then .ok (returning [])
    else match d.trees.getLast? with
      | none => .error ⟨ctx.body.offset + ctx.body.code.length, .ret, .returnMissing⟩
      | some last =>
        if typeMatches ctx.body.returnType last.type then .ok (returning [last.node])
        else .error ⟨last.offset, .ret, .returnType ctx.body.returnType last.opcode last.type⟩

structure Options where
  loopAnalysis : Bool := false
  /-- The most parameters and locals; zero stands for the usual limit. -/
  maxLocals : Int := 0
deriving DecidableEq, Repr, Inhabited

def defaultMaxLocals : Nat := 50000

def Options.localLimit (o : Options) : Int := if o.maxLocals = 0 then defaultMaxLocals else o.maxLocals

structure Result where
  trees : List Tree
  returnType : ValType
  opcodes : Nat
  /-- The most expressions that waited for children at once. -/
  depth : Nat
  graph : Option Graph
deriving Inhabited

def badLocal? (types : List ValType) : Option (ValType × Nat) :=
  types.zipIdx.find? fun (t, _) => !t.isValue

def decodeWith (b : FunctionBody) (o : Options) (graph : Option Graph) : Except Failure Result := do
  let types := b.localTypes
  let start (issue : Issue) : Failure := ⟨b.offset, .ret, issue⟩
  if o.localLimit < types.length then .error (start (.localCount types.length o.localLimit))
  else match badLocal? types with
    | some (t, i) => .error (start (.localType t i))
    | none =>
      let (env, graph) := match graph with
        | none => (({ reach := .once } : Env), none)
        | some g =>
          let (env, g) := entryEnv b g
          (env, some g)
      let ctx : Context := ⟨b, o.loopAnalysis, types⟩
      let d ← run ctx { state := { env, graph } } b.input
      let d ← finish ctx d
      return ⟨d.trees, b.returnType, d.opcodes, d.depth, d.state.graph⟩

def check (b : FunctionBody) (o : Options) : Except Failure Result := decodeWith b o none

def build (b : FunctionBody) (o : Options) : Except Failure Result :=
  decodeWith b o (some { signature := b.signature })

end ProtoWasm.Body
