import ProtoWasm.Cli.Flag
import ProtoWasm.Text.Lowercase

/-! # Finding the command

The command is the first argument that is neither a flag nor the value of one. Which flags take a value
is not known yet, but for the ones that all commands share: an unknown flag is taken to have one, unless
it is given with an equals sign.
-/
namespace ProtoWasm.Cli

open Text

def program : String := "wasmengine"

inductive Shell where
  | bash
  | zsh
  | fish
  | powershell
deriving DecidableEq, Repr, Inhabited

namespace Shell

def all : List Shell := [bash, zsh, fish, powershell]

def name : Shell → String
  | bash => "bash"
  | zsh => "zsh"
  | fish => "fish"
  | powershell => "powershell"

end Shell

inductive Command where
  | validate
  | compile
  | inspect
  | version
  | help
  | completion
  | completionFor (s : Shell)
deriving DecidableEq, Repr, Inhabited

inductive Arity where
  | exactly (n : Nat)
  | closed
  | any
deriving DecidableEq, Repr, Inhabited

namespace Command

def all : List Command := [validate, compile, inspect, version, help, completion]

def parts : Command → List Command
  | completion => Shell.all.map completionFor
  | _ => []

def name : Command → String
  | validate => "validate"
  | compile => "compile"
  | inspect => "inspect"
  | version => "version"
  | help => "help"
  | completion => "completion"
  | completionFor s => s.name

def path (c : Command) : String :=
  match c with
  | completionFor _ => s!"{program} {completion.name} {c.name}"
  | _ => s!"{program} {c.name}"

def verboseFlag : Flag := ⟨"verbose", .switch, some 'v'⟩

def helpFlag : Flag := ⟨"help", .switch, some 'h'⟩

def shared : List Flag := [verboseFlag, helpFlag]

def flags (c : Command) : List Flag :=
  shared ++ match c with
    | validate => [⟨"report-all", .switch, none⟩]
    | compile => [⟨"tasks", .number, none⟩, ⟨"report-all", .switch, none⟩, ⟨"loop-analysis", .switch, none⟩]
    | inspect => [⟨"graph", .text, none⟩, ⟨"reencode", .switch, none⟩]
    | completionFor _ => [⟨"no-descriptions", .switch, none⟩]
    | _ => []

def arity : Command → Arity
  | validate | compile | inspect => .exactly 1
  | version | completionFor _ => .closed
  | help | completion => .any

end Command

/-- Whether an argument is a flag that is taken to have its value in the next argument. -/
def takesNext (a : String) : Bool :=
  match a.toList with
  | '-' :: '-' :: cs => !cs.contains '=' && String.ofList cs != Command.verboseFlag.name
  | ['-', c] => c.utf8Size == 1 && c != '=' && some c != Command.verboseFlag.short
  | _ => false

def isFlag (a : String) : Bool := a.toList.head? = some '-'

/-- The arguments that are neither flags nor values of flags. A flag that seems to want its value from
the last argument ends the search. -/
def plainArguments : List String → List String
  | [] => []
  | [a] => if a = "" ∨ isFlag a then [] else [a]
  | a :: b :: rest =>
    if a = "--" then []
    else if takesNext a then if rest.isEmpty then [] else plainArguments rest
    else if a = "" ∨ isFlag a then plainArguments (b :: rest)
    else a :: plainArguments (b :: rest)

def removeFirst (name : String) : List String → List String
  | [] => []
  | [a] => if a = name then [] else [a]
  | a :: b :: rest =>
    if a = "--" then a :: b :: rest
    else if takesNext a then a :: b :: removeFirst name rest
    else if a = name then b :: rest
    else a :: removeFirst name (b :: rest)

/-- The next row of the table of edit distances, from the entry on its left on. -/
def distanceRow (b : UInt8) : (left : Nat) → List UInt8 → List Nat → List Nat
  | left, d :: ds, up :: up' :: ups =>
    let v := min (min (left + 1) (up' + 1)) (up + if b = d then 0 else 1)
    v :: distanceRow b v ds (up' :: ups)
  | _, _, _ => []

def editDistance (s t : List UInt8) : Nat :=
  let row := s.foldl (fun row b => match row with
    | [] => []
    | up :: ups => (up + 1) :: distanceRow b (up + 1) t (up :: ups)) (List.range (t.length + 1))
  row.getLastD 0

def lowerBytes (s : String) : List UInt8 := (lowercase s).toUTF8.toList

def suggestable : List String := (Command.all.filter (· != .help)).map Command.name

def suggestions (typed : String) : List String :=
  suggestable.filter fun name =>
    editDistance (lowerBytes typed) (lowerBytes name) ≤ 2 || (lowerBytes typed).isPrefixOf (lowerBytes name)

def suggestionText (typed : String) : String :=
  match suggestions typed with
  | [] => ""
  | names => "\n\nDid you mean this?\n" ++ String.join (names.map fun n => s!"\t{n}\n")

inductive Invoked where
  | command (c : Command) (p : Parsed)
  | overview
deriving Repr, Inhabited

def checkArity (c : Command) (p : Parsed) : Except UsageError Invoked :=
  if p.switch Command.helpFlag.name then .ok .overview
  else match c.arity, p.arguments with
  | .closed, a :: _ => .error (.unknownCommand a c.path "")
  | .exactly n, as => if as.length = n then .ok (.command c p) else .error (.argumentCount n as.length)
  | _, _ => .ok (.command c p)

def findAmong (cs : List Command) (args : List String) : Option (Command × List String) := do
  let name ← (plainArguments args).head?
  let c ← cs.find? (·.name == name)
  return (c, removeFirst name args)

def findCommand? (args : List String) : Option (Command × List String) := do
  let (c, rest) ← findAmong Command.all args
  return (findAmong c.parts rest).getD (c, rest)

def readArguments (args : List String) : Except UsageError Invoked := do
  match findCommand? args, plainArguments args with
  | some (c, rest), _ => checkArity c (← parseFlags c.flags {} none rest)
  | none, name :: _ => .error (.unknownCommand name program (suggestionText name))
  | none, [] =>
    let _ ← parseFlags Command.shared {} none args
    return .overview

end ProtoWasm.Cli
