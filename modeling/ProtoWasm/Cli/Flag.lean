import ProtoWasm.Text.Numeral

/-! # Flags of the command line

Flags may stand before, between and after other arguments. A long flag has two dashes, a short one has
one and a letter; short flags can be joined. A flag that takes a value has it after an equals sign or in
the next argument; a switch needs none. Two dashes alone end the flags.
-/
namespace ProtoWasm.Cli

open Text

inductive FlagKind where
  /-- On, unless a truth value is given. -/
  | switch
  | number
  | text
deriving DecidableEq, Repr, Inhabited

structure Flag where
  name : String
  kind : FlagKind
  short : Option Char := none
deriving DecidableEq, Repr, Inhabited

inductive FlagValue where
  | switch (b : Bool)
  | number (n : Int)
  | text (s : String)
deriving DecidableEq, Repr, Inhabited

inductive UsageError where
  | unknownCommand (name path suggestions : String)
  | argumentCount (expected found : Nat)
  | badSyntax (argument : String)
  | unknownFlag (name : String)
  | unknownShort (c : Char) (letters : String)
  | missingValue (argument : String)
  | missingShortValue (c : Char) (letters : String)
  | badValue (value : String) (flag : Flag) (fault : NumeralFault)
deriving DecidableEq, Repr, Inhabited

namespace UsageError

private def flagText (f : Flag) : String :=
  match f.short with
  | some c => s!"-{c}, --{f.name}"
  | none => s!"--{f.name}"

private def readerName : FlagKind → String
  | .switch => "strconv.ParseBool"
  | _ => "strconv.ParseInt"

private def quotedLetter (c : Char) : String :=
  let b := Char.ofNat (((String.singleton c).toUTF8.toList.headD 0).toNat)
  if b = '\'' then "'\\''" else if b = '"' then "'\"'" else s!"'{quoteChar b}'"

def message : UsageError → String
  | unknownCommand name path suggestions =>
    s!"unknown command {quote name} for {quote path}{suggestions}"
  | argumentCount expected found => s!"accepts {expected} arg(s), received {found}"
  | badSyntax a => s!"bad flag syntax: {a}"
  | unknownFlag name => s!"unknown flag: --{name}"
  | unknownShort c letters => s!"unknown shorthand flag: {quotedLetter c} in -{letters}"
  | missingValue a => s!"flag needs an argument: {a}"
  | missingShortValue c letters => s!"flag needs an argument: {quotedLetter c} in -{letters}"
  | badValue v f fault =>
    s!"invalid argument {quote v} for {quote (flagText f)} flag: " ++
      s!"{readerName f.kind}: parsing {quote v}: {fault.text}"

end UsageError

namespace Flag

def parse (f : Flag) (v : String) : Except UsageError FlagValue :=
  match f.kind with
  | .switch => match readBool v with
    | .ok b => .ok (.switch b)
    | .error e => .error (.badValue v f e)
  | .number => match readInt64 v with
    | .ok n => .ok (.number n)
    | .error e => .error (.badValue v f e)
  | .text => .ok (.text v)

def implied? (f : Flag) : Option String := if f.kind = .switch then some "true" else none

end Flag

def splitEquals (cs : List Char) : String × Option String :=
  let name := cs.takeWhile (· != '=')
  match cs.drop name.length with
  | [] => (String.ofList name, none)
  | _ :: v => (String.ofList name, some (String.ofList v))

structure Parsed where
  values : List (String × FlagValue) := []
  arguments : List String := []
deriving Repr, Inhabited

namespace Parsed

def set (p : Parsed) (f : Flag) (v : String) : Except UsageError Parsed := do
  return { p with values := (f.name, ← f.parse v) :: p.values }

def switch (p : Parsed) (name : String) : Bool :=
  match p.values.lookup name with
  | some (.switch b) => b
  | _ => false

def text (p : Parsed) (name : String) : String :=
  match p.values.lookup name with
  | some (.text s) => s
  | _ => ""

end Parsed

abbrev Waiting := Option (Flag × UsageError)

def parseLong (flags : List Flag) (p : Parsed) (argument : String) (cs : List Char) :
    Except UsageError (Parsed × Waiting) := do
  if cs.head? = some '-' ∨ cs.head? = some '=' then .error (.badSyntax argument)
  else
    let (name, value) := splitEquals cs
    match flags.find? (·.name == name) with
    | none => .error (.unknownFlag name)
    | some f => match value.or f.implied? with
      | some v => return (← p.set f v, none)
      | none => return (p, some (f, .missingValue argument))

/-- Letters that start like this are left to test programs. -/
def reservedLetters : List Char := ['t', 'e', 's', 't', '.']

def parseShort (flags : List Flag) : Parsed → (letters : List Char) →
    Except UsageError (Parsed × Waiting)
  | p, [] => return (p, none)
  | p, c :: more => do
    if reservedLetters.isPrefixOf (c :: more) then return (p, none)
    match flags.find? (·.short == some c) with
    | none => .error (.unknownShort c (String.ofList (c :: more)))
    | some f => match more, f.implied? with
      | '=' :: d :: v, _ => return (← p.set f (String.ofList (d :: v)), none)
      | more, some v => parseShort flags (← p.set f v) more
      | [], none => return (p, some (f, .missingShortValue c (String.ofList [c])))
      | more, none => return (← p.set f (String.ofList more), none)

def parseFlags (flags : List Flag) : Parsed → Waiting → List String → Except UsageError Parsed
  | p, none, [] => return p
  | _, some (_, e), [] => .error e
  | p, some (f, _), v :: rest => do parseFlags flags (← p.set f v) none rest
  | p, none, a :: rest => do
    match a.toList with
    | ['-', '-'] => return { p with arguments := p.arguments ++ rest }
    | '-' :: '-' :: cs =>
      let (p, waiting) ← parseLong flags p a cs
      parseFlags flags p waiting rest
    | '-' :: c :: cs =>
      let (p, waiting) ← parseShort flags p (c :: cs)
      parseFlags flags p waiting rest
    | _ => parseFlags flags { p with arguments := p.arguments ++ [a] } none rest

end ProtoWasm.Cli
