/-! # Paths that are followed from name to name inside a directory -/
namespace ProtoWasm.Cli

inductive FileFault where
  | missing
  | notDirectory
  | isDirectory
  | nameTooLong
  | badName
  | denied
deriving DecidableEq, Repr, Inhabited

def FileFault.message (path : String) : FileFault → String
  | missing => s!"open {path}: no such file or directory"
  | notDirectory => s!"open {path}: not a directory"
  | isDirectory => s!"read {path}: is a directory"
  | nameTooLong => s!"open {path}: file name too long"
  | badName => s!"open {path}: invalid argument"
  | denied => s!"open {path}: permission denied"

structure Directory where
  files : List (List String × List UInt8)
deriving Repr, Inhabited

inductive Place where
  | file (bytes : List UInt8)
  | inside (names : List String)
  | outside
deriving DecidableEq, Repr, Inhabited

namespace Directory

def maxName : Nat := 255

def maxPath : Nat := 4095

def splitPath (path : String) : List String := path.splitOn "/"

def ofFiles (files : List (String × List UInt8)) : Directory :=
  ⟨files.map fun (path, bytes) => (splitPath path, bytes)⟩

def entry (d : Directory) (names : List String) : Except FileFault Place :=
  match d.files.lookup names with
  | some bytes => .ok (.file bytes)
  | none => if d.files.any fun (path, _) => names.isPrefixOf path then .ok (.inside names) else .error .missing

/-- One name further. No name and a single dot stay, two dots go up. -/
def enter (d : Directory) (place : Place) (name : String) : Except FileFault Place :=
  match place with
  | .file _ => .error .notDirectory
  | place =>
    if name = "" ∨ name = "." then .ok place
    else if name.utf8ByteSize > maxName then .error .nameTooLong
    else match place, name with
      | .inside [], ".." => .ok .outside
      | .inside names, ".." => .ok (.inside names.dropLast)
      | .inside names, name => d.entry (names ++ [name])
      | place, ".." => .ok place
      | _, _ => .error .missing

def find (d : Directory) (path : String) : Except FileFault Place :=
  if path.contains '\x00' then .error .badName
  else if path.utf8ByteSize > maxPath then .error .nameTooLong
  else if path = "" then .error .missing
  else (splitPath path).foldlM d.enter (if path.front = '/' then .outside else .inside [])

def read (d : Directory) (path : String) : Except FileFault (List UInt8) := do
  match ← d.find path with
  | .file bytes => return bytes
  | _ => .error .isDirectory

end Directory

end ProtoWasm.Cli
