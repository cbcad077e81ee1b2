import ProtoWasm.Cli.Run

/-! # The command line -/

open ProtoWasm

def printReport (r : Cli.Report) : IO UInt32 := do
  IO.print r.output
  IO.eprint r.errors
  return r.exitCode.toUInt32

/-- What an error of the system says about a file. Only an error of opening names the file, and an
argument of a program has no zero bytes, so that an invalid one is too long. -/
def fileFault : IO.Error → Cli.FileFault
  | .inappropriateType (some _) .. => .notDirectory
  | .inappropriateType none .. => .isDirectory
  | .invalidArgument .. => .nameTooLong
  | .permissionDenied .. => .denied
  | _ => .missing

def main (args : List String) : IO UInt32 := do
  match Cli.plan args with
  | .report r => printReport r
  | .read path next =>
    let bytes ← try (fun b => .ok b.toList) <$> IO.FS.readBinFile path catch e => pure (.error (fileFault e))
    printReport (Cli.Plan.resume path next bytes)
