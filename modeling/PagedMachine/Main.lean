import PagedMachine.Session

/-!
The command line program.
-/

namespace PagedMachine

def readText (path : String) : IO FileText := do
  try
    let bytes ← IO.FS.readBinFile path
    match String.fromUTF8? bytes with
    | some text => return .ok text
    | none => return .error .notText
  catch
    | .noFileOrDirectory _ _ _ => return .error .missing
    | .inappropriateType _ 20 _ => return .error .notDirectory
    | .inappropriateType _ 21 _ => return .error .directory
    | .invalidArgument _ 36 _ => return .error .nameTooLong
    | e => return .error (.other (toString e))

end PagedMachine

open PagedMachine

def main (arguments : List String) : IO UInt32 := do
  match Options.parse? arguments with
  | none =>
    IO.eprintln "usage: [-v] [-l] [--max-steps N] FILE..."
    return exitUsage.toUInt32
  | some o =>
    let files ← o.files.toList.mapM fun path => do return (path, ← readText path)
    let seed ← IO.rand 0 (wordCount - 1)
    let report := runFiles o files (Entropy.seeded seed)
    (← IO.getStdout).putStr (report.output o)
    return report.exit.toUInt32
