import Mcs51.CommandLine

/-!
# The executable

Reads the file that the arguments name, hands everything to `Mcs51.CommandLine.run`, and prints the
report.
-/

/-- The content of a file, or why it cannot be read. -/
def Mcs51.CommandLine.readSource (path : String) : IO (Except String String) := do
  try
    return .ok (← IO.FS.readFile path)
  catch
    | .noFileOrDirectory _ _ _ => return .error Mcs51.CommandLine.missingFile
    | e => return .error (toString e)

/-- The program with its arguments. -/
def main (args : List String) : IO UInt32 := do
  match Mcs51.CommandLine.parse? args with
  | none =>
    IO.eprintln "usage: FILE [--steps N] [--trace] [--seed N] [--org-vectors] [--rx CHAR]"
    return 2
  | some options =>
    let content ← Mcs51.CommandLine.readSource (options.path.getD "")
    let report := Mcs51.CommandLine.run options content
    for line in report.output do IO.println line
    for line in report.errors do IO.eprintln line
    return report.exitCode.toUInt32
