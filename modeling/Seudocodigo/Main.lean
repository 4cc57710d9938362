import Seudocodigo.CommandLine

/-! The program: arguments and files in, text and an exit code out. -/
namespace Seudocodigo

/-- What a path leads to. Reading a directory fails with code 21. -/
def findFile (path : String) : IO Found := do
  try
    let content ← IO.FS.readFile path
    return .file content
  catch
    | .inappropriateType _ 21 _ => return .directory
    | _ => return .nothing

def runMain (args : List String) : IO UInt32 := do
  let found ← match Options.ofArgs args with
    | .ok o => findFile o.file
    | .error _ => pure .nothing
  let outcome := CommandLine.run args fun _ => found
  IO.eprint outcome.errors
  IO.print outcome.output
  return UInt32.ofNat outcome.exitCode

end Seudocodigo

def main (args : List String) : IO UInt32 := Seudocodigo.runMain args
