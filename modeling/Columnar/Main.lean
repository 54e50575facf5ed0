import Columnar.Inspect.Run

/-! The inspection tool. -/

namespace Columnar.Inspect

/-- The number of a system error, which may come with either sign. -/
def errorNumber (code : UInt32) : UInt32 := min code (0 - code)

/-- The file at a path. -/
def readFile (path : String) : IO (Except Error File) := do
  try
    let bytes ← IO.FS.readBinFile path
    return .ok (.memory bytes.data)
  catch
    | .noFileOrDirectory .. => return .error (.file .notFound)
    | .inappropriateType _ code _ =>
      let fault := if errorNumber code = 20 then FileFault.notDirectory else .isDirectory
      return .error (.file fault)
    | .invalidArgument file code details =>
      if errorNumber code = 36 then return .error (.file .nameTooLong)
      else throw (.invalidArgument file code details)
    | e => throw e

end Columnar.Inspect

open Columnar Inspect in
def main (args : List String) : IO UInt32 := do
  let outcome ← match Command.parse? args with
    | none => pure usage
    | some c => pure (c.run (← readFile c.path))
  IO.print outcome.stdout
  IO.eprint outcome.stderr
  return outcome.exit.toUInt32
