import TypeSolver.Command

/-!
# TypeSolver.Main

The program: reads the files that its arguments name, runs the command, and prints what it says.
-/

namespace TypeSolver

/-- The number of a system error, which some calls report with a minus. -/
def errorNumber (code : UInt32) : UInt32 := if code < 0x80000000 then code else -code

def readText (path : String) : IO (Except FileError String) := do
  try
    let text ← IO.FS.readFile path
    pure (.ok text)
  catch e =>
    pure (.error (reason e))
where
  reason : IO.Error → FileError
    | .noFileOrDirectory _ _ _ => .notFound
    | .permissionDenied _ _ _ => .accessDenied
    | .inappropriateType _ code _ => if errorNumber code = 20 then .notDirectory else .isDirectory
    | .invalidArgument path code details =>
      if errorNumber code = 36 then .nameTooLong
      else .other (IO.Error.invalidArgument path code details).toString
    | .userError _ => .notText
    | e => .other e.toString

def readFiles : List String → IO Files
  | [] => pure fun _ => .error .notFound
  | path :: paths => do
    let text ← readText path
    let files ← readFiles paths
    pure fun p => if p = path then text else files p

end TypeSolver

open TypeSolver in
def main (args : List String) : IO UInt32 := do
  let files ← readFiles (Command.paths args)
  let result := Command.run ampleFuel files args
  IO.print result.stdout
  IO.eprint result.stderr
  pure result.code
