/-!
# TypeSolver.Files

Files as a command sees them: a path leads to a text, or there is a reason why it does not.
-/

namespace TypeSolver

inductive FileError where
  | notFound
  | notDirectory
  | isDirectory
  | nameTooLong
  | accessDenied
  | notText
  | other (reason : String)

def FileError.message : FileError → String
  | .notFound => "No such file or directory (os error 2)"
  | .accessDenied => "Permission denied (os error 13)"
  | .notDirectory => "Not a directory (os error 20)"
  | .isDirectory => "Is a directory (os error 21)"
  | .nameTooLong => "File name too long (os error 36)"
  | .notText => "stream did not contain valid UTF-8"
  | .other reason => reason

abbrev Files := String → Except FileError String

end TypeSolver
