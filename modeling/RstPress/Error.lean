import RstPress.Document.Problem
import RstPress.Wire.Node

/-!
Why a request fails. Rendering itself never does: failures come from files, from texts that are no JSON
tree, and from markup that strict reading rejects.
-/

namespace RstPress

inductive FileError where
  | notFound
  | alreadyExists
  | notDirectory
  | isDirectory
  | nameTooLong
  | tooManyLinks
  | noSpace
  | noDevice
  | notText
  | other (reason : String)
deriving DecidableEq, Repr

def FileError.message : FileError → String
  | notFound => "No such file or directory (os error 2)"
  | alreadyExists => "File exists (os error 17)"
  | notDirectory => "Not a directory (os error 20)"
  | isDirectory => "Is a directory (os error 21)"
  | nameTooLong => "File name too long (os error 36)"
  | tooManyLinks => "Too many levels of symbolic links (os error 40)"
  | noSpace => "No space left on device (os error 28)"
  | noDevice => "No such device or address (os error 6)"
  | notText => "stream did not contain valid UTF-8"
  | other reason => reason

inductive Error where
  | file (error : FileError)
  | json (reason : String)
  | tree (violation : Wire.Violation)
  | markup (problem : Document.Problem)
deriving DecidableEq, Repr

def Error.message : Error → String
  | file error => "I/O error: " ++ error.message
  | json reason => "JSON error: " ++ reason
  | tree violation => "Invalid document tree: " ++ violation.message
  | markup problem =>
    "Parse error at line " ++ problem.line.repr ++ ": " ++ problem.cause.message

/-- Two steps succeed together exactly if the first one does and the other does after it. -/
theorem bind_eq_ok {α β ε : Type} {first : Except ε α} {next : α → Except ε β} {result : β} :
    first >>= next = .ok result ↔ ∃ value, first = .ok value ∧ next value = .ok result := by
  cases first with
  | error reason => exact ⟨nofun, nofun⟩
  | ok value => exact ⟨fun given => ⟨value, rfl, given⟩, fun ⟨_, same, given⟩ => by cases same; exact given⟩

end RstPress
