import RstPress.Cli.Run

/-!
The program itself: requests are carried out as they come.
-/

namespace RstPress.Cli

def systemError (code : UInt32) (details : String) : FileError :=
  match code.toNat with
  | 2 => .notFound
  | 6 => .noDevice
  | 17 => .alreadyExists
  | 20 => .notDirectory
  | 21 => .isDirectory
  | 28 => .noSpace
  | 36 => .nameTooLong
  | 40 => .tooManyLinks
  | code => .other (details ++ " (os error " ++ code.repr ++ ")")

def fileError : IO.Error → FileError
  | .alreadyExists _ code details | .invalidArgument _ code details | .permissionDenied _ code details
  | .resourceExhausted _ code details | .inappropriateType _ code details | .noSuchThing _ code details
  | .interrupted _ code details | .noFileOrDirectory _ code details | .otherError code details
  | .resourceBusy code details | .resourceVanished code details | .unsupportedOperation code details
  | .hardwareFault code details | .unsatisfiedConstraints code details | .illegalOperation code details
  | .protocolError code details | .timeExpired code details => systemError code details
  | .unexpectedEof => .other "unexpected end of file"
  | .userError reason => .other reason

def attempt {α : Type} (action : IO α) : IO (Except FileError α) := do
  match ← action.toBaseIO with
  | .ok value => return .ok value
  | .error failed => return .error (fileError failed)

/-- The bytes up to the end of a stream. -/
def readAll (stream : IO.FS.Stream) : IO ByteArray := do
  let mut bytes := .empty
  repeat
    let more ← stream.read 65536
    if more.isEmpty then break
    bytes := bytes ++ more
  return bytes

def Program.perform {α : Type} : Program α → IO α
  | done value => return value
  | readFile path next => do
    (next ((← attempt (IO.FS.readBinFile path)).bind fun bytes => fileText (some bytes))).perform
  | readInput next => do
    let bytes ← attempt (do readAll (← IO.getStdin))
    (next (bytes.bind fun bytes => fileText (some bytes))).perform
  | writeFile path text next => do (next (← attempt (IO.FS.writeFile path text))).perform
  | makeFolders path next => do (next (← attempt (IO.FS.createDirAll path))).perform
  | print text next => do
    IO.print text
    next.perform
  | complain text next => do
    IO.eprint text
    next.perform

end RstPress.Cli

/-- The words for a JSON error are those of this program. -/
def libraries : RstPress.Libraries := .withTasks fun _ => "no document tree"

def main (words : List String) : IO UInt32 := do
  let indent ← IO.getEnv "RST2HTML_INDENT"
  return UInt32.ofNat (← (RstPress.Cli.program libraries indent words).perform)
