import RstPress.Press

/-!
The library behind an interface of C strings. Arguments are bytes that end at their first NUL byte, and
may be missing altogether. Answers are texts that must not hold a NUL themselves: a result that does is
an error, and an error text that does is replaced by the empty one.
-/

namespace RstPress.Embed

/-- What the caller gets: either data or an error text. -/
structure Answer where
  success : Bool
  data : Option String
  errorText : Option String
deriving DecidableEq, Repr

/-- The number of bytes in front of the first NUL. -/
def nulPosition? (text : String) : Option Nat :=
  if text.toList.contains '\x00' then
    some (String.ofList (text.toList.takeWhile (· ≠ '\x00'))).utf8ByteSize
  else none

def Answer.failure (message : String) : Answer :=
  ⟨false, none, some (if (nulPosition? message).isSome then "" else message)⟩

def Answer.ofText (text : String) : Answer :=
  match nulPosition? text with
  | none => ⟨true, some text, none⟩
  | some position => failure ("Output contains a NUL byte at position " ++ position.repr)

def Answer.ofResult : Except Error String → Answer
  | .ok text => ofText text
  | .error error => failure error.message

/-- The bytes in front of the first NUL byte. -/
def beforeNul (bytes : ByteArray) : ByteArray := ⟨(bytes.data.toList.takeWhile (· ≠ 0)).toArray⟩

/-- The text of an argument, which error messages call by its name. -/
def argument (name : String) (bytes : Option ByteArray) : Except String String :=
  match bytes with
  | none => .error (name ++ " cannot be null")
  | some bytes =>
    match String.fromUTF8? (beforeNul bytes) with
    | some text => .ok text
    | none => .error ("Invalid UTF-8 " ++ name)

def answering (argument : Except String String) (result : String → Except Error String) : Answer :=
  match argument with
  | .ok text => .ofResult (result text)
  | .error message => .failure message

def render (source : Option ByteArray) (indent : Nat) : Answer :=
  answering (argument "source" source) (renderSource {} { indent })

def renderJsonTree (libraries : Libraries) (json : Option ByteArray) (indent : Nat) : Answer :=
  answering (argument "json" json) fun text => (parseTree libraries text).map (renderTree { indent })

def parseToJson (source : Option ByteArray) (style : Json.Style) (strict : Bool) : Answer :=
  answering (argument "source" source) fun text => (parse { strict } text).map (treeText style)

/-- Renders the content of the file at a path. The content is what the path leads to, if anything. -/
def renderFile (path : Option ByteArray) (content : String → Option ByteArray) (indent : Nat) : Answer :=
  answering (argument "path" path) fun name => (parseFile {} (content name)).map (renderTree { indent })

end RstPress.Embed
