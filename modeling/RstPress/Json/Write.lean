import RstPress.Json.Value

/-!
JSON text is written in two styles: without any space, or with each item and field on a line of its
own, indented by two spaces for each level. Both spell strings and numbers alike.
-/

namespace RstPress.Json

inductive Style where
  | pretty
  | compact
deriving DecidableEq, Repr

def hexDigit (value : Nat) : Char := Nat.digitChar (value % 16)

/-- The escape that names a code point below 0x10000 by four digits. -/
def hexEscape (point : Nat) : List Char :=
  ['\\', 'u', hexDigit (point / 0x1000), hexDigit (point / 0x100), hexDigit (point / 0x10), hexDigit point]

/-- The letter that stands for a code point after a backslash, where there is one. -/
def escapeLetter? (point : Nat) : Option Char :=
  if point = 0x22 then some '"'
  else if point = 0x5C then some '\\'
  else if point = 0x08 then some 'b'
  else if point = 0x0C then some 'f'
  else if point = 0x0A then some 'n'
  else if point = 0x0D then some 'r'
  else if point = 0x09 then some 't'
  else none

/-- A code point within a string: control characters, quotes, backslashes and lone halves of surrogate
pairs are escaped, and everything else stands for itself. -/
def writePoint (point : Nat) : List Char :=
  match escapeLetter? point with
  | some letter => ['\\', letter]
  | none =>
    if point < 0x20 || isLeading point || isTrailing point then hexEscape point else [Char.ofNat point]

def writeString (points : List Nat) : List Char := '"' :: (points.flatMap writePoint ++ ['"'])

/-- What stands in front of an item on the given level. -/
def Style.newline (style : Style) (level : Nat) : List Char :=
  match style with
  | .compact => []
  | .pretty => '\n' :: List.replicate (2 * level) ' '

def Style.colon : Style → List Char
  | .compact => [':']
  | .pretty => [':', ' ']

mutual

def write (style : Style) (level : Nat) : Json → List Char
  | .null => "null".toList
  | .bool true => "true".toList
  | .bool false => "false".toList
  | .number spelling => spelling
  | .string points => writeString points
  | .array [] => ['[', ']']
  | .array (item :: items) =>
    '[' :: (style.newline (level + 1) ++ write style (level + 1) item ++ writeItems style (level + 1) items ++
      style.newline level ++ [']'])
  | .object [] => ['\x7b', '\x7d']
  | .object ((key, value) :: fields) =>
    '\x7b' :: (style.newline (level + 1) ++ writeString key ++ style.colon ++ write style (level + 1) value ++
      writeFields style (level + 1) fields ++ style.newline level ++ ['\x7d'])

/-- The items after the first one. -/
def writeItems (style : Style) (level : Nat) : List Json → List Char
  | [] => []
  | item :: items => ',' :: (style.newline level ++ write style level item ++ writeItems style level items)

/-- The fields after the first one. -/
def writeFields (style : Style) (level : Nat) : List (List Nat × Json) → List Char
  | [] => []
  | (key, value) :: fields =>
    ',' :: (style.newline level ++ writeString key ++ style.colon ++ write style level value ++
      writeFields style level fields)

end

/-- The text of a value. -/
def print (style : Style) (value : Json) : String := String.ofList (write style 0 value)

end RstPress.Json
