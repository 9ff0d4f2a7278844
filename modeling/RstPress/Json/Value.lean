/-!
JSON values as they are written. A number keeps its spelling, and the fields of an object keep their
order and may repeat. A string is a list of code points, because an escape can name one half of a
surrogate pair alone; such a string is no text.
-/

namespace RstPress

inductive Json where
  | null
  | bool (value : Bool)
  | number (spelling : List Char)
  | string (points : List Nat)
  | array (items : List Json)
  | object (fields : List (List Nat × Json))

namespace Json

def points (text : String) : List Nat := text.toList.map Char.toNat

def isLeading (point : Nat) : Bool := 0xD800 ≤ point && point < 0xDC00

def isTrailing (point : Nat) : Bool := 0xDC00 ≤ point && point < 0xE000

/-- The character that a surrogate pair stands for. -/
def paired (leading trailing : Nat) : Char :=
  Char.ofNat (0x10000 + (leading - 0xD800) * 0x400 + (trailing - 0xDC00))

/-- The characters of a string, if no half of a surrogate pair stands alone. -/
def chars? : List Nat → Option (List Char)
  | [] => some []
  | point :: points =>
    if isLeading point then
      match points with
      | [] => none
      | next :: points => if isTrailing next then (chars? points).map (paired point next :: ·) else none
    else if isTrailing point then none
    else (chars? points).map (Char.ofNat point :: ·)

def text? (points : List Nat) : Option String := (chars? points).map String.ofList

def text (value : String) : Json := .string (points value)

def natural (value : Nat) : Json := .number (Nat.toDigits 10 value)

/-- The value of a number written with digits only. -/
def natural? (spelling : List Char) : Option Nat :=
  if !spelling.isEmpty && spelling.all Char.isDigit then
    some (spelling.foldl (fun value digit => value * 10 + (digit.toNat - '0'.toNat)) 0)
  else none

def member (key : String) (value : Json) : List Nat × Json := (points key, value)

end Json

end RstPress
