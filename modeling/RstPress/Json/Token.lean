import RstPress.Json.Value

/-!
JSON text is first cut into tokens. White space between them is a space, a tab, a carriage return or a
line feed and nothing else.
-/

namespace RstPress.Json

inductive Token where
  | openArray
  | closeArray
  | openObject
  | closeObject
  | comma
  | colon
  | null
  | bool (value : Bool)
  | number (spelling : List Char)
  | string (points : List Nat)
deriving DecidableEq

def isSpace (c : Char) : Bool := c = ' ' || c = '\t' || c = '\r' || c = '\n'

def hexValue? (c : Char) : Option Nat :=
  if c.isDigit then some (c.toNat - '0'.toNat)
  else if 'a' ≤ c && c ≤ 'f' then some (c.toNat - 'a'.toNat + 10)
  else if 'A' ≤ c && c ≤ 'F' then some (c.toNat - 'A'.toNat + 10)
  else none

def hexPoint? (a b c d : Char) : Option Nat := do
  return (((← hexValue? a) * 16 + (← hexValue? b)) * 16 + (← hexValue? c)) * 16 + (← hexValue? d)

/-- The code point that a letter after a backslash stands for. -/
def unescapeLetter? (letter : Char) : Option Nat :=
  if letter = '"' then some 0x22
  else if letter = '\\' then some 0x5C
  else if letter = '/' then some 0x2F
  else if letter = 'b' then some 0x08
  else if letter = 'f' then some 0x0C
  else if letter = 'n' then some 0x0A
  else if letter = 'r' then some 0x0D
  else if letter = 't' then some 0x09
  else none

/-- Reads a string after its opening quote: its code points, and the text after its closing quote. -/
def readString : List Char → Option (List Nat × List Char)
  | [] => none
  | c :: text =>
    if c = '"' then some ([], text)
    else if c = '\\' then
      match text with
      | [] => none
      | letter :: text =>
        if letter = 'u' then
          match text with
          | w :: x :: y :: z :: text =>
            (hexPoint? w x y z).bind fun point =>
              (readString text).map fun found => (point :: found.1, found.2)
          | _ => none
        else
          (unescapeLetter? letter).bind fun point =>
            (readString text).map fun found => (point :: found.1, found.2)
    else if c.toNat < 0x20 then none
    else (readString text).map fun found => (c.toNat :: found.1, found.2)

def isNumberChar (c : Char) : Bool := c.isDigit || c = '+' || c = '-' || c = '.' || c = 'e' || c = 'E'

def isDigits (text : List Char) : Bool := !text.isEmpty && text.all Char.isDigit

/-- An exponent, or nothing. -/
def isExponent : List Char → Bool
  | [] => true
  | c :: text =>
    (c = 'e' || c = 'E') && isDigits (match text with
      | [] => []
      | sign :: digits => if sign = '+' || sign = '-' then digits else sign :: digits)

/-- A fraction and an exponent, each of which may be missing. -/
def isFraction : List Char → Bool
  | [] => true
  | c :: text =>
    if c = '.' then !(text.takeWhile Char.isDigit).isEmpty && isExponent (text.dropWhile Char.isDigit)
    else isExponent (c :: text)

/-- A number without a sign. It has no zero in front of other digits. -/
def isUnsigned (text : List Char) : Bool :=
  let digits := text.takeWhile Char.isDigit
  isDigits digits && (digits.head? ≠ some '0' || digits.length = 1) && isFraction (text.dropWhile Char.isDigit)

def isNumber : List Char → Bool
  | [] => false
  | c :: text => if c = '-' then isUnsigned text else isUnsigned (c :: text)

def punctuation? (c : Char) : Option Token :=
  if c = '[' then some .openArray
  else if c = ']' then some .closeArray
  else if c = '\x7b' then some .openObject
  else if c = '\x7d' then some .closeObject
  else if c = ',' then some .comma
  else if c = ':' then some .colon
  else none

def keyword? (word : List Char) : Option Token :=
  if word = "null".toList then some .null
  else if word = "true".toList then some (.bool true)
  else if word = "false".toList then some (.bool false)
  else none

theorem length_readString_lt {text rest : List Char} {points : List Nat}
    (found : readString text = some (points, rest)) : rest.length < text.length := by
  fun_induction readString text generalizing points with
  | case1 => simp at found
  | case2 =>
    simp only [Option.some.injEq, Prod.mk.injEq] at found
    simp [found.2]
  | case3 => simp at found
  | case4 _ w x y z text ih =>
    obtain ⟨point, _, read⟩ := Option.bind_eq_some_iff.mp found
    obtain ⟨inner, later, same⟩ := Option.map_eq_some_iff.mp read
    have shorter := ih (later.trans (congrArg some (Prod.ext rfl (Prod.mk.inj same).2)))
    simp only [List.length_cons]
    omega
  | case5 => simp at found
  | case6 _ letter text _ ih =>
    obtain ⟨point, _, read⟩ := Option.bind_eq_some_iff.mp found
    obtain ⟨inner, later, same⟩ := Option.map_eq_some_iff.mp read
    have shorter := ih (later.trans (congrArg some (Prod.ext rfl (Prod.mk.inj same).2)))
    simp only [List.length_cons]
    omega
  | case7 => simp at found
  | case8 c text _ _ _ ih =>
    obtain ⟨inner, later, same⟩ := Option.map_eq_some_iff.mp found
    have shorter := ih (later.trans (congrArg some (Prod.ext rfl (Prod.mk.inj same).2)))
    simp only [List.length_cons]
    omega

/-- The tokens of a text. -/
def tokens : List Char → Option (List Token)
  | [] => some []
  | c :: text =>
    if isSpace c then tokens text
    else if c = '"' then
      match _found : readString text with
      | none => none
      | some (points, rest) => (tokens rest).map (.string points :: ·)
    else if c.isDigit || c = '-' then
      let number := c :: text.takeWhile isNumberChar
      if isNumber number then (tokens (text.dropWhile isNumberChar)).map (.number number :: ·) else none
    else if c.isAlpha then
      match keyword? (c :: text.takeWhile Char.isAlpha) with
      | none => none
      | some word => (tokens (text.dropWhile Char.isAlpha)).map (word :: ·)
    else
      match punctuation? c with
      | none => none
      | some mark => (tokens text).map (mark :: ·)
termination_by text => text.length
decreasing_by
  · simp
  · exact Nat.lt_succ_of_lt (length_readString_lt _found)
  · exact Nat.lt_succ_of_le (List.dropWhile_sublist _).length_le
  · exact Nat.lt_succ_of_le (List.dropWhile_sublist _).length_le
  · simp

end RstPress.Json
