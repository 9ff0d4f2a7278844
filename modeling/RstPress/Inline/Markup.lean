import RstPress.Text.Blank

/-!
Inline markup is text between delimiters. A delimiter counts only at the border of a word: the rules
for the characters around it are kept here, and the search for the place where the markup ends.
-/

namespace RstPress.Inline
open Text

inductive Markup where
  | literal
  | strong
  | emphasis
  | interpreted
deriving DecidableEq, Repr

/-- The delimiter that begins the markup and ends it. -/
def Markup.delimiter : Markup → List Char
  | .literal => ['\x60', '\x60']
  | .strong => ['*', '*']
  | .emphasis => ['*']
  | .interpreted => ['\x60']

/-- In a literal the backslash is a character like any other. -/
def Markup.escapes (markup : Markup) : Bool := markup ≠ .literal

/-- The markup whose delimiter the text begins with; doubled delimiters come first. -/
def Markup.first? (text : List Char) : Option Markup :=
  [Markup.literal, .strong, .emphasis, .interpreted].find? fun markup =>
    markup.delimiter.isPrefixOf text

def openers : List Char := "'\"([\x7b<-/:".toList

def closers : List Char := "-.,:;!?\\/'\")]\x7d>".toList

/-- Markup begins a text, or stands after a blank or an opening punctuation character. -/
def mayBegin : Option Char → Bool
  | none => true
  | some before => isBlank before || openers.contains before

/-- Markup ends a text, or stands before a blank or a closing punctuation character. -/
def mayEnd : List Char → Bool
  | [] => true
  | next :: _ => isBlank next || closers.contains next

/-- The character that closes a pair of quotes or brackets. -/
def partner? (c : Char) : Option Char :=
  if c = '\'' then some '\''
  else if c = '"' then some '"'
  else if c = '(' then some ')'
  else if c = '[' then some ']'
  else if c = '\x7b' then some '\x7d'
  else if c = '<' then some '>'
  else none

/-- The content of markup must not begin with a blank, and a delimiter must not stand alone in a pair
of quotes or brackets. -/
def contentMayBegin (before : Option Char) : List Char → Bool
  | [] => false
  | next :: _ => !isBlank next && (before.bind partner?) ≠ some next

def isRoleChar (c : Char) : Bool := c.isAlphanum || c = '_' || c = '-' || c = '.' || c = '+'

/-- A role is a name between colons. Gives the name and the text after the second colon. -/
def role? : List Char → Option (List Char × List Char)
  | [] => none
  | c :: text =>
    match text.dropWhile isRoleChar with
    | [] => none
    | close :: rest =>
      let name := text.takeWhile isRoleChar
      if c = ':' && close = ':' && !name.isEmpty then some (name, rest) else none

/-- What stands directly after interpreted text and belongs to it. -/
inductive Suffix where
  | nothing
  | reference
  | role (name : List Char)
deriving DecidableEq, Repr

/-- The suffix in front of the text, and the text after it. -/
def suffix (text : List Char) : Suffix × List Char :=
  match role? text with
  | some (name, rest) => (.role name, rest)
  | none =>
    match text with
    | [] => (.nothing, [])
    | c :: rest =>
      if c = '_' then
        match rest with
        | [] => (.reference, [])
        | d :: more => (.reference, if d = '_' then more else d :: more)
      else (.nothing, c :: rest)

/-- Whether markup may end in front of the text; interpreted text may have a suffix there. -/
def Markup.mayEndBefore (markup : Markup) (text : List Char) : Bool :=
  mayEnd (if markup = .interpreted then (suffix text).2 else text)

/-- Splits the text at the first delimiter that ends the markup: the content in front of it, and the
text after it. `last` is the character read last, if any; a character after a backslash is content. -/
def Markup.close? (markup : Markup) (last : Option Char) : List Char → Option (List Char × List Char)
  | [] => none
  | c :: text =>
    if markup.escapes && c = '\\' then
      match text with
      | [] => none
      | d :: text => (markup.close? (some d) text).map fun found => (c :: d :: found.1, found.2)
    else
      match markup.delimiter.isPrefixOf? (c :: text) with
      | some after =>
        if (last.any fun d => !isBlank d) && markup.mayEndBefore after then some ([], after)
        else (markup.close? (some c) text).map fun found => (c :: found.1, found.2)
      | none => (markup.close? (some c) text).map fun found => (c :: found.1, found.2)

/-- Takes the backslashes out of a content: an escaped space goes with its backslash. -/
def unescape : List Char → List Char
  | [] => []
  | c :: text =>
    if c = '\\' then
      match text with
      | [] => []
      | d :: text => if d = ' ' then unescape text else d :: unescape text
    else c :: unescape text

theorem isPrefixOf?_eq_some_iff {front text rest : List Char} :
    front.isPrefixOf? text = some rest ↔ text = front ++ rest := by
  induction front generalizing text with
  | nil =>
    change some text = some rest ↔ text = [] ++ rest
    simp
  | cons c front ih =>
    cases text with
    | nil =>
      change none = some rest ↔ [] = c :: front ++ rest
      simp
    | cons d text =>
      change (if c == d then front.isPrefixOf? text else none) = some rest ↔ _
      by_cases same : c = d
      · simp [same, ih]
      · simp [same, Ne.symm same]

end RstPress.Inline
