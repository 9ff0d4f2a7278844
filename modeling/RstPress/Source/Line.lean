import RstPress.Text.Blank

/-!
A source is read line by line. Tabs become spaces up to the next stop, blank characters at the end of
a line are dropped, and the spaces in front of the text are kept as a number. Everything that follows
works on these lines only.
-/

namespace RstPress.Source
open Text

/-- A line of text, the number of spaces in front of it, and its place in the source, counted from 1. -/
structure Line where
  indent : Nat
  text : List Char
  number : Nat
deriving DecidableEq, Repr

namespace Line

def isBlank (line : Line) : Bool := line.text.isEmpty

def width (line : Line) : Nat := line.text.length

/-- The line moved left by the given number of columns, or as far as its indentation allows. -/
def dedent (amount : Nat) (line : Line) : Line := { line with indent := line.indent - amount }

/-- The characters of the line, indentation included, and the line feed after it. -/
def written (line : Line) : List Char := List.replicate line.indent ' ' ++ line.text ++ ['\n']

end Line

/-- The pieces between line feeds. What follows the last line feed counts only if it is not empty. -/
def splitLines : List Char → List (List Char)
  | [] => []
  | c :: source =>
    if c = '\n' then [] :: splitLines source
    else match splitLines source with
      | [] => [[c]]
      | first :: others => (c :: first) :: others

/-- Replaces each tab by spaces up to the next multiple of `width`, starting in the given column. -/
def expandTabs (width column : Nat) : List Char → List Char
  | [] => []
  | c :: text =>
    if c = '\t' then
      let gap := width - column % width
      List.replicate gap ' ' ++ expandTabs width (column + gap) text
    else c :: expandTabs width (column + 1) text

/-- A line as it is shown: without tabs and without blank characters at its end. -/
def shown (tabWidth : Nat) (raw : List Char) : List Char := trimEnd (expandTabs tabWidth 0 raw)

def Line.ofText (number : Nat) (text : List Char) : Line where
  indent := (text.takeWhile (· = ' ')).length
  text := text.dropWhile (· = ' ')
  number := number

def numberFrom (number : Nat) : List (List Char) → List Line
  | [] => []
  | text :: others => Line.ofText number text :: numberFrom (number + 1) others

/-- The lines of a source. A tab width of zero counts as one. -/
def lines (tabWidth : Nat) (source : List Char) : List Line :=
  numberFrom 1 ((splitLines source).map (shown (max 1 tabWidth)))

/-- Indentation, text and line end. -/
def Line.weight (line : Line) : Nat := line.indent + line.text.length + 1

/-- The measure by which nested bodies are smaller than the lines that hold them. -/
def weight : List Line → Nat
  | [] => 0
  | line :: lines => line.weight + weight lines

@[simp] theorem weight_nil : weight [] = 0 := rfl

@[simp] theorem weight_cons (line : Line) (lines : List Line) :
    weight (line :: lines) = line.weight + weight lines := rfl

theorem weight_append (front back : List Line) :
    weight (front ++ back) = weight front + weight back := by
  induction front with
  | nil => exact (Nat.zero_add _).symm
  | cons line front ih =>
    simp only [List.cons_append, weight_cons]
    omega

theorem weight_le_of_sublist {some all : List Line} (kept : some.Sublist all) :
    weight some ≤ weight all := by
  induction kept with
  | slnil => exact Nat.le_refl _
  | cons line _ ih => rw [weight_cons]; omega
  | cons_cons line _ ih => simp only [weight_cons]; omega

theorem weight_lt_of_suffix {line : Line} {rest kept : List Line} (suffix : kept <:+ rest) :
    weight kept < weight (line :: rest) := by
  have le := weight_le_of_sublist suffix.sublist
  simp only [weight_cons, Line.weight]
  omega

theorem weight_dedent_le (amount : Nat) (line : Line) : (line.dedent amount).weight ≤ line.weight := by
  simp only [Line.weight, Line.dedent]
  omega

theorem weight_map_dedent_le (amount : Nat) (lines : List Line) :
    weight (lines.map (Line.dedent amount)) ≤ weight lines := by
  induction lines with
  | nil => exact Nat.le_refl _
  | cons line lines ih =>
    have first := weight_dedent_le amount line
    simp only [List.map_cons, weight_cons]
    omega

/-- Moving lines left makes them lighter if one of them gives way. -/
theorem weight_map_dedent_lt {amount : Nat} (moves : 0 < amount) {line : Line} (inset : 0 < line.indent)
    {lines : List Line} (member : line ∈ lines) :
    weight (lines.map (Line.dedent amount)) < weight lines := by
  induction lines with
  | nil => simp at member
  | cons first lines ih =>
    simp only [List.map_cons, weight_cons]
    rcases List.mem_cons.mp member with rfl | later
    · have others := weight_map_dedent_le amount lines
      simp only [Line.weight, Line.dedent]
      omega
    · have here := weight_dedent_le amount first
      have others := ih later
      omega

end RstPress.Source
