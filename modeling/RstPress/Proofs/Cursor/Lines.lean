import RstPress.Proofs.Cursor.Access
import RstPress.Proofs.Extension.Source
import RstPress.Proofs.Text

/-!
Lines with checked arithmetic. The gap of a tab is a difference, and so is the indentation of a line: the
size of its text less that of its content. Neither is ever negative.
-/

namespace RstPress.Cursor
open Text Source

def remainder? (a b : Nat) : Option Nat := if b = 0 then none else some (a % b)

/-- Tabs replaced by spaces up to the next stop, the gap being a difference. -/
def expandTabs? (width column : Nat) : List Char → Option (List Char)
  | [] => some []
  | c :: text =>
    if c = '\t' then do
      let used ← remainder? column width
      let gap ← difference? width used
      let others ← expandTabs? width (column + gap) text
      return List.replicate gap ' ' ++ others
    else do
      let others ← expandTabs? width (column + 1) text
      return c :: others

/-- A line whose indentation is the size of its text less that of its content. -/
def line? (number : Nat) (text : List Char) : Option Line := do
  let content := text.dropWhile (· = ' ')
  let indent ← difference? (bytes text) (bytes content)
  return ⟨if content.isEmpty then 0 else indent, content, number⟩

def linesFrom? (tabWidth number : Nat) : List (List Char) → Option (List Line)
  | [] => some []
  | raw :: others => do
    let expanded ← expandTabs? tabWidth 0 raw
    let line ← line? number (trimEnd expanded)
    let lines ← linesFrom? tabWidth (number + 1) others
    return line :: lines

def lines? (tabWidth : Nat) (source : List Char) : Option (List Line) :=
  linesFrom? (max 1 tabWidth) 1 (splitLines source)

theorem expandTabs?_eq {width : Nat} (positive : 0 < width) (column : Nat) (text : List Char) :
    expandTabs? width column text = some (expandTabs width column text) := by
  induction text generalizing column with
  | nil => rfl
  | cons c text ih =>
    have used : column % width ≤ width := (Nat.mod_lt column positive).le
    rw [expandTabs?, expandTabs]
    split
    · rw [remainder?, if_neg (by omega), Option.bind_eq_bind, Option.bind_some, difference?_of_le used]
      simp only [Option.bind_eq_bind, Option.bind_some, ih]
      rfl
    · rw [ih]
      rfl

theorem bytes_replicate_space (count : Nat) : bytes (List.replicate count ' ') = count := by
  induction count with
  | zero => rfl
  | succ count ih => rw [List.replicate_succ, bytes, ih, Nat.add_comm]; rfl

/-- A text is longer than its content by the spaces in front of it. -/
theorem difference?_content (text : List Char) :
    difference? (bytes text) (bytes (text.dropWhile (· = ' '))) = some (text.takeWhile (· = ' ')).length := by
  have size : bytes text = (text.takeWhile (· = ' ')).length + bytes (text.dropWhile (· = ' ')) := by
    conv => lhs; rw [← List.takeWhile_append_dropWhile (p := (· = ' ')) (l := text), bytes_append,
      takeWhile_eq_replicate, bytes_replicate_space]
  rw [size, difference?_add]

/-- Trimmed text has no spaces in front if it has no other characters. -/
theorem takeWhile_trimEnd_of_dropWhile_eq_nil {text : List Char}
    (spaces : (trimEnd text).dropWhile (· = ' ') = []) : (trimEnd text).takeWhile (· = ' ') = [] := by
  rcases trimEnd_ends text with none | ⟨front, last, same, visible⟩
  · rw [none]
    rfl
  · have member : last ∈ trimEnd text := same ▸ List.mem_append_right front List.mem_cons_self
    have space : last = ' ' := by simpa using List.dropWhile_eq_nil_iff.mp spaces last member
    rw [space] at visible
    cases visible

theorem line?_shown (number tabWidth : Nat) (raw : List Char) :
    line? number (shown tabWidth raw) = some (Line.ofText number (shown tabWidth raw)) := by
  rw [line?, difference?_content]
  by_cases spaces : (shown tabWidth raw).dropWhile (· = ' ') = []
  · have none := takeWhile_trimEnd_of_dropWhile_eq_nil spaces
    simp [Line.ofText, shown, none]
  · simp [Line.ofText, spaces]

theorem linesFrom?_eq {tabWidth : Nat} (positive : 0 < tabWidth) (number : Nat) (raws : List (List Char)) :
    linesFrom? tabWidth number raws = some (numberFrom number (raws.map (shown tabWidth))) := by
  induction raws generalizing number with
  | nil => rfl
  | cons raw raws ih =>
    have first := line?_shown number tabWidth raw
    rw [shown] at first
    rw [linesFrom?, expandTabs?_eq positive, Option.bind_eq_bind, Option.bind_some, first, ih]
    rfl

/-- Cutting a source into lines never subtracts too much. -/
theorem lines?_eq (tabWidth : Nat) (source : List Char) : lines? tabWidth source = some (lines tabWidth source) :=
  linesFrom?_eq (Nat.lt_of_lt_of_le Nat.zero_lt_one (Nat.le_max_left 1 tabWidth)) 1 _

end RstPress.Cursor
