import RstPress.Source.Line

/-!
A line block keeps the line breaks of its source: each of its lines begins with a bar. Deeper
indentation after the bar makes nested blocks. In a block the least indented entries are its lines, and
each maximal run of deeper entries between them is a block of its own.
-/

namespace RstPress.Layout
open Source

/-- A line of a line block: its indentation after the bar, its text, and the source line it begins on. -/
structure Entry where
  indent : Nat
  text : List Char
  number : Nat
deriving DecidableEq, Repr

/-- What follows the bar and the space after it. -/
def barContent? : List Char → Option (List Char)
  | [] => none
  | c :: after =>
    if c = '|' then
      match after with
      | [] => some []
      | d :: content => if d = ' ' then some content else none
    else none

/-- The content of a line at the left margin that begins with a bar. -/
def barAt? (line : Line) : Option (List Char) := if line.indent = 0 then barContent? line.text else none

def continuesEntry (line : Line) : Bool := !line.isBlank && decide (0 < line.indent)

/-- Joins the lines to the text, with a space in between unless the text is still empty. -/
def joinLines (text : List Char) (lines : List Line) : List Char :=
  lines.foldl (fun text line => (if text.isEmpty then text else text ++ [' ']) ++ line.text) text

/-- The text of an entry is what follows the spaces after its bar. -/
def entryText (content : List Char) : List Char := content.dropWhile (· = ' ')

/-- The indentation of an entry. Without text it is that of the entry above. -/
def entryIndent (above : Nat) (content : List Char) : Nat :=
  if (entryText content).isEmpty then above else (content.takeWhile (· = ' ')).length

/-- Takes entries from the front of the lines, and the indented lines that continue them. An entry
without text is indented like the one above it, whose indentation is given for the first. -/
def entries (above : Nat) : List Line → List Entry × List Line
  | [] => ([], [])
  | line :: rest =>
    match barAt? line with
    | none => ([], line :: rest)
    | some content =>
      let indent := entryIndent above content
      let (others, remaining) := entries indent (rest.dropWhile continuesEntry)
      (⟨indent, joinLines (entryText content) (rest.takeWhile continuesEntry), line.number⟩ :: others,
        remaining)
termination_by lines => lines.length
decreasing_by
  have shorter := (List.dropWhile_sublist continuesEntry (l := rest)).length_le
  simp only [List.length_cons]
  omega

@[simp] theorem entries_nil (above : Nat) : entries above [] = ([], []) := by rw [entries]

theorem entries_of_no_bar {line : Line} (above : Nat) (rest : List Line) (none : barAt? line = none) :
    entries above (line :: rest) = ([], line :: rest) := by
  rw [entries]
  simp only [none]

theorem entries_of_bar {line : Line} {content : List Char} (above : Nat) (rest : List Line)
    (bar : barAt? line = some content) :
    entries above (line :: rest) =
      let found := entries (entryIndent above content) (rest.dropWhile continuesEntry)
      (⟨entryIndent above content, joinLines (entryText content) (rest.takeWhile continuesEntry),
        line.number⟩ :: found.1, found.2) := by
  rw [entries]
  simp only [bar]

theorem entries_suffix (above : Nat) (lines : List Line) : (entries above lines).2 <:+ lines := by
  fun_induction entries above lines with
  | case1 => exact List.suffix_refl _
  | case2 => exact List.suffix_refl _
  | case3 above line rest content marked indent others remaining taken ih =>
    rw [taken] at ih
    exact (ih.trans (List.dropWhile_suffix _)).trans (List.suffix_cons line rest)

/-- An entry takes at least its own line. -/
theorem entries_suffix_of_isSome {above : Nat} {line : Line} {rest : List Line} (marked : (barAt? line).isSome) :
    (entries above (line :: rest)).2 <:+ rest := by
  obtain ⟨content, found⟩ := Option.isSome_iff_exists.mp marked
  rw [entries_of_bar above rest found]
  exact (entries_suffix _ _).trans (List.dropWhile_suffix _)

/-- The lines of a line block, nested by their indentation. -/
inductive Verse where
  | line (entry : Entry)
  | block (lines : List Verse)

def leastIndent (entries : List Entry) : Nat := ((entries.map Entry.indent).min?).getD 0

theorem lt_leastIndent {base : Nat} {entries : List Entry} (filled : entries ≠ [])
    (deeper : ∀ entry ∈ entries, base < entry.indent) : base < leastIndent entries := by
  unfold leastIndent
  cases least : (entries.map Entry.indent).min? with
  | none => simp [filled] at least
  | some indent =>
    obtain ⟨entry, member, rfl⟩ := List.mem_map.mp (List.min?_mem least)
    exact deeper entry member

/-- How much deeper than the base the entries are. It bounds the nesting. -/
def excess (base : Nat) : List Entry → Nat
  | [] => 0
  | entry :: entries => entry.indent - base + 1 + excess base entries

theorem excess_cons (base : Nat) (entry : Entry) (entries : List Entry) :
    excess base (entry :: entries) = entry.indent - base + 1 + excess base entries := rfl

theorem excess_le_of_sublist (base : Nat) {some all : List Entry} (kept : some.Sublist all) :
    excess base some ≤ excess base all := by
  induction kept with
  | slnil => exact Nat.le_refl _
  | cons entry _ ih => rw [excess_cons]; omega
  | cons_cons entry _ ih => simp only [excess_cons]; omega

theorem excess_le_of_le {base deeper : Nat} (le : base ≤ deeper) (entries : List Entry) :
    excess deeper entries ≤ excess base entries := by
  induction entries with
  | nil => exact Nat.le_refl _
  | cons entry entries ih => simp only [excess_cons]; omega

/-- Nests entries: those no deeper than the base become lines, runs of deeper ones become blocks. -/
def nest (base : Nat) : List Entry → List Verse
  | [] => []
  | entry :: others =>
    if entry.indent ≤ base then .line entry :: nest base others
    else
      let run := entry :: others.takeWhile fun e => base < e.indent
      .block (nest (leastIndent run) run) :: nest base (others.dropWhile fun e => base < e.indent)
termination_by entries => excess base entries
decreasing_by
  · rw [excess_cons]
    omega
  · have lower : base < leastIndent (entry :: others.takeWhile fun e => base < e.indent) := by
      refine lt_leastIndent (by simp) fun e member => ?_
      rcases List.mem_cons.mp member with rfl | later
      · omega
      · simpa using List.all_eq_true.mp List.all_takeWhile e later
    have kept := excess_le_of_sublist base
      (List.takeWhile_sublist (fun e : Entry => decide (base < e.indent)) (l := others))
    have inner := excess_le_of_le (Nat.le_of_lt lower) (others.takeWhile fun e => base < e.indent)
    simp only [excess_cons]
    omega
  · have kept := excess_le_of_sublist base
      (List.dropWhile_sublist (fun e : Entry => decide (base < e.indent)) (l := others))
    rw [excess_cons]
    omega

/-- The nested lines of the whole block. -/
def verses (entries : List Entry) : List Verse := nest (leastIndent entries) entries

end RstPress.Layout
