import RstPress.Source.Inset
import RstPress.Text.Punctuation

/-!
List items begin with a marker: a bullet or an enumerator, and the spaces after it. The text of an item
is what follows the marker on its line, and the inset block below that line.
-/

namespace RstPress.Layout
open Text Source

/-- How the items of one list begin. Bullets of one list are the same character; enumerators of one
list may differ. -/
inductive Marker where
  | bullet (mark : Char)
  | enumerator
deriving DecidableEq, Repr

/-- The width of a marker of the given length with the spaces after it. It must be followed by a space
or end the line. -/
def spacedWidth? (length : Nat) (after : List Char) : Option Nat :=
  let spaces := (after.takeWhile (· = ' ')).length
  if after.isEmpty || 0 < spaces then some (length + spaces) else none

def isBullet (c : Char) : Bool := c = '-' || c = '*' || c = '+'

def isEnumeratorChar (c : Char) : Bool := c.isAlphanum || c = '#'

def isLowerRoman (c : Char) : Bool := "ivxlcdm".toList.contains c

def isUpperRoman (c : Char) : Bool := "IVXLCDM".toList.contains c

/-- Digits, one letter, a Roman numeral in letters of one case, or the sign for automatic numbering. -/
def isOrdinal (label : List Char) : Bool :=
  !label.isEmpty && (label.all Char.isDigit || (label.length = 1 && label.all Char.isAlpha)
    || label.all isLowerRoman || label.all isUpperRoman || label = ['#'])

/-- The width of an enumerator: an ordinal in parentheses, or followed by a period or a parenthesis. -/
def enumeratorWidth? : List Char → Option Nat
  | [] => none
  | c :: text =>
    let opened := decide (c = '(')
    let body := if opened then text else c :: text
    let label := body.takeWhile isEnumeratorChar
    match body.dropWhile isEnumeratorChar with
    | [] => none
    | close :: after =>
      if isOrdinal label && (close = ')' || (close = '.' && !opened)) then
        spacedWidth? ((if opened then 2 else 1) + label.length) after
      else none

def Marker.width? : Marker → List Char → Option Nat
  | _, [] => none
  | .bullet mark, c :: after => if c = mark && isBullet c then spacedWidth? 1 after else none
  | .enumerator, text => enumeratorWidth? text

/-- The width of the marker with which a line at the left margin begins an item. -/
def Marker.at? (marker : Marker) (line : Line) : Option Nat :=
  if line.indent = 0 then marker.width? line.text else none

/-- The bullet with which a line begins, if it begins a list item. -/
def bullet? (text : List Char) : Option Marker :=
  match text with
  | [] => none
  | c :: _ => if ((Marker.bullet c).width? text).isSome then some (.bullet c) else none

/-- The lines of an item: what follows the marker, and the block below moved left by the width of the
marker. If nothing follows the marker, the block alone is moved to its own margin. -/
def itemBody (width : Nat) (line : Line) (block : List Line) : List Line :=
  let text := trimStart (line.text.drop width)
  let below := block.map (Line.dedent width)
  if text.isEmpty then dedentBlock below else ⟨0, text, line.number⟩ :: below

/-- Takes items with the given marker from the front of the lines; blank lines may stand between them. -/
def listItems (marker : Marker) : List Line → List (List Line) × List Line
  | [] => ([], [])
  | line :: rest =>
    match marker.at? line with
    | none => ([], line :: rest)
    | some width =>
      let (items, remaining) := listItems marker (skipBlank (afterInset rest))
      (itemBody width line (insetBlock rest) :: items, remaining)
termination_by lines => lines.length
decreasing_by
  have first := length_skipBlank_le (afterInset rest)
  have second := length_afterInset_le rest
  simp only [List.length_cons]
  omega

@[simp] theorem listItems_nil (marker : Marker) : listItems marker [] = ([], []) := by rw [listItems]

theorem listItems_of_marked {marker : Marker} {line : Line} {width : Nat} (rest : List Line)
    (marked : marker.at? line = some width) :
    listItems marker (line :: rest) =
      (itemBody width line (insetBlock rest) :: (listItems marker (skipBlank (afterInset rest))).1,
        (listItems marker (skipBlank (afterInset rest))).2) := by
  rw [listItems]
  simp only [marked]

theorem listItems_of_unmarked {marker : Marker} {line : Line} (rest : List Line)
    (unmarked : marker.at? line = none) : listItems marker (line :: rest) = ([], line :: rest) := by
  rw [listItems]
  simp only [unmarked]

theorem isPunctuation_of_isBullet {c : Char} (bullet : isBullet c) : isPunctuation c := by
  simp only [isBullet, Bool.or_eq_true, decide_eq_true_eq] at bullet
  rcases bullet with (rfl | rfl) | rfl <;> decide

theorem isBullet_of_not_isPunctuation {c : Char} (plain : isPunctuation c = false) :
    isBullet c = false := by
  rw [← Bool.not_eq_true] at plain ⊢
  exact mt isPunctuation_of_isBullet plain

theorem le_of_spacedWidth? {length width : Nat} {after : List Char}
    (found : spacedWidth? length after = some width) : length ≤ width := by
  simp only [spacedWidth?, Option.ite_none_right_eq_some, Option.some.injEq] at found
  omega

theorem enumeratorWidth?_pos {text : List Char} {width : Nat} (found : enumeratorWidth? text = some width) :
    0 < width := by
  unfold enumeratorWidth? at found
  split at found
  · simp at found
  · dsimp only at found
    split at found
    · simp at found
    · rw [Option.ite_none_right_eq_some] at found
      have least := le_of_spacedWidth? found.2
      split at least <;> omega

theorem Marker.width?_pos {marker : Marker} {text : List Char} {width : Nat}
    (found : marker.width? text = some width) : 0 < width := by
  unfold Marker.width? at found
  split at found
  · simp at found
  · split at found
    · exact le_of_spacedWidth? found
    · simp at found
  · exact enumeratorWidth?_pos found

theorem Marker.at?_pos {marker : Marker} {line : Line} {width : Nat} (found : marker.at? line = some width) :
    0 < width :=
  Marker.width?_pos (Option.ite_none_right_eq_some.mp found).2

theorem weight_itemBody_lt {width : Nat} (wide : 0 < width) (line : Line) (block : List Line) :
    weight (itemBody width line block) < weight (line :: block) := by
  have moved := weight_map_dedent_le width block
  simp only [itemBody]
  split
  · have placed := weight_dedentBlock_le (block.map (Line.dedent width))
    simp only [weight_cons, Line.weight]
    omega
  · rename_i shown
    have cut : (trimStart (line.text.drop width)).length ≤ line.text.length - width := by
      have shorter := (List.dropWhile_sublist isBlank (l := line.text.drop width)).length_le
      simpa [trimStart] using shorter
    have visible : 0 < (trimStart (line.text.drop width)).length := by
      rw [List.length_pos_iff]
      simpa using shown
    simp only [weight_cons, Line.weight]
    omega

/-- Every item is lighter than the lines that hold the list, and so are the lines after the list,
provided that the list has an item. -/
theorem weight_listItems (marker : Marker) (lines : List Line) :
    (∀ body ∈ (listItems marker lines).1, weight body < weight lines) ∧
      weight (listItems marker lines).2 ≤ weight lines ∧
      ((listItems marker lines).1 ≠ [] → weight (listItems marker lines).2 < weight lines) := by
  fun_induction listItems marker lines with
  | case1 => simp
  | case2 line rest unmarked => simp
  | case3 line rest width marked items remaining taken ih =>
    have positive : 0 < width := Marker.at?_pos marked
    have here := weight_itemBody_lt positive line (insetBlock rest)
    have parts := weight_afterInset rest
    have skipped := weight_skipBlank_le (afterInset rest)
    simp only [taken] at ih
    simp only [weight_cons, List.mem_cons] at here ⊢
    refine ⟨?_, by omega, fun _ => ?_⟩
    · rintro body (rfl | later)
      · omega
      · have lighter := ih.1 body later
        omega
    · have heavy : 0 < line.weight := by simp [Line.weight]
      omega

theorem listItems_ne_nil {marker : Marker} {line : Line} {rest : List Line}
    (marked : (marker.at? line).isSome) : (listItems marker (line :: rest)).1 ≠ [] := by
  obtain ⟨width, found⟩ := Option.isSome_iff_exists.mp marked
  rw [listItems_of_marked rest found]
  exact List.cons_ne_nil _ _

end RstPress.Layout
