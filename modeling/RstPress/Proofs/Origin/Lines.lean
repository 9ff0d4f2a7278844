import RstPress.Proofs.Grammar.Layout
import RstPress.Proofs.Stops

/-!
Where the lines of a text come from. A source line is moved left and cut off at the front on its way into
a nested body, it may even be left out, but it keeps its number, and lines never change their order. So
in every text that is arranged, at any depth, a line still tells which line of the source it is from.
-/

namespace RstPress.Source
open Text

/-- The line of the source with this number. Lines are counted from 1. -/
def rawAt? (source : List Char) : Nat → Option (List Char)
  | 0 => none
  | index + 1 => (splitLines source)[index]?

/-- The source has a line of this number, and it is not blank. -/
def IsVisibleAt (source : List Char) (number : Nat) : Prop :=
  ∃ raw, rawAt? source number = some raw ∧ ∃ c ∈ raw, isBlank c = false

/-- The line has the number of a source line and ends what is shown of it. -/
def Line.IsFrom (tabWidth : Nat) (source : List Char) (line : Line) : Prop :=
  ∃ raw, rawAt? source line.number = some raw ∧ line.text <:+ shown (max 1 tabWidth) raw

theorem keeps_isFrom (tabWidth : Nat) (source : List Char) : Line.Keeps (Line.IsFrom tabWidth source) :=
  ⟨fun _ here => here, fun ⟨raw, found, whole⟩ ending _ => ⟨raw, found, ending.trans whole⟩⟩

theorem exists_index_of_mem_numberFrom {texts : List (List Char)} {number : Nat} {line : Line}
    (member : line ∈ numberFrom number texts) :
    ∃ index text, texts[index]? = some text ∧ line = Line.ofText (number + index) text := by
  induction texts generalizing number with
  | nil => cases member
  | cons text texts ih =>
    rcases List.mem_cons.mp member with rfl | later
    · exact ⟨0, text, rfl, rfl⟩
    · obtain ⟨index, found, inside, same⟩ := ih later
      refine ⟨index + 1, found, inside, ?_⟩
      rw [same, Nat.add_right_comm, Nat.add_assoc]

theorem isFrom_of_mem_lines {tabWidth : Nat} {source : List Char} {line : Line}
    (member : line ∈ lines tabWidth source) : line.IsFrom tabWidth source := by
  obtain ⟨index, text, found, rfl⟩ := exists_index_of_mem_numberFrom member
  rw [List.getElem?_map, Option.map_eq_some_iff] at found
  obtain ⟨raw, inside, rfl⟩ := found
  have place : rawAt? source (1 + index) = some raw := by rw [Nat.add_comm, rawAt?, inside]
  exact ⟨raw, place, List.dropWhile_suffix _⟩

/-- What is left of a line is visible only if the source line is. -/
theorem Line.IsFrom.isVisibleAt {tabWidth : Nat} {source : List Char} {line : Line}
    (origin : line.IsFrom tabWidth source) (filled : line.isBlank = false) :
    IsVisibleAt source line.number := by
  obtain ⟨raw, found, ending⟩ := origin
  refine ⟨raw, found, ?_⟩
  cases visible : raw.any fun c => !Text.isBlank c with
  | true => simpa using visible
  | false =>
    have blank : ∀ c ∈ raw, Text.isBlank c := by simpa using visible
    rw [shown_of_isBlank blank, List.suffix_nil] at ending
    rw [Line.isBlank, ending] at filled
    cases filled

/-- The numbers of the lines, in their order. -/
def numbers (lines : List Line) : List Nat := lines.map Line.number

theorem numbers_numberFrom (number : Nat) (texts : List (List Char)) :
    numbers (numberFrom number texts) = List.range' number texts.length := by
  induction texts generalizing number with
  | nil => rfl
  | cons text texts ih =>
    have later := ih (number + 1)
    rw [numbers] at later
    rw [numberFrom, numbers, List.map_cons, later, List.length_cons, List.range'_succ]
    rfl

theorem increasing_lines (tabWidth : Nat) (source : List Char) :
    (numbers (lines tabWidth source)).Pairwise (· < ·) := by
  rw [lines, numbers_numberFrom]
  exact List.pairwise_lt_range'

theorem numbers_map_dedent (amount : Nat) (lines : List Line) :
    numbers (lines.map (Line.dedent amount)) = numbers lines := by
  rw [numbers, List.map_map]
  rfl

theorem numbers_dedentBlock_sublist (lines : List Line) :
    (numbers (dedentBlock lines)).Sublist (numbers lines) := by
  rw [dedentBlock, numbers_map_dedent]
  exact (dropEndWhile_isPrefix Line.isBlank lines).sublist.map _

theorem numbers_insetBlock_sublist (lines : List Line) :
    (numbers (insetBlock lines)).Sublist (numbers lines) :=
  (insetBlock_isPrefix lines).sublist.map _

/-- What an inset block and the blank lines after it leave. -/
theorem numbers_skipBlank_afterInset_sublist (lines : List Line) :
    (numbers (skipBlank (afterInset lines))).Sublist (numbers lines) :=
  ((skipBlank_suffix _).trans (afterInset_suffix lines)).sublist.map _

end RstPress.Source

namespace RstPress.Layout
open Text Source

theorem numbers_itemBody_sublist (width : Nat) (line : Line) (block : List Line) :
    (numbers (itemBody width line block)).Sublist (numbers (line :: block)) := by
  simp only [itemBody]
  split
  · have moved := numbers_dedentBlock_sublist (block.map (Line.dedent width))
    rw [numbers_map_dedent] at moved
    exact moved.cons line.number
  · have moved := numbers_map_dedent width block
    rw [numbers] at moved
    rw [numbers, List.map_cons, moved]
    exact List.Sublist.refl _

theorem numbers_listItems_sublist (marker : Marker) (lines : List Line) :
    ∀ body ∈ (listItems marker lines).1, (numbers body).Sublist (numbers lines) := by
  fun_induction listItems marker lines with
  | case1 => exact List.forall_mem_nil _
  | case2 => exact List.forall_mem_nil _
  | case3 line rest width marked items remaining taken ih =>
    rw [taken] at ih
    refine List.forall_mem_cons.mpr ⟨?_, fun body member => ?_⟩
    · exact (numbers_itemBody_sublist width line _).trans
        ((numbers_insetBlock_sublist rest).cons_cons line.number)
    · exact ((ih body member).trans (numbers_skipBlank_afterInset_sublist rest)).cons line.number

theorem numbers_definitions_sublist (lines : List Line) :
    ∀ item ∈ (definitions lines).1, (numbers item.2).Sublist (numbers lines) := by
  fun_induction definitions lines with
  | case1 => exact List.forall_mem_nil _
  | case2 term rest starts items remaining taken ih =>
    rw [taken] at ih
    refine List.forall_mem_cons.mpr ⟨?_, fun item member => ?_⟩
    · exact ((numbers_dedentBlock_sublist _).trans (numbers_insetBlock_sublist rest)).cons term.number
    · exact ((ih item member).trans (numbers_skipBlank_afterInset_sublist rest)).cons term.number
  | case3 => exact List.forall_mem_nil _

theorem Construct.numbers_take_sublist (line : Line) (rest : List Line) (construct : Construct) :
    ∀ body ∈ (construct.take line rest).1.bodies, (numbers body).Sublist (numbers (line :: rest)) := by
  cases construct with
  | quote =>
    exact List.forall_mem_singleton.mpr
      ((numbers_dedentBlock_sublist _).trans (numbers_insetBlock_sublist _))
  | list marker => exact numbers_listItems_sublist marker _
  | definitionList => exact List.forall_mem_map.mpr (numbers_definitions_sublist _)
  | transition | lineBlock | paragraph => exact List.forall_mem_nil _

/-- The text below a stop and its own line are the end of the whole text. -/
theorem Stop.suffix_of_mem {top : Bool} {lines : List Line} {stop : Stop}
    (member : stop ∈ stops top [] lines) : stop.line :: stop.below <:+ lines :=
  ⟨stop.above, (whole_of_mem_stops member).1⟩

section arranged
variable {document body : List Line} {top : Bool} (arranged : IsArranged document top body)
include arranged

/-- What every line of a document is, every line of a text is that is nested in it. -/
theorem IsArranged.forall {p : Line → Prop} (keeps : Line.Keeps p) (each : ∀ line ∈ document, p line) :
    ∀ line ∈ body, p line := by
  induction arranged with
  | document => exact each
  | body within member nested ih =>
    have here := fun line inside => ih line ((Stop.suffix_of_mem member).subset inside)
    exact (forall_first keeps here).1 _ (Stop.mem_bodies nested)

/-- A nested text has lines of the document, in their order. -/
theorem IsArranged.numbers_sublist : (numbers body).Sublist (numbers document) := by
  induction arranged with
  | document => exact List.Sublist.refl _
  | body within member nested ih =>
    have inner := Construct.numbers_take_sublist _ _ _ _ (Stop.mem_bodies nested)
    exact (inner.trans ((Stop.suffix_of_mem member).sublist.map _)).trans ih

end arranged

end RstPress.Layout
