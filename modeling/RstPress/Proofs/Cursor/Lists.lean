import RstPress.Proofs.Cursor.Inset
import RstPress.Proofs.Marker

/-!
Lists by index. A list goes on from item to item, skips the blank lines behind each, and at its end gives
those behind the last one back. Every access of a line, every slice and every cut of a text is checked.
-/

namespace RstPress.Cursor
open Layout Source

/-- The width of a marker at the front of a text. An enumerator is first cut off by its size in bytes. -/
def markerWidth? : Marker → List Char → Option (Option Nat)
  | .bullet mark, text => some ((Marker.bullet mark).width? text)
  | .enumerator, text =>
    match enumeratorWidth? text with
    | none => some none
    | some width => (cut? (bytes (text.take width)) text).map fun (front, _) => some front.length

/-- The lines of the item whose text begins so many columns into a line, and where it ends. -/
def itemBody? (width : Nat) (lines : List Line) (start : Nat) : Option (List Line × Nat) := do
  let first ← lines[start]?
  let stop := insetEnd lines (start + 1)
  let _capacity ← difference? stop start
  let below ← slice? (start + 1) stop lines
  let body := ⟨0, Text.trimStart (first.text.drop width), first.number⟩ ::
    below.map fun line => line.dedent (min width line.indent)
  let head ← body[0]?
  if head.isBlank then
    let rest ← suffix? 1 body
    return (← dedentBlock? rest, stop)
  else return (body, stop)

/-- Takes the item at an index, if one begins there. -/
def itemPass? (marker : Marker) (lines : List Line) (items : List (List Line)) (index : Nat) :
    Option (Option (List (List Line) × Nat)) :=
  visit? lines index fun line =>
    if line.indent ≠ 0 then some none
    else do
      match ← markerWidth? marker line.text with
      | none => return none
      | some width =>
        let (body, stop) ← itemBody? width lines index
        let next ← skip? Line.isBlank lines stop
        return some (items ++ [body], next)

def list? (marker : Marker) (lines : List Line) (start : Nat) : Option (List (List Line) × Nat) := do
  let (items, index) ← loop? lines.length (itemPass? marker lines) [] start
  return (items, ← retreat? lines start index)

def startsDefinitionAt? (lines : List Line) (index : Nat) : Option Bool := do
  let term ← lines[index]?
  return startsDefinition (term :: lines[index + 1]?.toList)

/-- Takes the term at an index with its definition, if there is one. -/
def definitionPass? (lines : List Line) (items : List (Line × List Line)) (index : Nat) :
    Option (Option (List (Line × List Line) × Nat)) :=
  visit? lines index fun term => do
    if ← startsDefinitionAt? lines index then
      let stop := insetEnd lines (index + 1)
      let block ← slice? (index + 1) stop lines
      let body ← dedentBlock? block
      let next ← skip? Line.isBlank lines stop
      return some (items ++ [(term, body)], next)
    else return none

def definitionList? (lines : List Line) (start : Nat) : Option (List (Line × List Line) × Nat) := do
  let (items, index) ← loop? lines.length (definitionPass? lines) [] start
  return (items, ← retreat? lines start index)

variable {lines rest : List Line} {index : Nat}

theorem width_le_of_enumeratorWidth? {text : List Char} {width : Nat}
    (found : enumeratorWidth? text = some width) : width ≤ text.length := by
  obtain ⟨front, ordinal, close, after, rfl, _, _, _, spaced⟩ := exists_of_enumeratorWidth? found
  have spaces := (List.takeWhile_sublist (· = ' ') (l := after)).length_le
  rw [spacedWidth?_eq spaced]
  simp only [List.length_append, List.length_cons]
  omega

theorem markerWidth?_eq (marker : Marker) (text : List Char) :
    markerWidth? marker text = some (marker.width? text) := by
  cases marker with
  | bullet mark => rfl
  | enumerator =>
    rw [width?_enumerator, markerWidth?]
    cases found : enumeratorWidth? text with
    | none => rfl
    | some width =>
      have cut := cut?_append (text.take width) (text.drop width)
      rw [List.take_append_drop] at cut
      simp only [cut, Option.map_some, List.length_take, Nat.min_eq_left (width_le_of_enumeratorWidth? found)]

theorem dedent_min (width : Nat) (line : Line) : line.dedent (min width line.indent) = line.dedent width := by
  simp only [Line.dedent, Line.mk.injEq, and_true]
  omega

theorem itemBody?_eq {line : Line} (here : IsAt lines index (line :: rest)) (width : Nat) :
    itemBody? width lines index = some (itemBody width line (insetBlock rest), insetEnd lines (index + 1)) := by
  have block := (slice?_insetEnd here.succ).1
  have capacity : index ≤ insetEnd lines (index + 1) := by
    rw [insetEnd_eq here.succ]
    omega
  rw [itemBody?, here.head?]
  simp only [List.head?_cons, Option.bind_eq_bind, Option.bind_some, difference?_of_le capacity, block,
    funext (dedent_min width), List.getElem?_cons_zero, Line.isBlank]
  by_cases empty : (Text.trimStart (line.text.drop width)).isEmpty
  · have after := (isAt_zero (⟨0, Text.trimStart (line.text.drop width), line.number⟩ ::
      (insetBlock rest).map (Line.dedent width))).succ.suffix?
    rw [if_pos empty, after, Option.bind_some, dedentBlock?_eq, itemBody, if_pos empty]
    rfl
  · rw [if_neg empty, itemBody, if_neg empty]
    rfl

/-- An item is taken where the list of items goes on with one. -/
theorem itemPass?_of_marked {marker : Marker} {line : Line} {width : Nat}
    (here : IsAt lines index (line :: rest)) (marked : marker.at? line = some width) (items : List (List Line)) :
    ∃ next, itemPass? marker lines items index =
        some (some (items ++ [itemBody width line (insetBlock rest)], next)) ∧
      index < next ∧ IsAt lines next (skipBlank (afterInset rest)) := by
  obtain ⟨flush, found⟩ := Option.ite_none_right_eq_some.mp marked
  obtain ⟨next, skipped, le, there⟩ := skip?_eq (p := Line.isBlank) (slice?_insetEnd here.succ).2
  refine ⟨next, ?_, ?_, there⟩
  · rw [itemPass?, here.visit?, if_neg (not_not_intro flush), markerWidth?_eq, found]
    simp only [Option.bind_eq_bind, Option.bind_some, itemBody?_eq here, skipped]
    rfl
  · rw [insetEnd_eq here.succ] at le
    omega

theorem itemPass?_of_unmarked {marker : Marker} {line : Line} (here : IsAt lines index (line :: rest))
    (unmarked : marker.at? line = none) (items : List (List Line)) :
    itemPass? marker lines items index = some none := by
  rw [itemPass?, here.visit?]
  by_cases flush : line.indent = 0
  · rw [Marker.at?, if_pos flush] at unmarked
    rw [if_neg (not_not_intro flush), markerWidth?_eq, unmarked]
    rfl
  · rw [if_pos flush]

theorem loop?_itemPass? (marker : Marker) (here : IsAt lines index rest) (items : List (List Line)) :
    ∃ next, loop? lines.length (itemPass? marker lines) items index =
        some (items ++ (listItems marker rest).1, next) ∧
      index ≤ next ∧ ((listItems marker rest).1 ≠ [] → index < next) ∧
      IsAt lines next (listItems marker rest).2 := by
  fun_induction listItems marker rest generalizing index items with
  | case1 =>
    have ends := visit?_of_le here.length_eq.ge (σ := List (List Line))
    refine ⟨index, ?_, Nat.le_refl _, fun filled => absurd rfl filled, here⟩
    rw [loop?_of_ends (ends _), List.append_nil]
  | case2 line rest unmarked =>
    refine ⟨index, ?_, Nat.le_refl _, fun filled => absurd rfl filled, here⟩
    rw [loop?_of_ends (itemPass?_of_unmarked here unmarked items), List.append_nil]
  | case3 line rest width marked others remaining taken ih =>
    obtain ⟨next, advances, forward, there⟩ := itemPass?_of_marked here marked items
    obtain ⟨last, looped, le, _, ends⟩ := ih there (items ++ [itemBody width line (insetBlock rest)])
    have inside := here.lt_iff.mpr (List.cons_ne_nil line rest)
    rw [taken] at looped ends
    refine ⟨last, ?_, forward.le.trans le, fun _ => Nat.lt_of_lt_of_le forward le, ends⟩
    rw [loop?_of_advances advances forward inside, looped, List.append_assoc]
    rfl

/-- A list that begins at an index has the items of the list there, and ends behind its first line. -/
theorem list?_eq {marker : Marker} {line : Line} (here : IsAt lines index (line :: rest))
    (begins : (marker.at? line).isSome) :
    ∃ stop kept, list? marker lines index = some ((listItems marker (line :: rest)).1, stop) ∧ index < stop ∧
      IsAt lines stop kept ∧ skipBlank kept = skipBlank (listItems marker (line :: rest)).2 := by
  obtain ⟨last, looped, _, forward, there⟩ := loop?_itemPass? marker here []
  obtain ⟨stop, kept, back, past, ends, same⟩ := retreat?_eq there (forward (listItems_ne_nil begins))
  refine ⟨stop, kept, ?_, past, ends, same⟩
  rw [list?, looped]
  simp only [Option.bind_eq_bind, Option.bind_some, back]
  rfl

theorem startsDefinitionAt?_eq {term : Line} (here : IsAt lines index (term :: rest)) :
    startsDefinitionAt? lines index = some (startsDefinition (term :: rest)) := by
  have next : lines[index + 1]? = rest.head? := here.succ.head?
  rw [startsDefinitionAt?, here.head?, next]
  cases rest <;> rfl

theorem definitionPass?_of_starts {term : Line} (here : IsAt lines index (term :: rest))
    (starts : startsDefinition (term :: rest)) (items : List (Line × List Line)) :
    ∃ next, definitionPass? lines items index =
        some (some (items ++ [(term, dedentBlock (insetBlock rest))], next)) ∧
      index < next ∧ IsAt lines next (skipBlank (afterInset rest)) := by
  obtain ⟨block, behind⟩ := slice?_insetEnd here.succ
  obtain ⟨next, skipped, le, there⟩ := skip?_eq (p := Line.isBlank) behind
  refine ⟨next, ?_, ?_, there⟩
  · rw [definitionPass?, here.visit?, startsDefinitionAt?_eq here, Option.bind_eq_bind, Option.bind_some,
      if_pos starts]
    simp only [block, dedentBlock?_eq, skipped]
    rfl
  · rw [insetEnd_eq here.succ] at le
    omega

theorem definitionPass?_of_not_starts {term : Line} (here : IsAt lines index (term :: rest))
    (ends : ¬startsDefinition (term :: rest)) (items : List (Line × List Line)) :
    definitionPass? lines items index = some none := by
  rw [definitionPass?, here.visit?, startsDefinitionAt?_eq here, Option.bind_eq_bind, Option.bind_some, if_neg ends]
  rfl

theorem loop?_definitionPass? (here : IsAt lines index rest) (items : List (Line × List Line)) :
    ∃ next, loop? lines.length (definitionPass? lines) items index =
        some (items ++ (definitions rest).1, next) ∧
      index ≤ next ∧ ((definitions rest).1 ≠ [] → index < next) ∧ IsAt lines next (definitions rest).2 := by
  fun_induction definitions rest generalizing index items with
  | case1 =>
    have ends := visit?_of_le here.length_eq.ge (σ := List (Line × List Line))
    refine ⟨index, ?_, Nat.le_refl _, fun filled => absurd rfl filled, here⟩
    rw [loop?_of_ends (ends _), List.append_nil]
  | case2 term rest starts others remaining taken ih =>
    obtain ⟨next, advances, forward, there⟩ := definitionPass?_of_starts here starts items
    obtain ⟨last, looped, le, _, ends⟩ := ih there (items ++ [(term, dedentBlock (insetBlock rest))])
    have inside := here.lt_iff.mpr (List.cons_ne_nil term rest)
    rw [taken] at looped ends
    refine ⟨last, ?_, forward.le.trans le, fun _ => Nat.lt_of_lt_of_le forward le, ends⟩
    rw [loop?_of_advances advances forward inside, looped, List.append_assoc]
    rfl
  | case3 term rest plain =>
    refine ⟨index, ?_, Nat.le_refl _, fun filled => absurd rfl filled, here⟩
    rw [loop?_of_ends (definitionPass?_of_not_starts here plain items), List.append_nil]

theorem definitionList?_eq {term : Line} (here : IsAt lines index (term :: rest))
    (starts : startsDefinition (term :: rest)) :
    ∃ stop kept, definitionList? lines index = some ((definitions (term :: rest)).1, stop) ∧ index < stop ∧
      IsAt lines stop kept ∧ skipBlank kept = skipBlank (definitions (term :: rest)).2 := by
  obtain ⟨last, looped, _, forward, there⟩ := loop?_definitionPass? here []
  obtain ⟨stop, kept, back, past, ends, same⟩ := retreat?_eq there (forward (definitions_ne_nil starts))
  refine ⟨stop, kept, ?_, past, ends, same⟩
  rw [definitionList?, looped]
  simp only [Option.bind_eq_bind, Option.bind_some, back]
  rfl

end RstPress.Cursor
