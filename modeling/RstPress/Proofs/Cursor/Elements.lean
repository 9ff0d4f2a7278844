import RstPress.Proofs.Cursor.LineBlock
import RstPress.Proofs.Cursor.Lists
import RstPress.Proofs.Cursor.Paragraph
import RstPress.Proofs.Extension.Outline
import RstPress.Proofs.Heading
import RstPress.Proofs.Stops

/-!
Elements by index. What begins on a line is taken with all accesses checked, and gives the index at which it
ends. The bodies that are nested in it are arranged by the same walk, provided that they are lighter than
the lines around them. With that the walk gives the parts of a text, whatever the text.
-/

namespace RstPress.Cursor
open Layout Source

/-- Takes a construct that begins at an index, and tells where it ends. -/
def take? (lines : List Line) (start : Nat) : Construct → Option (Piece × Nat)
  | .quote => do
    let block ← slice? start (insetEnd lines start) lines
    return (.quote (← dedentBlock? block), insetEnd lines start)
  | .transition => some (.transition, start + 1)
  | .list marker => (list? marker lines start).map (Prod.map (.list marker) id)
  | .lineBlock => (entries? lines start).map (Prod.map .lineBlock id)
  | .definitionList => (definitionList? lines start).map (Prod.map .definitionList id)
  | .paragraph => (paragraph? lines start).map (Prod.map .paragraph id)

def first? (lines : List Line) (start : Nat) : Option (Piece × Nat) := do
  let line ← lines[start]?
  take? lines start (construct line (lines.drop (start + 1)))

/-- The number of lines that a heading takes. -/
def headingSize (heading : Heading) : Nat := if heading.style.overlined then 3 else 2

/-- Takes what begins at an index, blank lines being passed over. Parts are found as they are, pieces with
their bodies still to be arranged. -/
def elementPass? (top : Bool) (lines : List Line) (found : List (Part ⊕ Piece)) (index : Nat) :
    Option (Option (List (Part ⊕ Piece) × Nat)) :=
  visit? lines index fun line =>
    if line.isBlank then some (some (found, index + 1))
    else
      match top, headingAt? line (lines.drop (index + 1)) with
      | true, some (heading, _) => some (some (found ++ [.inl (.heading heading)], index + headingSize heading))
      | _, stray => do
        let (piece, stop) ← first? lines index
        let strays := (stray.map fun (heading, _) => .inl (.block (.stray heading))).toList
        return some (found ++ strays ++ [.inr piece], stop)

def block? : Part → Option Block
  | .heading _ => none
  | .block block => some block

/-- The block of a piece, given how its bodies are arranged. -/
def build? (arranged : List Line → Option (List Block)) : Piece → Option Block
  | .quote body => (arranged body).map .quote
  | .transition => some .transition
  | .list marker items => (items.mapM fun body => (arranged body).map .item).map (.list marker)
  | .lineBlock entries => (verses? entries).map .lineBlock
  | .definitionList items =>
    (items.mapM fun item => (arranged item.2).map (.definition item.1)).map .definitionList
  | .paragraph text => some (.paragraph text)

/-- The parts of a document, or of a nested body. A body that is not lighter is not arranged. -/
def elements? (top : Bool) (lines : List Line) : Option (List Part) :=
  (loop? lines.length (elementPass? top lines) [] 0).bind fun (found, _) =>
    found.mapM fun
      | .inl part => some part
      | .inr piece =>
        let arranged (body : List Line) : Option (List Block) :=
          if _ : weight body < weight lines then (elements? false body).map (·.filterMap block?) else none
        (build? arranged piece).map .block
termination_by weight lines

variable {lines rest : List Line} {line : Line} {index : Nat}

/-- A construct is taken where it begins. It ends behind its first line, where the lines go on as behind the
construct, except for blank lines that a list gives back. -/
theorem take?_eq {construct : Construct} (here : IsAt lines index (line :: rest))
    (filled : line.isBlank = false) (begins : construct.Begins line rest) :
    ∃ stop kept, take? lines index construct = some ((construct.take line rest).1, stop) ∧ index < stop ∧
      IsAt lines stop kept ∧ skipBlank kept = skipBlank (construct.take line rest).2 := by
  cases begins with
  | quote inset =>
    obtain ⟨block, behind⟩ := slice?_insetEnd here
    obtain ⟨more, starts⟩ := insetBlock_cons rest filled inset
    refine ⟨_, _, ?_, ?_, behind, rfl⟩
    · simp only [take?, block, Option.bind_eq_bind, Option.bind_some, dedentBlock?_eq]
      rfl
    · rw [insetEnd_eq here, starts, List.length_cons]
      omega
  | transition => exact ⟨index + 1, rest, rfl, Nat.lt_succ_self _, here.succ, rfl⟩
  | list marked =>
    obtain ⟨stop, kept, found, past, there, same⟩ := list?_eq here marked
    exact ⟨stop, kept, by rw [take?, found]; rfl, past, there, same⟩
  | lineBlock barred =>
    obtain ⟨stop, found, past, there⟩ := entries?_eq here barred
    exact ⟨stop, _, by rw [take?, found]; rfl, past, there, rfl⟩
  | definitionList starts =>
    obtain ⟨stop, kept, found, past, there, same⟩ := definitionList?_eq here starts
    exact ⟨stop, kept, by rw [take?, found]; rfl, past, there, same⟩
  | paragraph =>
    obtain ⟨stop, found, past, there⟩ := paragraph?_eq here
    exact ⟨stop, _, by rw [take?, found]; rfl, past, there, rfl⟩

theorem first?_eq (here : IsAt lines index (line :: rest)) (filled : line.isBlank = false) :
    ∃ stop kept, first? lines index = some ((Piece.first line rest).1, stop) ∧ index < stop ∧
      IsAt lines stop kept ∧ skipBlank kept = skipBlank (Piece.first line rest).2 := by
  obtain ⟨stop, kept, found, past, there, same⟩ := take?_eq here filled (construct_begins line rest)
  refine ⟨stop, kept, ?_, past, there, same⟩
  rw [first?, here.head?, here.succ.drop_eq]
  exact found

/-- A heading takes as many lines as its style says. -/
theorem exists_of_headingAt? {after : List Line} {heading : Heading}
    (found : headingAt? line rest = some (heading, after)) :
    ∃ own, line :: rest = own ++ after ∧ own.length = headingSize heading := by
  obtain ⟨adornment, shaped⟩ := heading?_eq_some_iff.mp (Option.ite_none_right_eq_some.mp found).2
  generalize line :: rest = whole at shaped
  cases shaped with
  | @overlined above title below => exact ⟨[above, title, below], rfl, rfl⟩
  | @underlined title below => exact ⟨[title, below], rfl, rfl⟩

theorem weight_le_of_isAt (here : IsAt lines index rest) : weight rest ≤ weight lines := by
  obtain ⟨front, rfl, _⟩ := here
  exact weight_le_of_sublist (List.sublist_append_right _ _)

/-- What is found at a stop. -/
def foundAt (top : Bool) (stop : Stop) : List (Part ⊕ Piece) :=
  match stop.opens? top with
  | some (heading, _) => [.inl (.heading heading)]
  | none => (if top then [] else (strays stop.line stop.below).map (.inl ∘ .block)) ++ [.inr stop.piece]

/-- Where something begins, it is found, and the pass goes on behind it. -/
theorem elementPass?_of_filled (top : Bool) (above : List Line) (here : IsAt lines index (line :: rest))
    (filled : line.isBlank = false) (found : List (Part ⊕ Piece)) :
    let stop : Stop := ⟨above, line, rest⟩
    ∃ next kept, elementPass? top lines found index = some (some (found ++ foundAt top stop, next)) ∧ index < next ∧
      IsAt lines next kept ∧ skipBlank kept = skipBlank (stop.after top) := by
  intro stop
  obtain ⟨next, kept, first, past, there, same⟩ := first?_eq here filled
  have visited : elementPass? top lines found index = _ := here.visit? _
  rw [if_neg (by simp [filled]), here.succ.drop_eq] at visited
  have opens : stop.opens? top = if top then headingAt? line rest else none := rfl
  rw [visited, foundAt, Stop.after, opens]
  cases top with
  | true =>
    cases heading : headingAt? line rest with
    | some opened =>
      obtain ⟨title, after⟩ := opened
      obtain ⟨own, whole, size⟩ := exists_of_headingAt? heading
      rw [whole] at here
      refine ⟨index + headingSize title, after, rfl, ?_, size ▸ here.add, rfl⟩
      unfold headingSize
      split <;> omega
    | none =>
      refine ⟨next, kept, ?_, past, there, same⟩
      simp only [first, Option.map_none, Option.toList_none, List.append_nil]
      rfl
  | false =>
    refine ⟨next, kept, ?_, past, there, same⟩
    simp only [first]
    cases heading : headingAt? line rest <;> simp [strays, heading, stop] <;> rfl

theorem mapM_eq_some_map {α β : Type} {f : α → Option β} {g : α → β} {items : List α}
    (each : ∀ item ∈ items, f item = some (g item)) : items.mapM f = some (items.map g) := by
  induction items with
  | nil => rfl
  | cons item items ih =>
    have others := ih fun other member => each other (List.mem_cons_of_mem item member)
    rw [List.mapM_cons, each item List.mem_cons_self, others]
    rfl

theorem build?_eq {arranged : List Line → Option (List Block)} {piece : Piece}
    (each : ∀ body ∈ piece.bodies, arranged body = some (arrange body)) :
    build? arranged piece = some piece.block := by
  cases piece with
  | quote body => rw [build?, each body List.mem_cons_self, Piece.block_quote]; rfl
  | transition => rfl
  | list marker items =>
    rw [build?, mapM_eq_some_map (g := fun body => .item (arrange body)), Piece.block_list]
    · rfl
    · exact fun body member => by rw [each body member]; rfl
  | lineBlock entries => rw [build?, verses?_eq, Piece.block_lineBlock]; rfl
  | definitionList items =>
    rw [build?, mapM_eq_some_map (g := fun item => .definition item.1 (arrange item.2)), Piece.block_definitionList]
    · rfl
    · exact fun item member => by rw [each item.2 (List.mem_map_of_mem member)]; rfl
  | paragraph text => rfl

theorem partsOf_skipBlank (top : Bool) (lines : List Line) : partsOf top (skipBlank lines) = partsOf top lines := by
  cases top with
  | false => exact congrArg (List.map Part.block) (arrange_eq_arrange_skipBlank lines).symm
  | true => exact (outline_eq_outline_skipBlank lines).symm

theorem mapM_foundAt {build : Part ⊕ Piece → Option Part} (top : Bool) (stop : Stop)
    (ready : ∀ part, build (.inl part) = some part)
    (piece : build (.inr stop.piece) = some (.block stop.piece.block)) :
    (foundAt top stop).mapM build = some (stop.parts top) := by
  have blocks (found : List Block) : (found.map (.inl ∘ .block) : List (Part ⊕ Piece)).mapM build =
      some (found.map .block) := by
    rw [List.mapM_map]
    exact mapM_eq_some_map fun block _ => ready _
  rw [foundAt, Stop.parts]
  cases stop.opens? top with
  | some opened => simp [ready]
  | none =>
    cases top with
    | true => simp [piece]
    | false => simp [blocks, piece]

/-- What is found from an index on becomes the parts of the lines there, if the pieces become their blocks. -/
theorem loop?_elementPass? (top : Bool) (here : IsAt lines index rest) (found : List (Part ⊕ Piece))
    (build : Part ⊕ Piece → Option Part) (ready : ∀ part, build (.inl part) = some part)
    (each : ∀ piece : Piece, (∀ body ∈ piece.bodies, weight body < weight lines) →
      build (.inr piece) = some (.block piece.block)) :
    ∃ more next, loop? lines.length (elementPass? top lines) found index = some (found ++ more, next) ∧
      more.mapM build = some (partsOf top rest) := by
  induction size : rest.length using Nat.strong_induction_on generalizing index rest found with
  | h size ih =>
    subst size
    cases rest with
    | nil =>
      refine ⟨[], index, ?_, by cases top <;> simp [partsOf]⟩
      rw [loop?_of_ends (visit?_of_le here.length_eq.ge _), List.append_nil]
    | cons line rest =>
      have inside := here.lt_iff.mpr (List.cons_ne_nil line rest)
      by_cases blank : line.isBlank
      · obtain ⟨more, next, looped, made⟩ := ih _ (Nat.lt_succ_self _) here.succ found rfl
        have advances : elementPass? top lines found index = some (some (found, index + 1)) := by
          rw [elementPass?, here.visit?, if_pos blank]
        refine ⟨more, next, ?_, by rw [made, partsOf_of_blank top rest blank]⟩
        rw [loop?_of_advances advances (Nat.lt_succ_self _) inside, looped]
      · have filled : line.isBlank = false := by simpa using blank
        obtain ⟨next, kept, advances, forward, there, same⟩ := elementPass?_of_filled top [] here filled found
        have shorter : kept.length < (line :: rest).length := by
          have first := here.length_eq
          have second := there.length_eq
          omega
        obtain ⟨more, last, looped, made⟩ := ih _ shorter there
          (found ++ foundAt top ⟨[], line, rest⟩) rfl
        have heavy := weight_le_of_isAt here
        have lighter := (Piece.weight_first rest filled).1
        have own := mapM_foundAt top ⟨[], line, rest⟩ ready
          (each _ fun body member => Nat.lt_of_lt_of_le (lighter body member) heavy)
        have parts : partsOf top (line :: rest) =
            (⟨[], line, rest⟩ : Stop).parts top ++ partsOf top kept := by
          rw [← partsOf_skipBlank top kept, same, partsOf_skipBlank]
          have shown : (⟨[], line, rest⟩ : Stop).line.isBlank = false := filled
          exact partsOf_of_filled top shown
        refine ⟨foundAt top ⟨[], line, rest⟩ ++ more, last, ?_, ?_⟩
        · rw [loop?_of_advances advances forward inside, looped, List.append_assoc]
        · rw [List.mapM_append, own, made, parts]
          rfl

/-- The blocks of a nested body are its parts. -/
theorem filterMap_partsOf (lines : List Line) : (partsOf false lines).filterMap block? = arrange lines := by
  show ((arrange lines).map Part.block).filterMap block? = arrange lines
  rw [List.filterMap_map]
  exact List.filterMap_some

/-- The walk by index gives the parts of every text: no access fails, and no nested body is too heavy. -/
theorem elements?_eq (top : Bool) (lines : List Line) : elements? top lines = some (partsOf top lines) := by
  induction size : weight lines using Nat.strong_induction_on generalizing top lines with
  | h size ih =>
    subst size
    rw [elements?]
    obtain ⟨more, next, looped, made⟩ := loop?_elementPass? top (isAt_zero lines) []
      (fun
        | .inl part => some part
        | .inr piece =>
          let arranged (body : List Line) : Option (List Block) :=
            if _ : weight body < weight lines then (elements? false body).map (·.filterMap block?) else none
          (build? arranged piece).map .block)
      (fun _ => rfl) fun piece lighter => by
        have arranged : ∀ body ∈ piece.bodies,
            (if _ : weight body < weight lines then (elements? false body).map (·.filterMap block?) else none) =
              some (arrange body) := fun body member => by
          have light := lighter body member
          rw [dif_pos light, ih _ light false body rfl, Option.map_some, filterMap_partsOf]
        exact congrArg (Option.map Part.block) (build?_eq arranged)
    rw [looped, List.nil_append, Option.bind_some]
    exact made

end RstPress.Cursor
