import Mathlib.Data.List.Chain
import RstPress.Inline.Token
import RstPress.Proofs.Plain.Row
import RstPress.Proofs.Plain.Text

/-!
Plain blocks are paragraphs, lists, quotes and literal blocks, nested in each other. They are
written as rows, and each of them stands for one node.
-/

namespace RstPress.Document
open Text Source Inline RstPress.Tree

/-- A line of a paragraph. -/
structure TextLine where
  text : List Char
  begins : ∃ first others, text = first :: others ∧ isBlank first = false
  ends : ∃ front last, text = front ++ [last] ∧ isBlank last = false
  plain : '\t' ∉ text ∧ '\n' ∉ text ∧ '\\' ∉ text

/-- The lines of a literal block. They do not end with blanks, so a blank line is an empty one. -/
structure LiteralText where
  lines : List (List Char)
  plain : ∀ line ∈ lines, '\t' ∉ line ∧ '\n' ∉ line
  trimmed : ∀ line ∈ lines, line = [] ∨ ∃ front last, line = front ++ [last] ∧ isBlank last = false
  begins : ∃ first others, lines = first :: others ∧ first ≠ []
  ends : ∃ front last, lines = front ++ [last] ∧ last ≠ []
  flush : ∃ line ∈ lines, line ≠ [] ∧ line.head? ≠ some ' '

inductive Plain where
  | para (first : TextLine) (others : List TextLine)
  | list (numbered : Bool) (items : List (List Plain))
  | quote (blocks : List Plain)
  | literal (text : LiteralText)

/-- Rows of several things, with a blank row between them. -/
def joinRows : List (List Row) → List Row
  | [] => []
  | [rows] => rows
  | rows :: others => rows ++ Row.empty :: joinRows others

/-- The rows with a label in front of the first one and the others moved to the right below it. -/
def hang (label : List Char) : List Row → List Row
  | [] => []
  | first :: others => ⟨0, label ++ first.text⟩ :: others.map (Row.shift label.length)

def itemLabel (numbered : Bool) : List Char := if numbered then ['1', '.', ' '] else ['-', ' ']

def quoteWidth : Nat := 4

mutual

def Plain.rows : Plain → List Row
  | .para first others => (first :: others).map fun line => ⟨0, escape line.text⟩
  | .list numbered items => joinRows (itemRows (itemLabel numbered) items)
  | .quote blocks => (joinRows (blockRows blocks)).map (Row.shift quoteWidth)
  | .literal text =>
    ⟨0, [':', ':']⟩ :: Row.empty :: (text.lines.map Row.ofText).map (Row.shift quoteWidth)

def blockRows : List Plain → List (List Row)
  | [] => []
  | block :: blocks => block.rows :: blockRows blocks

def itemRows (label : List Char) : List (List Plain) → List (List Row)
  | [] => []
  | item :: items => hang label (joinRows (blockRows item)) :: itemRows label items

end

mutual

def Plain.node : Plain → Node
  | .para first others =>
    .composite .paragraph ((first :: others).map fun line => textNode (line.text ++ ['\n']))
  | .list numbered items =>
    .composite (if numbered then .enumeratedList else .bulletList) (itemNodes items)
  | .quote blocks => .composite .blockQuote (blockNodes blocks)
  | .literal text => .composite .literalBlock [textNode (text.lines.flatMap (· ++ ['\n']))]

def blockNodes : List Plain → List Node
  | [] => []
  | block :: blocks => block.node :: blockNodes blocks

def itemNodes : List (List Plain) → List Node
  | [] => []
  | item :: items => .composite .listItem (blockNodes item) :: itemNodes items

end

/-- A quote stands after a paragraph only, and two lists of one kind are not neighbours. -/
def Plain.MayPrecede : Plain → Plain → Prop
  | .para _ _, _ => True
  | .list numbered _, .list other _ => numbered ≠ other
  | _, .quote _ => False
  | _, _ => True

def Plain.IsQuote : Plain → Prop
  | .quote _ => True
  | _ => False

/-- Blocks that can be told apart when they are written one after the other. -/
structure IsSequence (blocks : List Plain) : Prop where
  first : ∀ block, blocks.head? = some block → ¬block.IsQuote
  next : blocks.IsChain Plain.MayPrecede

inductive Plain.WellFormed : Plain → Prop where
  | para (first : TextLine) (others : List TextLine) : WellFormed (.para first others)
  | literal (text : LiteralText) : WellFormed (.literal text)
  | quote (blocks : List Plain) (filled : blocks ≠ []) (sequence : IsSequence blocks)
      (inner : ∀ block ∈ blocks, WellFormed block) : WellFormed (.quote blocks)
  | list (numbered : Bool) (items : List (List Plain)) (filled : items ≠ [])
      (sequence : ∀ item ∈ items, item ≠ [] ∧ IsSequence item)
      (inner : ∀ item ∈ items, ∀ block ∈ item, WellFormed block) : WellFormed (.list numbered items)

theorem blockRows_eq_map (blocks : List Plain) : blockRows blocks = blocks.map Plain.rows := by
  induction blocks with
  | nil => rfl
  | cons block blocks ih => rw [blockRows, ih, List.map_cons]

theorem itemRows_eq_map (label : List Char) (items : List (List Plain)) :
    itemRows label items = items.map fun item => hang label (joinRows (item.map Plain.rows)) := by
  induction items with
  | nil => rfl
  | cons item items ih => rw [itemRows, ih, List.map_cons, blockRows_eq_map]

theorem blockNodes_eq_map (blocks : List Plain) : blockNodes blocks = blocks.map Plain.node := by
  induction blocks with
  | nil => rfl
  | cons block blocks ih => rw [blockNodes, ih, List.map_cons]

theorem itemNodes_eq_map (items : List (List Plain)) :
    itemNodes items = items.map fun item => .composite .listItem (item.map Plain.node) := by
  induction items with
  | nil => rfl
  | cons item items ih => rw [itemNodes, ih, List.map_cons, blockNodes_eq_map]

theorem exists_joinRows_cons (rows : List Row) (others : List (List Row)) :
    ∃ more, joinRows (rows :: others) = rows ++ more := by
  cases others with
  | nil => exact ⟨[], (List.append_nil rows).symm⟩
  | cons next others => exact ⟨_, rfl⟩

theorem mem_joinRows {all : List (List Row)} {row : Row} (member : row ∈ joinRows all) :
    row = Row.empty ∨ ∃ rows ∈ all, row ∈ rows := by
  fun_induction joinRows all with
  | case1 => cases member
  | case2 rows => exact .inr ⟨rows, List.mem_cons_self, member⟩
  | case3 rows others filled ih =>
    rcases List.mem_append.mp member with here | later
    · exact .inr ⟨rows, List.mem_cons_self, here⟩
    · rcases List.mem_cons.mp later with rfl | inside
      · exact .inl rfl
      · rcases ih inside with gap | ⟨found, present, placed⟩
        · exact .inl gap
        · exact .inr ⟨found, List.mem_cons_of_mem rows present, placed⟩

theorem endsVisibly_append {front back : List Row} (filled : back ≠ [])
    (visible : EndsVisibly back) : EndsVisibly (front ++ back) := by
  intro row same
  rcases List.eq_nil_or_concat back with rfl | ⟨inner, last, rfl⟩
  · exact absurd rfl filled
  · apply visible row
    simpa using same

/-- Rows that begin in the given column and do not end with a blank row. -/
structure IsBody (column : Nat) (rows : List Row) : Prop where
  opens : ∃ first others, rows = first :: others ∧ first.indent = column ∧
    ∃ c text, first.text = c :: text ∧ isBlank c = false
  ends : EndsVisibly rows
  clean : ∀ row ∈ rows, row.Clean

theorem IsBody.ne_nil {column : Nat} {rows : List Row} (body : IsBody column rows) : rows ≠ [] := by
  obtain ⟨first, others, rfl, _⟩ := body.opens
  exact List.cons_ne_nil first others

section join
variable {all : List (List Row)} (bodies : ∀ rows ∈ all, ∃ column, IsBody column rows)
include bodies

theorem endsVisibly_joinRows : EndsVisibly (joinRows all) := by
  fun_induction joinRows all with
  | case1 => exact fun row same => by cases same
  | case2 rows =>
    obtain ⟨_, body⟩ := bodies rows List.mem_cons_self
    exact body.ends
  | case3 rows others more ih =>
    have later : ∀ found ∈ others, ∃ column, IsBody column found :=
      fun found member => bodies found (List.mem_cons_of_mem rows member)
    obtain ⟨next, rest, rfl⟩ := List.exists_cons_of_ne_nil more
    obtain ⟨back, same⟩ := exists_joinRows_cons next rest
    obtain ⟨_, body⟩ := later next List.mem_cons_self
    have present : joinRows (next :: rest) ≠ [] := by
      rw [same]
      exact List.append_ne_nil_of_left_ne_nil body.ne_nil back
    apply endsVisibly_append (List.cons_ne_nil _ _)
    rw [← List.singleton_append]
    exact endsVisibly_append present (ih later)

theorem clean_joinRows : ∀ row ∈ joinRows all, row.Clean := by
  intro row member
  rcases mem_joinRows member with rfl | ⟨rows, present, inside⟩
  · exact Row.clean_empty
  · obtain ⟨_, body⟩ := bodies rows present
    exact body.clean row inside

end join

namespace IsBody
variable {column : Nat} {rows : List Row}

/-- There is a row that shows where the body begins. -/
theorem exists_flush (body : IsBody column rows) :
    ∃ row ∈ rows, row.text ≠ [] ∧ row.indent = column := by
  obtain ⟨first, others, rfl, flush, c, text, same, _⟩ := body.opens
  exact ⟨first, List.mem_cons_self, by rw [same]; exact List.cons_ne_nil c text, flush⟩

theorem join {others : List (List Row)} (here : IsBody column rows)
    (later : ∀ rows ∈ others, ∃ column, IsBody column rows) :
    IsBody column (joinRows (rows :: others)) := by
  have all : ∀ found ∈ rows :: others, ∃ column, IsBody column found := by
    intro found member
    rcases List.mem_cons.mp member with rfl | inside
    · exact ⟨column, here⟩
    · exact later found inside
  refine ⟨?_, endsVisibly_joinRows all, clean_joinRows all⟩
  obtain ⟨first, more, rfl, facts⟩ := here.opens
  obtain ⟨rest, same⟩ := exists_joinRows_cons (first :: more) others
  exact ⟨first, more ++ rest, same, facts⟩

theorem shift (body : IsBody column rows) (columns : Nat) :
    IsBody (column + columns) (rows.map (Row.shift columns)) := by
  refine ⟨?_, body.ends.map_shift columns, ?_⟩
  · obtain ⟨first, others, rfl, flush, c, text, same, visible⟩ := body.opens
    have filled : first.text ≠ [] := by
      rw [same]
      exact List.cons_ne_nil c text
    refine ⟨first.shift columns, others.map (Row.shift columns), rfl, ?_, c, text, ?_, visible⟩
    · rw [Row.indent_shift filled, flush]
    · rw [Row.text_shift, same]
  · intro row member
    obtain ⟨inner, inside, rfl⟩ := List.mem_map.mp member
    exact (body.clean inner inside).shift columns

theorem hang (body : IsBody column rows) (numbered : Bool) :
    IsBody 0 (hang (itemLabel numbered) rows) := by
  obtain ⟨first, others, rfl, _, c, text, same, visible⟩ := body.opens
  have clean := body.clean first List.mem_cons_self
  have label : '\n' ∉ itemLabel numbered ∧ '\t' ∉ itemLabel numbered := by cases numbered <;> decide
  obtain ⟨d, more, begins, shown⟩ :
      ∃ d more, itemLabel numbered = d :: more ∧ isBlank d = false := by
    cases numbered
    · exact ⟨'-', [' '], rfl, by decide⟩
    · exact ⟨'1', ['.', ' '], rfl, by decide⟩
  refine ⟨⟨_, _, rfl, rfl, d, more ++ first.text, by rw [begins]; rfl, shown⟩, ?_, ?_⟩
  · intro row last
    cases others with
    | nil =>
      rw [Document.hang, List.map_nil, List.getLast?_singleton, Option.some.injEq] at last
      rw [← last, begins]
      exact List.cons_ne_nil _ _
    | cons next others =>
      apply (body.ends.tail.map_shift (itemLabel numbered).length) row
      rw [Document.hang, List.map_cons, List.getLast?_cons_cons] at last
      exact last
  · intro row member
    rcases List.mem_cons.mp member with rfl | later
    · refine ⟨?_, ?_, ?_, ?_⟩
      · simp [label.1, clean.oneLine]
      · simp [label.2, clean.untabbed]
      · rw [begins]
        exact fun space => ne_of_isBlank shown (by decide) (Option.some.inj space)
      · rcases clean.ends with rfl | ⟨front, last, ends, visible⟩
        · cases same
        · exact .inr ⟨itemLabel numbered ++ front, last, by rw [ends, List.append_assoc], visible⟩
    · obtain ⟨inner, inside, rfl⟩ := List.mem_map.mp later
      exact (body.clean inner (List.mem_cons_of_mem first inside)).shift _

end IsBody

theorem isBody_para (first : TextLine) (others : List TextLine) :
    IsBody 0 (Plain.para first others).rows := by
  have visible (line : TextLine) : ∃ c text, escape line.text = c :: text ∧ isBlank c = false := by
    obtain ⟨c, text, same, visible⟩ := line.begins
    rw [same]
    rcases exists_escape_cons c text with ⟨_, shown⟩ | ⟨_, shown⟩
    · exact ⟨_, _, shown, by decide⟩
    · exact ⟨_, _, shown, visible⟩
  have filled (line : TextLine) : escape line.text ≠ [] := by
    obtain ⟨c, text, same, _⟩ := visible line
    rw [same]
    exact List.cons_ne_nil c text
  have clean (line : TextLine) : Row.Clean ⟨0, escape line.text⟩ := by
    refine ⟨?_, ?_, ?_, ?_⟩
    · intro member
      rcases mem_of_mem_escape member with inside | same
      · exact line.plain.2.1 inside
      · cases same
    · intro member
      rcases mem_of_mem_escape member with inside | same
      · exact line.plain.1 inside
      · cases same
    · obtain ⟨c, text, same, shown⟩ := visible line
      rw [same]
      exact fun space => ne_of_isBlank shown (by decide) (Option.some.inj space)
    · obtain ⟨front, last, same, shown⟩ := line.ends
      obtain ⟨before, escaped, _⟩ := exists_escape_concat front last
      exact .inr ⟨before, last, by rw [same, escaped], shown⟩
  rw [Plain.rows]
  refine ⟨⟨_, _, rfl, rfl, visible first⟩, ?_, ?_⟩
  · intro row last
    obtain ⟨line, _, rfl⟩ := List.mem_map.mp (List.mem_of_getLast? last)
    exact filled line
  · intro row member
    obtain ⟨line, _, rfl⟩ := List.mem_map.mp member
    exact clean line

theorem clean_ofText {line : List Char} (plain : '\t' ∉ line ∧ '\n' ∉ line)
    (trimmed : line = [] ∨ ∃ front last, line = front ++ [last] ∧ isBlank last = false) :
    (Row.ofText line).Clean := by
  have kept (c : Char) (member : c ∈ line.dropWhile (· = ' ')) : c ∈ line :=
    (List.dropWhile_sublist _).subset member
  refine ⟨fun member => plain.2 (kept _ member), fun member => plain.1 (kept _ member), ?_, ?_⟩
  · intro begins
    have space := List.head?_dropWhile_not (fun c => decide (c = ' ')) line
    rw [Row.ofText] at begins
    rw [begins] at space
    exact absurd space (by decide)
  · rcases trimmed with rfl | ⟨front, last, rfl, visible⟩
    · exact .inl rfl
    · have stops : [last].head?.all fun c => !decide (c = ' ') := by
        have other : last ≠ ' ' := ne_of_isBlank visible (by decide)
        simp [other]
      exact .inr ⟨front.dropWhile (· = ' '), last, dropWhile_append_of_head stops front, visible⟩

theorem text_ofText_ne_nil {line : List Char} (filled : line ≠ [])
    (trimmed : line = [] ∨ ∃ front last, line = front ++ [last] ∧ isBlank last = false) :
    (Row.ofText line).text ≠ [] := by
  rcases trimmed with rfl | ⟨front, last, rfl, visible⟩
  · exact absurd rfl filled
  · intro none
    have spaces := List.dropWhile_eq_nil_iff.mp none last (by simp)
    exact ne_of_isBlank visible (by decide) (of_decide_eq_true spaces)

/-- The lines of a literal block are written as rows that end visibly and come to the margin. -/
theorem rows_literal (text : LiteralText) :
    (∀ row ∈ text.lines.map Row.ofText, row.Clean) ∧ EndsVisibly (text.lines.map Row.ofText) ∧
      ∃ row ∈ text.lines.map Row.ofText, row.text ≠ [] ∧ row.indent = 0 := by
  refine ⟨?_, ?_, ?_⟩
  · intro row member
    obtain ⟨line, inside, rfl⟩ := List.mem_map.mp member
    exact clean_ofText (text.plain line inside) (text.trimmed line inside)
  · obtain ⟨front, last, same, filled⟩ := text.ends
    intro row ends
    rw [same, List.map_append, List.map_singleton, List.getLast?_concat, Option.some.injEq] at ends
    rw [← ends]
    exact text_ofText_ne_nil filled (text.trimmed last (by rw [same]; simp))
  · obtain ⟨line, inside, filled, flush⟩ := text.flush
    refine ⟨Row.ofText line, List.mem_map_of_mem inside,
      text_ofText_ne_nil filled (text.trimmed line inside), ?_⟩
    cases line with
    | nil => exact absurd rfl filled
    | cons c line =>
      have other : c ≠ ' ' := by simpa using flush
      simp [Row.ofText, other]

def Plain.column : Plain → Nat
  | .quote _ => quoteWidth
  | _ => 0

theorem Plain.column_eq_zero {block : Plain} (plain : ¬block.IsQuote) : block.column = 0 := by
  cases block with
  | quote => exact absurd trivial plain
  | para | list | literal => rfl

theorem isBody_sequence {blocks : List Plain} (filled : blocks ≠ []) (sequence : IsSequence blocks)
    (each : ∀ block ∈ blocks, IsBody block.column block.rows) :
    IsBody 0 (joinRows (blocks.map Plain.rows)) := by
  obtain ⟨first, others, rfl⟩ := List.exists_cons_of_ne_nil filled
  have flush := Plain.column_eq_zero (sequence.first first rfl)
  rw [List.map_cons, ← flush]
  apply (each first List.mem_cons_self).join
  intro rows member
  obtain ⟨block, inside, rfl⟩ := List.mem_map.mp member
  exact ⟨block.column, each block (List.mem_cons_of_mem first inside)⟩

/-- What is written of a block begins in its column and ends visibly. -/
theorem isBody_rows {block : Plain} (wellFormed : block.WellFormed) :
    IsBody block.column block.rows := by
  induction wellFormed with
  | para first others => exact isBody_para first others
  | literal text =>
    obtain ⟨clean, ends, _⟩ := rows_literal text
    obtain ⟨line, others, same, _⟩ := text.begins
    rw [Plain.rows]
    refine ⟨⟨_, _, rfl, rfl, ':', [':'], rfl, by decide⟩, ?_, ?_⟩
    · rw [← List.singleton_append]
      have shifted := ends.map_shift quoteWidth
      have filled : (text.lines.map Row.ofText).map (Row.shift quoteWidth) ≠ [] := by simp [same]
      apply endsVisibly_append (List.cons_ne_nil _ _)
      rw [← List.singleton_append]
      exact endsVisibly_append filled shifted
    · intro row member
      rcases List.mem_cons.mp member with rfl | later
      · exact ⟨by decide, by decide, by decide, .inr ⟨[':'], ':', rfl, by decide⟩⟩
      · rcases List.mem_cons.mp later with rfl | inside
        · exact Row.clean_empty
        · obtain ⟨inner, placed, rfl⟩ := List.mem_map.mp inside
          exact (clean inner placed).shift quoteWidth
  | quote blocks filled sequence inner ih =>
    have body := (isBody_sequence filled sequence ih).shift quoteWidth
    rw [Nat.zero_add] at body
    rw [Plain.rows, blockRows_eq_map]
    exact body
  | list numbered items filled sequence inner ih =>
    have each :
        ∀ item ∈ items, IsBody 0 (hang (itemLabel numbered) (joinRows (item.map Plain.rows))) := by
      intro item member
      exact (isBody_sequence (sequence item member).1 (sequence item member).2
        (ih item member)).hang numbered
    obtain ⟨first, others, rfl⟩ := List.exists_cons_of_ne_nil filled
    rw [Plain.rows, itemRows_eq_map, List.map_cons]
    apply (each first List.mem_cons_self).join
    intro rows member
    obtain ⟨item, inside, rfl⟩ := List.mem_map.mp member
    exact ⟨0, each item (List.mem_cons_of_mem first inside)⟩

theorem isBody_hang {bodies : List (List Row)} (each : ∀ rows ∈ bodies, IsBody 0 rows)
    (numbered : Bool) : ∀ rows ∈ bodies.map (hang (itemLabel numbered)), IsBody 0 rows := by
  intro rows member
  obtain ⟨body, inside, rfl⟩ := List.mem_map.mp member
  exact (each body inside).hang numbered

theorem exists_isBody_of_wellFormed {blocks : List Plain}
    (wellFormed : ∀ block ∈ blocks, block.WellFormed) :
    ∀ rows ∈ blocks.map Plain.rows, ∃ column, IsBody column rows := by
  intro rows member
  obtain ⟨block, inside, rfl⟩ := List.mem_map.mp member
  exact ⟨block.column, isBody_rows (wellFormed block inside)⟩

end RstPress.Document
