import RstPress.Proofs.Origin.Lines
import RstPress.Proofs.Strictness

/-!
Where problems show. A piece names lines of its own: those on which its entries and terms begin, and for a
paragraph its first line and the lines at which something is wrong about it. None of them is blank. All
other problems of a piece are those of its nested bodies, so every problem of a source names a line of it
that is not blank.
-/

namespace RstPress.Source

/-- The line is blank, or its number is among the places. -/
def Line.ShowsIn (places : Nat → Prop) (line : Line) : Prop := line.isBlank = false → places line.number

theorem keeps_showsIn (places : Nat → Prop) : Line.Keeps (Line.ShowsIn places) := by
  refine ⟨fun _ here => here, fun {line text} here ending visible _ => here ?_⟩
  cases text with
  | nil => cases visible
  | cons c text =>
    have filled : line.text ≠ [] := fun none => by
      rw [none, List.suffix_nil] at ending
      cases ending
    simpa [Line.isBlank] using filled

end RstPress.Source

namespace RstPress.Layout
open Source

/-- The line at which the literal block is missing. -/
def Announced.missing? : Announced → Option Nat
  | .missing line => some line
  | .nothing | .block _ => none

/-- The numbers of the lines that a piece names itself. -/
def Piece.named : Piece → List Nat
  | .quote _ | .transition | .list .. => []
  | .lineBlock entries => entries.map Entry.number
  | .definitionList items => items.map fun item => item.1.number
  | .paragraph text => text.line :: (text.interrupted.toList ++ text.literal.missing?.toList)

section named
variable {places : Nat → Prop} {line : Line} {rest lines : List Line}

theorem forall_number_entries (above : Nat) (each : ∀ line ∈ lines, line.ShowsIn places) :
    ∀ entry ∈ (entries above lines).1, places entry.number := by
  fun_induction entries above lines with
  | case1 => exact List.forall_mem_nil _
  | case2 => exact List.forall_mem_nil _
  | case3 above line rest content bar indent others remaining taken ih =>
    obtain ⟨here, later⟩ := List.forall_mem_cons.mp each
    have after := ih fun other member => later other ((List.dropWhile_sublist _).subset member)
    rw [taken] at after
    have filled : line.isBlank = false := by
      rw [← Bool.not_eq_true]
      intro blank
      rw [barAt?_of_isBlank blank] at bar
      cases bar
    exact List.forall_mem_cons.mpr ⟨here filled, after⟩

theorem forall_interruption? (each : ∀ line ∈ lines, line.ShowsIn places) :
    ∀ number ∈ (interruption? lines).toList, places number := by
  cases lines with
  | nil => exact List.forall_mem_nil _
  | cons next lines =>
    rw [interruption?]
    split
    · exact List.forall_mem_nil _
    · rename_i filled
      exact List.forall_mem_singleton.mpr (each next List.mem_cons_self (by simpa using filled))

theorem forall_missing?_announced {previous : Nat} (own : places previous)
    (each : ∀ line ∈ lines, line.ShowsIn places) :
    ∀ number ∈ (announced previous lines).1.missing?.toList, places number := by
  unfold announced
  split
  · exact List.forall_mem_singleton.mpr own
  · rename_i next others found
    split
    · exact List.forall_mem_nil _
    · have inside : next ∈ lines := (skipBlank_suffix lines).subset (found ▸ List.mem_cons_self)
      exact List.forall_mem_singleton.mpr (each next inside (isBlank_of_skipBlank_eq_cons found))

theorem forall_named_paragraph (filled : line.isBlank = false)
    (each : ∀ other ∈ line :: rest, other.ShowsIn places) :
    ∀ number ∈ (Piece.paragraph (paragraph line rest).1).named, places number := by
  obtain ⟨here, later⟩ := List.forall_mem_cons.mp each
  have after : ∀ other ∈ rest.dropWhile continuesParagraph, other.ShowsIn places := fun other member =>
    later other ((List.dropWhile_sublist _).subset member)
  -- Without a line after the paragraph its last line is named. No line of a paragraph is blank.
  have last : places (((line :: rest.takeWhile continuesParagraph).map Line.number).getLastD line.number) := by
    have alike : ∀ number ∈ line.number :: (line :: rest.takeWhile continuesParagraph).map Line.number,
        places number := by
      refine List.forall_mem_cons.mpr ⟨here filled, List.forall_mem_map.mpr ?_⟩
      refine List.forall_mem_cons.mpr ⟨here filled, fun other member => ?_⟩
      have continues : continuesParagraph other := List.all_eq_true.mp List.all_takeWhile other member
      rw [continuesParagraph, Bool.and_eq_true, Bool.not_eq_true'] at continues
      exact later other ((List.takeWhile_sublist _).subset member) continues.1
    exact alike _ List.getLastD_mem_cons
  refine List.forall_mem_cons.mpr ⟨here filled, List.forall_mem_append.mpr ⟨forall_interruption? after, ?_⟩⟩
  simp only [paragraph, paragraphOf]
  split
  · exact forall_missing?_announced last after
  · exact List.forall_mem_nil _

theorem forall_named_first (filled : line.isBlank = false)
    (each : ∀ other ∈ line :: rest, other.ShowsIn places) :
    ∀ number ∈ (Piece.first line rest).1.named, places number := by
  unfold Piece.first
  cases construct line rest with
  | quote | transition | list => exact List.forall_mem_nil _
  | lineBlock => exact List.forall_mem_map.mpr (forall_number_entries 0 each)
  | definitionList =>
    have terms := (forall_definitions (keeps_showsIn places) each).1
    exact List.forall_mem_map.mpr fun item member =>
      (terms item member).1 (isBlank_of_mem_definitions item member)
  | paragraph => exact forall_named_paragraph filled each

theorem place_of_headingAt? {heading : Heading} {after : List Line} (filled : line.isBlank = false)
    (each : ∀ other ∈ line :: rest, other.ShowsIn places)
    (found : headingAt? line rest = some (heading, after)) : places heading.line := by
  obtain ⟨title, member, shown, _, same⟩ := exists_title_of_headingAt? filled found
  rw [same]
  exact each title member shown

end named

end RstPress.Layout

namespace RstPress.Document
open Source Layout RstPress.Tree
variable {α β : Type} {places : Nat → Prop}

/-- All problems of the reading show at the places. -/
def Reading.ReportsIn (places : Nat → Prop) (reading : Reading α) : Prop :=
  ∀ problem ∈ reading.problems, places problem.line

theorem reportsIn_pure (a : α) : (pure a : Reading α).ReportsIn places := List.forall_mem_nil _

theorem reportsIn_bind {reading : Reading α} {next : α → Reading β} (here : reading.ReportsIn places)
    (later : ∀ a, (next a).ReportsIn places) : (reading >>= next).ReportsIn places := by
  unfold Reading.ReportsIn
  rw [Reading.problems_bind]
  exact List.forall_mem_append.mpr ⟨here, later _⟩

theorem reportsIn_note {problem : Problem} (here : places problem.line) :
    (note problem : Reading Unit).ReportsIn places :=
  List.forall_mem_singleton.mpr here

theorem reportsIn_notes {found : List Problem} (each : ∀ problem ∈ found, places problem.line) :
    (notes found : Reading Unit).ReportsIn places := by
  unfold Reading.ReportsIn
  rwa [Reading.problems_notes]

theorem reportsIn_readText {line : Nat} (here : places line) (text : List Char) :
    (readText line text : Reading (List Node)).ReportsIn places :=
  reportsIn_bind (reportsIn_notes (List.forall_mem_map.mpr fun _ _ => here)) fun _ => reportsIn_pure _

theorem reportsIn_noteWidth {heading : Heading} (here : places heading.line) :
    (noteWidth heading : Reading Unit).ReportsIn places := by
  unfold noteWidth
  split
  · exact reportsIn_pure ()
  · exact reportsIn_note here

theorem reportsIn_readVerses (base : Nat) {entries : List Entry}
    (each : ∀ entry ∈ entries, places entry.number) :
    (readVerses (nest base entries) : Reading (List Node)).ReportsIn places := by
  fun_induction nest base entries with
  | case1 => exact reportsIn_pure _
  | case2 base entry others flat ih =>
    obtain ⟨here, later⟩ := List.forall_mem_cons.mp each
    simp only [readVerses, readVerse]
    refine reportsIn_bind (reportsIn_bind (reportsIn_readText here _) fun _ => reportsIn_pure _) fun _ => ?_
    exact reportsIn_bind (ih later) fun _ => reportsIn_pure _
  | case3 base entry others deep run inner after =>
    obtain ⟨here, later⟩ := List.forall_mem_cons.mp each
    have inside : ∀ entry ∈ run, places entry.number := List.forall_mem_cons.mpr
      ⟨here, fun other member => later other ((List.takeWhile_sublist _).subset member)⟩
    have behind (other : Entry) (member : other ∈ others.dropWhile fun e => decide (base < e.indent)) :
        places other.number :=
      later other ((List.dropWhile_sublist _).subset member)
    simp only [readVerses, readVerse]
    refine reportsIn_bind (reportsIn_bind (inner inside) fun _ => reportsIn_pure _) fun _ => ?_
    exact reportsIn_bind (after behind) fun _ => reportsIn_pure _

theorem reportsIn_readLiteral {literal : Announced} (missing : ∀ number ∈ literal.missing?.toList, places number) :
    (readLiteral literal : Reading (List Node)).ReportsIn places := by
  cases literal with
  | nothing | block => exact reportsIn_pure _
  | missing line =>
    exact reportsIn_bind (reportsIn_note (List.forall_mem_singleton.mp missing)) fun _ => reportsIn_pure _

theorem reportsIn_readParagraph {text : Paragraph}
    (named : ∀ number ∈ (Piece.paragraph text).named, places number) :
    (readParagraph text : Reading (List Node)).ReportsIn places := by
  obtain ⟨here, others⟩ := List.forall_mem_cons.mp named
  obtain ⟨interrupted, missing⟩ := List.forall_mem_append.mp others
  have own : (readParagraphText text : Reading (List Node)).ReportsIn places := by
    unfold readParagraphText
    split
    · exact reportsIn_pure _
    · exact reportsIn_bind (reportsIn_readText here _) fun _ => reportsIn_pure _
  refine reportsIn_bind (reportsIn_notes (List.forall_mem_map.mpr interrupted)) fun _ => ?_
  exact reportsIn_bind own fun _ => reportsIn_bind (reportsIn_readLiteral missing) fun _ => reportsIn_pure _

theorem reportsIn_readBlocks {blocks : List Block}
    (each : ∀ block ∈ blocks, (readBlock block : Reading (List Node)).ReportsIn places) :
    (readBlocks blocks : Reading (List Node)).ReportsIn places := by
  induction blocks with
  | nil => exact reportsIn_pure _
  | cons block blocks ih =>
    obtain ⟨here, later⟩ := List.forall_mem_cons.mp each
    simp only [readBlocks]
    exact reportsIn_bind here fun _ => reportsIn_bind (ih later) fun _ => reportsIn_pure _

/-- The problems of a piece show at the lines that it names, or they are those of its nested bodies. -/
theorem reportsIn_readBlock {piece : Piece} (named : ∀ number ∈ piece.named, places number)
    (inner : ∀ body ∈ piece.bodies, ∀ block ∈ arrange body,
      (readBlock block : Reading (List Node)).ReportsIn places) :
    (readBlock piece.block : Reading (List Node)).ReportsIn places := by
  cases piece with
  | quote body =>
    simp only [Piece.block_quote, readBlock]
    exact reportsIn_bind (reportsIn_readBlocks (inner body List.mem_cons_self)) fun _ => reportsIn_pure _
  | transition => exact reportsIn_pure _
  | list marker items =>
    simp only [Piece.block_list, readBlock]
    refine reportsIn_bind (reportsIn_readBlocks (List.forall_mem_map.mpr fun body member => ?_))
      fun _ => reportsIn_pure _
    simp only [readBlock]
    exact reportsIn_bind (reportsIn_readBlocks (inner body member)) fun _ => reportsIn_pure _
  | lineBlock entries =>
    simp only [Piece.block_lineBlock, readBlock]
    exact reportsIn_bind (reportsIn_readVerses _ (List.forall_mem_map.mp named)) fun _ => reportsIn_pure _
  | definitionList items =>
    simp only [Piece.block_definitionList, readBlock]
    refine reportsIn_bind (reportsIn_readBlocks (List.forall_mem_map.mpr fun item member => ?_))
      fun _ => reportsIn_pure _
    have term := List.forall_mem_map.mp named item member
    have meaning := inner item.2 (List.mem_map_of_mem member)
    simp only [readBlock]
    exact reportsIn_bind (reportsIn_readText term _) fun _ =>
      reportsIn_bind (reportsIn_readBlocks meaning) fun _ => reportsIn_pure _
  | paragraph text => exact reportsIn_readParagraph named

theorem reportsIn_readBlock_strays {line : Line} {rest : List Line} (filled : line.isBlank = false)
    (each : ∀ other ∈ line :: rest, other.ShowsIn places) :
    ∀ block ∈ strays line rest, (readBlock block : Reading (List Node)).ReportsIn places := by
  unfold strays
  cases found : headingAt? line rest with
  | none => exact List.forall_mem_nil _
  | some heading =>
    have place := place_of_headingAt? filled each found
    refine List.forall_mem_singleton.mpr ?_
    simp only [readBlock]
    exact reportsIn_bind (reportsIn_noteWidth place) fun _ =>
      reportsIn_bind (reportsIn_note place) fun _ => reportsIn_pure _

/-- The problems of a text show at its lines, however deep they are nested. -/
theorem reportsIn_arrange {lines : List Line} (each : ∀ line ∈ lines, line.ShowsIn places) :
    ∀ block ∈ arrange lines, (readBlock block : Reading (List Node)).ReportsIn places := by
  fun_induction arrange lines with
  | case1 => exact List.forall_mem_nil _
  | case2 line rest blank ih => exact ih (List.forall_mem_cons.mp each).2
  | case3 line rest visible inner after =>
    have filled : line.isBlank = false := by simpa using visible
    obtain ⟨bodies, behind⟩ := forall_first (keeps_showsIn places) each
    have here := reportsIn_readBlock (forall_named_first filled each) fun body member =>
      inner body member (bodies body member)
    exact List.forall_mem_append.mpr ⟨reportsIn_readBlock_strays filled each,
      List.forall_mem_cons.mpr ⟨here, after behind⟩⟩

/-- The same of a document with its titles. -/
theorem reportsIn_readParts (styles : List Style) (last : UInt32) {lines : List Line}
    (each : ∀ line ∈ lines, line.ShowsIn places) :
    (readParts styles last (outline lines) : Reading (List Element)).ReportsIn places := by
  fun_induction outline lines generalizing styles last with
  | case1 => exact reportsIn_pure _
  | case2 line rest blank ih => exact ih _ _ (List.forall_mem_cons.mp each).2
  | case3 line rest visible heading after found ih =>
    have place := place_of_headingAt? (by simpa using visible) each found
    have behind : ∀ other ∈ after, other.ShowsIn places := fun other member =>
      each other (List.mem_cons_of_mem line ((headingAt?_suffix found).subset member))
    refine reportsIn_bind (reportsIn_noteWidth place) fun _ => ?_
    refine reportsIn_bind (reportsIn_notes fun problem member => ?_) fun _ => ?_
    · rw [List.mem_ite_nil_right, List.mem_singleton] at member
      rw [member.2]
      exact place
    · exact reportsIn_bind (reportsIn_readText place _) fun _ =>
        reportsIn_bind (ih _ _ behind) fun _ => reportsIn_pure _
  | case4 line rest visible none ih =>
    have filled : line.isBlank = false := by simpa using visible
    obtain ⟨bodies, behind⟩ := forall_first (keeps_showsIn places) each
    have here := reportsIn_readBlock (forall_named_first filled each) fun body member =>
      reportsIn_arrange (bodies body member)
    exact reportsIn_bind here fun _ => reportsIn_bind (ih _ _ behind) fun _ => reportsIn_pure _

end RstPress.Document

namespace RstPress
open Source Layout Document

theorem isVisibleAt_of_mem_problems {options : ReadOptions} {source : String} {problem : Problem}
    (member : problem ∈ problems options source) : IsVisibleAt source.toList problem.line := by
  have each : ∀ line ∈ lines options.tabWidth source.toList, line.ShowsIn (IsVisibleAt source.toList) :=
    fun line inside => (isFrom_of_mem_lines inside).isVisibleAt
  have whole : (Document.read options.tabWidth source : Reading Tree.Node).ReportsIn
      (IsVisibleAt source.toList) :=
    reportsIn_bind (reportsIn_readParts [] 0 each) fun _ => reportsIn_pure _
  exact whole problem member

/-- Reading fails with a problem only, and it is one that lenient reading reports. -/
theorem exists_problem_of_parse_error {options : ReadOptions} {source : String} {error : Error}
    (failed : parse options source = .error error) :
    ∃ problem ∈ problems options source, error = .markup problem := by
  cases mode : options.strict with
  | false =>
    rw [parse_of_lenient options mode] at failed
    cases failed
  | true =>
    rw [parse_of_strict options mode] at failed
    cases found : problems options source with
    | nil =>
      rw [found] at failed
      have lenient := parse_of_lenient { options with strict := false } rfl source
      exact absurd (lenient.symm.trans failed) (by simp)
    | cons first others =>
      rw [found] at failed
      cases failed
      exact ⟨first, List.mem_cons_self, rfl⟩

/-- Every problem that is reported, be it in passing or as the error of strict reading, names a line of
the source that is not blank. The lines of every text that is arranged on the way have increasing numbers,
and each ends what is shown of the source line of its number. -/
theorem reported_lines_are_real (options : ReadOptions) (source : String) :
    (∀ problem ∈ problems options source, IsVisibleAt source.toList problem.line) ∧
      (∀ error, parse options source = .error error →
        ∃ problem, error = .markup problem ∧ IsVisibleAt source.toList problem.line) ∧
      ∀ top body, IsArranged (lines options.tabWidth source.toList) top body →
        (numbers body).Pairwise (· < ·) ∧ ∀ line ∈ body, line.IsFrom options.tabWidth source.toList := by
  refine ⟨fun problem member => isVisibleAt_of_mem_problems member, fun error failed => ?_,
    fun top body arranged => ⟨?_, ?_⟩⟩
  · obtain ⟨problem, member, same⟩ := exists_problem_of_parse_error failed
    exact ⟨problem, same, isVisibleAt_of_mem_problems member⟩
  · exact (increasing_lines _ _).sublist arranged.numbers_sublist
  · exact arranged.forall (keeps_isFrom _ _) fun line member => isFrom_of_mem_lines member

/-- The body of an item that announces a literal block on its last line. -/
def openBody : List Line := [⟨0, "one".toList, 1⟩, ⟨0, [], 2⟩, ⟨0, "two::".toList, 3⟩]

theorem isArranged_openBody : IsArranged (lines 8 "* one\n\n  two::\n".toList) false openBody := by
  have given : lines 8 "* one\n\n  two::\n".toList =
      [⟨0, "* one".toList, 1⟩, ⟨0, [], 2⟩, ⟨2, "two::".toList, 3⟩] := by
    decide
  have first : (⟨[], ⟨0, "* one".toList, 1⟩, [⟨0, [], 2⟩, ⟨2, "two::".toList, 3⟩]⟩ : Stop) ∈
      stops true [] (lines 8 "* one\n\n  two::\n".toList) := by
    rw [given, stops_of_filled true [] _ (by decide)]
    exact List.mem_cons_self
  exact .body .document first (by decide +kernel)

theorem reported_lines_are_real_open :
    problems {} "* one\n\n  two::\n" = [⟨3, .missingLiteral⟩] ∧
      parse { strict := true } "* one\n\n  two::\n" = .error (.markup ⟨3, .missingLiteral⟩) ∧
      IsArranged (lines 8 "* one\n\n  two::\n".toList) false openBody ∧
      IsVisibleAt "* one\n\n  two::\n".toList 3 ∧
      (numbers openBody).Pairwise (· < ·) ∧
      ∀ line ∈ openBody, line.IsFrom 8 "* one\n\n  two::\n".toList := by
  have found : problems { strict := true } "* one\n\n  two::\n" = [⟨3, .missingLiteral⟩] := by
    decide +kernel
  have failed : parse { strict := true } "* one\n\n  two::\n" = .error (.markup ⟨3, .missingLiteral⟩) := by
    rw [parse_of_strict _ rfl, found]
  obtain ⟨_, fails, arranged⟩ := reported_lines_are_real { strict := true } "* one\n\n  two::\n"
  obtain ⟨problem, same, visible⟩ := fails _ failed
  obtain ⟨increasing, origin⟩ := arranged false openBody isArranged_openBody
  cases same
  exact ⟨found, failed, isArranged_openBody, visible, increasing, origin⟩

end RstPress
