import RstPress.Proofs.Adornment

/-!
Where transitions stand. A transition is a line at the left margin with nothing directly below it. What
is above it is not asked: it is whatever came before left behind. Paragraphs and other transitions never
end directly above such a line, since the one takes it and the other has a blank line below; all else does
if no blank line separates them.
-/

namespace RstPress.Layout
open Text Source Document RstPress.Tree

theorem startsTransition_iff {line : Line} {rest : List Line} :
    startsTransition line rest ↔
      (∃ mark count, isPunctuation mark ∧ adornmentWidth ≤ count ∧
        line.text = List.replicate count mark) ∧ rest.head?.all Line.isBlank := by
  rw [startsTransition, Bool.and_eq_true, Bool.and_eq_true, decide_eq_true_eq, Option.isSome_iff_exists]
  apply and_congr_left
  intro _
  constructor
  · rintro ⟨⟨mark, adorned⟩, long⟩
    obtain ⟨punctuation, _, same⟩ := adornment?_eq_some_iff.mp adorned
    exact ⟨mark, line.text.length, punctuation, long, same⟩
  · rintro ⟨mark, count, punctuation, long, same⟩
    have positive : 0 < count := Nat.lt_of_lt_of_le (by decide) long
    refine ⟨⟨mark, same ▸ adornment?_replicate punctuation positive⟩, ?_⟩
    rwa [Line.width, same, List.length_replicate]

theorem construct_eq_transition_iff {line : Line} {rest : List Line} :
    construct line rest = .transition ↔ line.indent = 0 ∧ startsTransition line rest := by
  constructor
  · intro kind
    have begins := construct_begins line rest
    rw [kind] at begins
    cases begins with
    | transition flush starts => exact ⟨flush, starts⟩
  · rintro ⟨flush, starts⟩
    rw [construct, if_neg (by omega), if_pos starts]

theorem Construct.block_eq_transition_iff {line : Line} {rest : List Line} {construct : Construct} :
    (construct.take line rest).1.block = .transition ↔ construct = .transition := by
  cases construct <;> simp [Construct.take]

/-- The line of a stop is an adornment of at least four characters at the left margin, and nothing stands
directly below it. -/
structure Stop.IsBar (stop : Stop) : Prop where
  flush : stop.line.indent = 0
  repeats : ∃ mark count, isPunctuation mark ∧ adornmentWidth ≤ count ∧
    stop.line.text = List.replicate count mark
  below : stop.below.head?.all Line.isBlank

theorem Stop.isBar_iff {stop : Stop} :
    stop.IsBar ↔ stop.line.indent = 0 ∧ startsTransition stop.line stop.below := by
  rw [startsTransition_iff]
  exact ⟨fun bar => ⟨bar.flush, bar.repeats, bar.below⟩, fun ⟨flush, repeats, below⟩ => ⟨flush, repeats, below⟩⟩

theorem Stop.transition_mem_parts_iff {top : Bool} {stop : Stop} :
    .block .transition ∈ stop.parts top ↔ stop.IsBar := by
  have piece : stop.piece.block = .transition ↔ stop.IsBar := by
    rw [isBar_iff, ← construct_eq_transition_iff, ← Construct.block_eq_transition_iff]
    rfl
  have noStray : Block.transition ∉ strays stop.line stop.below := by
    unfold strays
    cases headingAt? stop.line stop.below <;> simp
  unfold parts
  cases found : stop.opens? top with
  | some heading =>
    have absent : ¬stop.IsBar := by
      intro bar
      have none : headingAt? stop.line stop.below = none := headingAt?_of_blank_below bar.below
      rw [opens?, none, ite_self] at found
      cases found
    simp [absent]
  | none =>
    rw [← piece]
    cases top <;> simp [noStray, eq_comm]

/-- Whether a piece can end directly above a line at the left margin that is not its own. -/
def Piece.isAbrupt : Piece → Bool
  | .transition => false
  | .paragraph text => match text.literal with
    | .block _ => true
    | .nothing | .missing _ => false
  | .quote _ | .list .. | .lineBlock _ | .definitionList _ => true

/-- Whether what begins at a stop can end directly above a line at the left margin. -/
def Stop.isAbrupt (top : Bool) (stop : Stop) : Bool := (stop.opens? top).isSome || stop.piece.isAbrupt

/-- A paragraph takes the lines at the left margin, up to the literal block that it announces. -/
theorem isAbrupt_paragraph {line next : Line} {rest others : List Line} (filled : next.isBlank = false)
    (flush : next.indent = 0) (after : (paragraph line rest).2 = next :: others) :
    (Piece.paragraph (paragraph line rest).1).isAbrupt := by
  have stops : rest.dropWhile continuesParagraph ≠ next :: others := by
    intro same
    have stuck := List.head?_dropWhile_not continuesParagraph rest
    rw [same] at stuck
    simp [continuesParagraph, filled, flush] at stuck
  simp only [paragraph, paragraphOf] at after ⊢
  split at after
  · rename_i literal
    rw [Piece.isAbrupt, if_pos literal]
    unfold announced at after ⊢
    split at after
    · exact absurd after stops
    · split at after
      · rename_i inset
        simp only [inset, if_true]
      · exact absurd after stops
  · exact absurd after stops

theorem Stop.isAbrupt_of_after {top : Bool} {stop : Stop} {next : Line} {others : List Line}
    (filled : next.isBlank = false) (flush : next.indent = 0) (after : stop.after top = next :: others) :
    stop.isAbrupt top := by
  unfold Stop.after at after
  unfold isAbrupt
  cases found : stop.opens? top with
  | some heading => rfl
  | none =>
    rw [found] at after
    rw [Option.isSome_none, Bool.false_or, piece]
    unfold Piece.first at after ⊢
    cases kind : construct stop.line stop.below with
    | quote | list | lineBlock | definitionList => rfl
    | transition =>
      have below := (startsTransition_iff.mp (construct_eq_transition_iff.mp kind).2).2
      have rest : stop.below = next :: others := by rwa [kind] at after
      rw [rest, List.head?_cons, Option.all_some, filled] at below
      cases below
    | paragraph =>
      rw [kind] at after
      exact isAbrupt_paragraph filled flush after

/-- What begins at a stop ends directly above another one, with a line that is not blank. -/
structure Stop.Meets (top : Bool) (previous stop : Stop) : Prop where
  above : stop.above = previous.above ++ previous.taken top
  filled : (previous.taken top).getLast?.any fun line => !line.isBlank

theorem Stop.Meets.after_eq {top : Bool} {lines : List Line} {previous stop : Stop}
    (meets : previous.Meets top stop) (inside : previous ∈ stops top [] lines)
    (member : stop ∈ stops top [] lines) : previous.after top = stop.line :: stop.below := by
  obtain ⟨before, filled⟩ := whole_of_mem_stops inside
  have here := (whole_of_mem_stops member).1
  have taken := previous.taken_append_after top filled
  have whole : stop.above ++ previous.after top = stop.above ++ stop.line :: stop.below :=
    calc
      _ = previous.above ++ (previous.taken top ++ previous.after top) := by
        rw [meets.above, List.append_assoc]
      _ = lines := by rw [taken, before, List.nil_append]
      _ = _ := here.symm
  exact List.append_cancel_left whole

/-- Blank lines at the end hide what is above them. -/
theorem all_getLast?_append_of_blank {front blanks : List Line} (quiet : ∀ line ∈ blanks, line.isBlank)
    (bare : blanks = [] → front.getLast?.all Line.isBlank) :
    (front ++ blanks).getLast?.all Line.isBlank := by
  rw [List.getLast?_append]
  cases ends : blanks.getLast? with
  | none => exact bare (List.getLast?_eq_none_iff.mp ends)
  | some last => exact quiet last (List.mem_of_getLast? ends)

/-- What is directly above a stop: a blank line or nothing, or the end of what began at another stop. -/
theorem all_getLast?_above_iff {top : Bool} {lines : List Line} {stop : Stop}
    (member : stop ∈ stops top [] lines) :
    stop.above.getLast?.all Line.isBlank ↔ ∀ previous ∈ stops top [] lines, ¬previous.Meets top stop := by
  constructor
  · rintro quiet previous inside ⟨same, shown⟩
    obtain ⟨last, ends, filled⟩ := (Option.any_eq_true ..).mp shown
    rw [same, List.getLast?_append, ends, Option.some_or, Option.all_some] at quiet
    rw [quiet] at filled
    cases filled
  · intro free
    obtain ⟨blanks, quiet, place⟩ := exists_previous_of_mem_stops member
    rcases place with first | ⟨previous, inside, same⟩
    · rw [first]
      exact all_getLast?_append_of_blank quiet fun _ => rfl
    · rw [same]
      apply all_getLast?_append_of_blank quiet
      intro none
      rw [none, List.append_nil] at same
      have filled := (whole_of_mem_stops inside).2
      have taken := mt List.getLast?_eq_none_iff.mp (previous.taken_ne_nil top filled)
      obtain ⟨last, ends⟩ := Option.ne_none_iff_exists'.mp taken
      rw [List.getLast?_append, ends, Option.some_or, Option.all_some, ← Bool.not_eq_false]
      intro shown
      have visible : (previous.taken top).getLast?.any fun line => !line.isBlank := by
        rw [ends, Option.any_some, shown]
        rfl
      exact free previous inside ⟨same, visible⟩

/-- The transitions of a document or of a nested body are its stops on a line of at least four adornment
characters with nothing directly below it, whatever is above. Only a title, a quote, a list, a line block,
a definition list or a literal block can end directly above such a line; else a blank line or nothing
precedes it. -/
theorem transitions_stand_above_blanks (top : Bool) (lines : List Line) :
    partsOf top lines = (stops top [] lines).flatMap (Stop.parts top) ∧
      ∀ stop ∈ stops top [] lines,
        (.block .transition ∈ stop.parts top ↔ stop.IsBar) ∧
        (stop.above.getLast?.all Line.isBlank ↔
          ∀ previous ∈ stops top [] lines, ¬previous.Meets top stop) ∧
        (stop.IsBar → ∀ previous ∈ stops top [] lines, previous.Meets top stop → previous.isAbrupt top) := by
  refine ⟨partsOf_eq_flatMap top [] lines, fun stop member =>
    ⟨stop.transition_mem_parts_iff, all_getLast?_above_iff member, ?_⟩⟩
  intro bar previous inside meets
  have filled := (whole_of_mem_stops member).2
  exact Stop.isAbrupt_of_after filled bar.flush (meets.after_eq inside member)

/-- A quote and a line of adornment directly below it. -/
def quotedLine : Line := ⟨2, "quote".toList, 1⟩

def barLine : Line := ⟨0, "-----".toList, 2⟩

def quotedStop : Stop := ⟨[], quotedLine, [barLine]⟩

def barStop : Stop := ⟨[quotedLine], barLine, []⟩

theorem stops_quotedBar : stops true [] [quotedLine, barLine] = [quotedStop, barStop] := by
  decide +kernel

theorem quotedStop_meets_barStop : quotedStop.Meets true barStop :=
  ⟨by decide +kernel, by decide +kernel⟩

theorem transition_mem_parts_barStop : .block .transition ∈ barStop.parts true :=
  barStop.transition_mem_parts_iff.mpr (Stop.isBar_iff.mpr ⟨rfl, by decide⟩)

theorem transitions_stand_above_blanks_quoted :
    barStop ∈ stops true [] [quotedLine, barLine] ∧ .block .transition ∈ barStop.parts true ∧
      quotedStop ∈ stops true [] [quotedLine, barLine] ∧ quotedStop.Meets true barStop ∧
      barStop.IsBar ∧ ¬barStop.above.getLast?.all Line.isBlank ∧ quotedStop.isAbrupt true := by
  have member : barStop ∈ stops true [] [quotedLine, barLine] := by
    rw [stops_quotedBar]
    exact List.mem_cons_of_mem _ List.mem_cons_self
  have inside : quotedStop ∈ stops true [] [quotedLine, barLine] := by
    rw [stops_quotedBar]
    exact List.mem_cons_self
  have found := transition_mem_parts_barStop
  obtain ⟨_, each⟩ := transitions_stand_above_blanks true [quotedLine, barLine]
  obtain ⟨transition, quiet, abrupt⟩ := each barStop member
  have bar := transition.mp found
  have meets := quotedStop_meets_barStop
  exact ⟨member, found, inside, meets, bar, fun blank => quiet.mp blank quotedStop inside meets,
    abrupt bar quotedStop inside meets⟩

/-- A quote directly above a transition. -/
theorem quote_above_transition :
    parse {} "  quote\n-----\n" = .ok (.composite .document
      [.composite .blockQuote [.composite .paragraph [.text "quote\n"]], .transition]) ∧
      ∃ stop ∈ stops true [] (lines 8 "  quote\n-----\n".toList),
        .block .transition ∈ stop.parts true ∧ ¬stop.above.getLast?.all Line.isBlank := by
  have whole : sections (elementsOf [] 0 (outline (lines 8 "  quote\n-----\n".toList))) =
      [.composite .blockQuote [.composite .paragraph [.text "quote\n"]], .transition] := by
    decide +kernel
  have given : lines 8 "  quote\n-----\n".toList = [quotedLine, barLine] := by decide
  constructor
  · rw [parse_of_lenient _ rfl, whole]
  · rw [given, stops_quotedBar]
    exact ⟨barStop, List.mem_cons_of_mem _ List.mem_cons_self, transition_mem_parts_barStop, by decide⟩

end RstPress.Layout
