import RstPress.Proofs.Cursor.Reading

/-!
Progress. Every pass of a loop moves its index on, so every loop comes to its end; what is taken from a line
on ends behind that line; and what is nested in it is lighter than the text that is being read. Together this
is why the reading of a source ends.
-/

namespace RstPress.Cursor
open Document Inline Layout Source
variable {σ : Type}

/-- A loop that comes to its end from every state and every index up to the limit, since each pass gives an
answer and goes on, if at all, from an index within the length to a greater one within the limit. -/
structure Terminates (length limit : Nat) (pass : σ → Nat → Option (Option (σ × Nat))) : Prop where
  answers (state : σ) {index : Nat} (within : index ≤ limit) : ∃ outcome, pass state index = some outcome
  advances {state later : σ} {index next : Nat} (goes : pass state index = some (some (later, next))) :
    index < length ∧ index < next ∧ next ≤ limit
  ends (state : σ) {index : Nat} (within : index ≤ limit) :
    ∃ last stop, loop? length pass state index = some (last, stop) ∧ index ≤ stop ∧ stop ≤ limit

/-- If every pass answers and advances, the loop ends: its index cannot advance for ever. -/
theorem Terminates.of_advances {length limit : Nat} {pass : σ → Nat → Option (Option (σ × Nat))}
    (answers : ∀ state index, index ≤ limit → ∃ outcome, pass state index = some outcome)
    (advances : ∀ state index later next, pass state index = some (some (later, next)) →
      index < length ∧ index < next ∧ next ≤ limit) : Terminates length limit pass where
  answers state index within := answers state index within
  advances goes := advances _ _ _ _ goes
  ends state index within := by
    induction left : limit - index using Nat.strong_induction_on generalizing state index with
    | h left ih =>
      obtain ⟨outcome, answer⟩ := answers state index within
      cases outcome with
      | none => exact ⟨state, index, loop?_of_ends answer, Nat.le_refl _, within⟩
      | some going =>
        obtain ⟨later, next⟩ := going
        obtain ⟨inside, forward, bounded⟩ := advances state index later next answer
        obtain ⟨last, stop, looped, le, bound⟩ := ih (limit - next) (by omega) later next bounded rfl
        exact ⟨last, stop, (loop?_of_advances answer forward inside).trans looped, forward.le.trans le, bound⟩

/-- What a pass gives at an index from which it may go on. -/
def Steps (limit index : Nat) (outcome : Option (Option (σ × Nat))) : Prop :=
  ∃ step, outcome = some step ∧ ∀ later next, step = some (later, next) → index < next ∧ next ≤ limit

theorem steps_none (limit index : Nat) : Steps limit index (some (none : Option (σ × Nat))) := ⟨none, rfl, nofun⟩

theorem steps_some {limit index next : Nat} (later : σ) (forward : index < next) (bounded : next ≤ limit) :
    Steps limit index (some (some (later, next))) :=
  ⟨_, rfl, fun _ _ same => by cases same; exact ⟨forward, bounded⟩⟩

/-- A pass over items terminates if it steps on at each item. -/
theorem Terminates.of_items {α : Type} {items : List α} {limit : Nat} {pass : σ → Nat → Option (Option (σ × Nat))}
    (beyond : ∀ state index, items.length ≤ index → pass state index = some none)
    (each : ∀ state index item rest, IsAt items index (item :: rest) → Steps limit index (pass state index)) :
    Terminates items.length limit pass := by
  refine .of_advances (fun state index _ => ?_) (fun state index later next goes => ?_)
  · by_cases inside : index < items.length
    · obtain ⟨item, rest, here⟩ := exists_isAt inside
      obtain ⟨step, answer, _⟩ := each state index item rest here
      exact ⟨step, answer⟩
    · exact ⟨none, beyond state index (Nat.not_lt.mp inside)⟩
  · by_cases inside : index < items.length
    · obtain ⟨item, rest, here⟩ := exists_isAt inside
      obtain ⟨step, answer, forward⟩ := each state index item rest here
      exact ⟨inside, forward later next (Option.some.inj (answer.symm.trans goes))⟩
    · rw [beyond state index (Nat.not_lt.mp inside)] at goes
      cases goes

variable {lines : List Line}

theorem terminates_itemPass? (marker : Marker) (lines : List Line) :
    Terminates lines.length lines.length (itemPass? marker lines) := by
  refine .of_items (fun _ _ beyond => visit?_of_le beyond _) fun items index line rest here => ?_
  cases marked : marker.at? line with
  | none =>
    rw [itemPass?_of_unmarked here marked items]
    exact steps_none _ _
  | some width =>
    obtain ⟨next, advances, forward, there⟩ := itemPass?_of_marked here marked items
    rw [advances]
    exact steps_some _ forward there.le

theorem terminates_definitionPass? (lines : List Line) :
    Terminates lines.length lines.length (definitionPass? lines) := by
  refine .of_items (fun _ _ beyond => visit?_of_le beyond _) fun items index term rest here => ?_
  by_cases starts : startsDefinition (term :: rest)
  · obtain ⟨next, advances, forward, there⟩ := definitionPass?_of_starts here starts items
    rw [advances]
    exact steps_some _ forward there.le
  · rw [definitionPass?_of_not_starts here starts items]
    exact steps_none _ _

theorem terminates_entryPass? (lines : List Line) :
    Terminates lines.length lines.length (entryPass? lines) := by
  refine .of_items (fun _ _ beyond => visit?_of_le beyond _) fun found index line rest here => ?_
  by_cases continued : continuesEntry line
  · rcases List.eq_nil_or_concat found with rfl | ⟨front, last, rfl⟩
    · have deep := continued
      simp only [continuesEntry, Bool.and_eq_true, decide_eq_true_eq] at deep
      rw [entryPass?_of_no_bar here (if_neg (by omega)) fun _ => rfl]
      exact steps_none _ _
    · rw [List.concat_eq_append, entryPass?_of_continued here continued]
      exact steps_some _ (Nat.lt_succ_self _) here.succ.le
  · cases bar : barAt? line with
    | none =>
      rw [entryPass?_of_no_bar here bar fun goes => absurd goes continued]
      exact steps_none _ _
    | some content =>
      rw [entryPass?_of_bar here bar]
      exact steps_some _ (Nat.lt_succ_self _) here.succ.le

theorem terminates_elementPass? (top : Bool) (lines : List Line) :
    Terminates lines.length lines.length (elementPass? top lines) := by
  refine .of_items (fun _ _ beyond => visit?_of_le beyond _) fun found index line rest here => ?_
  cases filled : line.isBlank with
  | true =>
    rw [elementPass?, here.visit?, if_pos filled]
    exact steps_some _ (Nat.lt_succ_self _) here.succ.le
  | false =>
    obtain ⟨next, kept, advances, forward, there, _⟩ := elementPass?_of_filled top [] here filled found
    rw [advances]
    exact steps_some _ forward there.le

theorem terminates_rowPass? (base : Nat) (entries : List Entry) :
    Terminates entries.length entries.length (rowPass? base entries) := by
  refine .of_items (fun _ _ beyond => visit?_of_le beyond _) fun rows index entry rest here => ?_
  by_cases flat : entry.indent ≤ base
  · rw [rowPass?, here.visit?, if_pos flat]
    exact steps_some _ (Nat.lt_succ_self _) here.succ.le
  · obtain ⟨next, advances, forward, there⟩ := rowPass?_of_deep here flat rows
    rw [advances]
    exact steps_some _ forward there.le

/-- Behind a backslash that ends its text the reading of tokens is one past the end. -/
theorem terminates_tokenPass? (text : List Char) :
    Terminates text.length (text.length + 1) (tokenPass? text) := by
  refine .of_items (fun _ _ beyond => visit?_of_le beyond _) fun found index c rest here => ?_
  obtain ⟨before, behind⟩ : ∃ before, before? text index = some before := by
    obtain ⟨front, rfl, rfl⟩ := here
    exact ⟨_, before?_eq front _⟩
  obtain ⟨own, next, advances, forward, beyond | ⟨_, _, there, _⟩⟩ := tokenPass?_eq here behind found
  · rw [advances]
    exact steps_some _ forward beyond.1.le
  · rw [advances]
    exact steps_some _ forward (Nat.le_succ_of_le there.le)

theorem exists_endsAt? (markup : Markup) {text rest : List Char} {index : Nat} (here : IsAt text index rest)
    (start : Nat) : ∃ ends, endsAt? markup text start index = some ends := by
  by_cases past : start < index
  · have inside : index - 1 < text.length := by
      have le := here.le
      omega
    have previous : previous? text index = some text[index - 1] := by
      rw [previous?, difference?_of_le (by omega), Option.bind_some, List.getElem?_eq_getElem inside]
    exact ⟨_, endsAt?_eq markup here (.behind past previous)⟩
  · exact ⟨false, if_neg fun both => past both.2⟩

theorem terminates_searchPass? (markup : Markup) (text : List Char) (start : Nat) :
    Terminates text.length (text.length + 1) (searchPass? markup text start) := by
  have positive := length_pos_delimiter markup
  refine .of_items (fun _ index beyond => if_neg (by omega)) fun _ index c rest here => ?_
  by_cases fits : index + markup.delimiter.length ≤ text.length
  · by_cases escaped : markup.escapes && c = '\\'
    · rw [searchPass?_of_escape here escaped fits]
      exact steps_some _ (by omega) (by omega)
    · obtain ⟨ends, found⟩ := exists_endsAt? markup here start
      rw [searchPass?_of_plain here escaped fits found]
      cases ends with
      | true => exact steps_none _ _
      | false => exact steps_some _ (Nat.lt_succ_self _) (by omega)
  · rw [searchPass?, if_neg fits]
    exact steps_none _ _

/-- What a pass over elements adds are pieces whose bodies are lighter than the lines. -/
theorem lighter_of_elementPass? {top : Bool} {lines : List Line} {found later : List (Part ⊕ Piece)}
    {index next : Nat} (goes : elementPass? top lines found index = some (some (later, next))) :
    ∃ added, later = found ++ added ∧
      ∀ piece, .inr piece ∈ added → ∀ body ∈ piece.bodies, weight body < weight lines := by
  have inside := ((terminates_elementPass? top lines).advances goes).1
  obtain ⟨line, rest, here⟩ := exists_isAt inside
  cases filled : line.isBlank with
  | true =>
    rw [elementPass?, here.visit?, if_pos filled] at goes
    cases goes
    exact ⟨[], (List.append_nil _).symm, fun _ member => absurd member List.not_mem_nil⟩
  | false =>
    obtain ⟨stop, kept, advances, _⟩ := elementPass?_of_filled top [] here filled found
    rw [advances] at goes
    cases goes
    refine ⟨_, rfl, fun piece member body nested => ?_⟩
    have first : piece = (Piece.first line rest).1 := by
      rw [foundAt] at member
      split at member
      · simp at member
      · simpa [Stop.piece] using member
    rw [first] at nested
    exact Nat.lt_of_lt_of_le ((Piece.weight_first rest filled).1 body nested) (weight_le_of_isAt here)

/-- Each loop over lines advances within them, the bodies that are nested in what is found are lighter than
the lines, and what begins on a line ends behind it; each loop over a text advances as well, if need be to
one past its end. So every text is arranged, and every source is read. -/
theorem reading_makes_progress :
    (∀ lines : List Line,
      (∀ top, Terminates lines.length lines.length (elementPass? top lines)) ∧
      (∀ marker, Terminates lines.length lines.length (itemPass? marker lines)) ∧
      Terminates lines.length lines.length (entryPass? lines) ∧
      Terminates lines.length lines.length (definitionPass? lines) ∧
      (∀ top found index later next, elementPass? top lines found index = some (some (later, next)) →
        ∃ added, later = found ++ added ∧
          ∀ piece, .inr piece ∈ added → ∀ body ∈ piece.bodies, weight body < weight lines) ∧
      (∀ construct start line, lines[start]? = some line → line.isBlank = false →
        Construct.Begins line (lines.drop (start + 1)) construct →
        ∃ piece stop, take? lines start construct = some (piece, stop) ∧ start < stop ∧ stop ≤ lines.length) ∧
      ∀ top, ∃ parts, elements? top lines = some parts) ∧
    (∀ base entries, Terminates entries.length entries.length (rowPass? base entries)) ∧
    (∀ text : List Char,
      Terminates text.length (text.length + 1) (tokenPass? text) ∧
      (∀ markup start, Terminates text.length (text.length + 1) (searchPass? markup text start)) ∧
      ∃ found, tokens? text = some found) ∧
    ∀ options source, ∃ outcome, parse? options source = some outcome := by
  refine ⟨fun lines => ⟨fun top => terminates_elementPass? top lines,
    fun marker => terminates_itemPass? marker lines, terminates_entryPass? lines, terminates_definitionPass? lines,
    fun _ _ _ _ _ goes => lighter_of_elementPass? goes, fun construct start line found filled begins => ?_,
    fun top => ⟨_, elements?_eq top lines⟩⟩, terminates_rowPass?,
    fun text => ⟨terminates_tokenPass? text, fun markup => terminates_searchPass? markup text, _, tokens?_eq text⟩,
    fun options source => ?_⟩
  · obtain ⟨stop, kept, taken, past, there, _⟩ := take?_eq (isAt_of_getElem? found) filled begins
    exact ⟨_, stop, taken, past, there.le⟩
  · rw [parse?, read?_eq, read?_eq]
    split <;> exact ⟨_, rfl⟩

end RstPress.Cursor
