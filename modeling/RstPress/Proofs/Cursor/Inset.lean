import RstPress.Proofs.Cursor.Access
import RstPress.Proofs.Extension.Piece

/-!
Blocks of lines by index. An inset block is found by the index at which it ends, blank lines are skipped by
walking forward, and a list gives back the blank lines behind its last item by walking backward. The walks
end where the lines go on as the recursive functions leave them.
-/

namespace RstPress.Cursor
open Text Source

/-- Where the inset block ends, given the place of the next line and the end of what is known of it. -/
def insetEndFrom (place stop : Nat) : List Line → Nat
  | [] => stop
  | line :: rest =>
    if line.isBlank then insetEndFrom (place + 1) stop rest
    else if line.indent < 1 then stop
    else insetEndFrom (place + 1) (place + 1) rest

/-- The end of the inset block that begins at an index. -/
def insetEnd (lines : List Line) (start : Nat) : Nat := insetEndFrom start start (lines.drop start)

/-- The index behind the last line that is not blank. -/
def filledEnd : List Line → Nat
  | [] => 0
  | line :: rest => if filledEnd rest = 0 ∧ line.isBlank then 0 else filledEnd rest + 1

def dedentBlock? (lines : List Line) : Option (List Line) := do
  let block ← slice? 0 (filledEnd lines) lines
  return block.map (Line.dedent (margin block))

/-- The first index from the given one on at which the lines end or a line does not satisfy `p`. -/
def skip? (p : Line → Bool) (lines : List Line) (start : Nat) : Option Nat :=
  let pass (_ : Unit) (index : Nat) : Option (Option (Unit × Nat)) :=
    visit? lines index fun line => some (if p line then some ((), index + 1) else none)
  (loop? lines.length pass () start).map Prod.snd

/-- Walks back over blank lines, but not to the line behind the start. -/
def retreat? (lines : List Line) (start : Nat) : Nat → Option Nat
  | 0 => some 0
  | index + 1 =>
    if start + 1 < index + 1 then do
      let previous ← lines[index]?
      if previous.isBlank then retreat? lines start index else some (index + 1)
    else some (index + 1)

/-- Dropping from the end goes through the list from its front. -/
theorem dropEndWhile_cons_eq {α : Type} (p : α → Bool) (first : α) (items : List α) :
    dropEndWhile p (first :: items) =
      if dropEndWhile p items = [] ∧ p first then [] else first :: dropEndWhile p items := by
  split
  · rename_i gone
    rw [dropEndWhile_eq_nil_iff] at gone ⊢
    exact List.forall_mem_cons.mpr ⟨gone.2, gone.1⟩
  · rename_i stays
    by_cases here : p first
    · exact dropEndWhile_append_of_ne_nil (fun gone => stays ⟨gone, here⟩) [first]
    · exact dropEndWhile_cons (by simpa using here) items

theorem insetEndFrom_eq (place stop : Nat) (lines : List Line) :
    insetEndFrom place stop lines =
      if insetBlock lines = [] then stop else place + (insetBlock lines).length := by
  induction lines generalizing place stop with
  | nil => rfl
  | cons line rest ih =>
    by_cases blank : line.isBlank
    · have block : insetBlock (line :: rest) = if insetBlock rest = [] then [] else line :: insetBlock rest := by
        rw [insetBlock, List.takeWhile_cons_of_pos (by simp [Line.isInset, blank]), dropEndWhile_cons_eq]
        simp only [blank, and_true]
        rfl
      rw [insetEndFrom, if_pos blank, ih, block]
      split
      · rfl
      · simp only [List.cons_ne_nil, if_false, List.length_cons]
        omega
    · rw [insetEndFrom, if_neg blank]
      split
      · rename_i flush
        rw [insetBlock, List.takeWhile_cons_of_neg (by simp [Line.isInset, blank]; omega)]
        rfl
      · rename_i deep
        have block : insetBlock (line :: rest) = line :: insetBlock rest := by
          rw [insetBlock, List.takeWhile_cons_of_pos (by simp [Line.isInset]; omega),
            dropEndWhile_cons (by simpa using blank)]
          rfl
        rw [ih, block]
        split
        · rename_i none
          simp [none]
        · simp only [List.cons_ne_nil, if_false, List.length_cons]
          omega

theorem insetEnd_eq {lines rest : List Line} {start : Nat} (here : IsAt lines start rest) :
    insetEnd lines start = start + (insetBlock rest).length := by
  rw [insetEnd, here.drop_eq, insetEndFrom_eq]
  split
  · rename_i none
    rw [none]
    rfl
  · rfl

/-- What an inset block takes is a slice, and behind it the lines go on. -/
theorem slice?_insetEnd {lines rest : List Line} {start : Nat} (here : IsAt lines start rest) :
    slice? start (insetEnd lines start) lines = some (insetBlock rest) ∧
      IsAt lines (insetEnd lines start) (afterInset rest) := by
  rw [insetEnd_eq here]
  rw [← insetBlock_append_afterInset rest] at here
  exact ⟨here.slice?, here.add⟩

theorem filledEnd_eq (lines : List Line) : filledEnd lines = (dropEndWhile Line.isBlank lines).length := by
  induction lines with
  | nil => rfl
  | cons line rest ih =>
    rw [filledEnd, dropEndWhile_cons_eq, ih]
    simp only [List.length_eq_zero_iff]
    split <;> rfl

theorem dedentBlock?_eq (lines : List Line) : dedentBlock? lines = some (dedentBlock lines) := by
  obtain ⟨ending, same⟩ := dropEndWhile_isPrefix Line.isBlank lines
  have kept : slice? 0 (filledEnd lines) lines = some (dropEndWhile Line.isBlank lines) := by
    have cut := (isAt_zero (dropEndWhile Line.isBlank lines ++ ending)).slice?
    rwa [Nat.zero_add, same, ← filledEnd_eq] at cut
  rw [dedentBlock?, kept]
  rfl

/-- Skipping is over where the lines go on behind those that satisfy `p`. -/
theorem skip?_eq {p : Line → Bool} {lines rest : List Line} {start : Nat} (here : IsAt lines start rest) :
    ∃ next, skip? p lines start = some next ∧ start ≤ next ∧ IsAt lines next (rest.dropWhile p) := by
  induction rest generalizing start with
  | nil =>
    have beyond : lines.length ≤ start := here.length_eq.ge
    exact ⟨start, by rw [skip?, loop?_of_ends (visit?_of_le beyond _)]; rfl, Nat.le_refl _, here⟩
  | cons line rest ih =>
    by_cases kept : p line
    · obtain ⟨next, skipped, le, there⟩ := ih here.succ
      refine ⟨next, ?_, Nat.le_of_succ_le le, by rwa [List.dropWhile_cons_of_pos kept]⟩
      have advances := here.visit? fun line => some (if p line then some ((), start + 1) else none)
      rw [if_pos kept] at advances
      rw [← skipped, skip?, skip?, loop?_of_advances advances (Nat.lt_succ_self _)
        (here.lt_iff.mpr (List.cons_ne_nil _ _))]
    · have ends := here.visit? fun line => some (if p line then some ((), start + 1) else none)
      rw [if_neg kept] at ends
      refine ⟨start, ?_, Nat.le_refl _, by rwa [List.dropWhile_cons_of_neg kept]⟩
      rw [skip?, loop?_of_ends ends]
      rfl

/-- Walking back ends behind the start, and only blank lines are given back. -/
theorem retreat?_eq {lines rest : List Line} {start index : Nat} (here : IsAt lines index rest)
    (behind : start < index) :
    ∃ stop kept, retreat? lines start index = some stop ∧ start < stop ∧ IsAt lines stop kept ∧
      skipBlank kept = skipBlank rest := by
  induction index generalizing rest with
  | zero => omega
  | succ index ih =>
    rw [retreat?]
    split
    · rename_i far
      obtain ⟨front, whole, size⟩ := here
      obtain ⟨most, previous, rfl⟩ := List.eq_nil_or_concat front |>.resolve_left fun none => by simp [none] at size
      rw [List.concat_eq_append, List.append_assoc, List.singleton_append] at whole
      have there : IsAt lines index (previous :: rest) := ⟨most, whole, by simpa using size⟩
      have found : lines[index]? = some previous := there.head?
      rw [found]
      by_cases blank : previous.isBlank
      · obtain ⟨stop, kept, back, past, last, same⟩ := ih there (by omega)
        refine ⟨stop, kept, by simpa [blank] using back, past, last, ?_⟩
        rw [same, skipBlank, List.dropWhile_cons_of_pos blank]
        rfl
      · exact ⟨index + 1, rest, by simp [blank], by omega, there.succ, rfl⟩
    · exact ⟨index + 1, rest, rfl, behind, here, rfl⟩

end RstPress.Cursor
