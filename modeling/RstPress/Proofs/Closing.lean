import Mathlib.Order.Bounds.Defs
import RstPress.Proofs.Borders
import RstPress.Proofs.Cursor.Access

/-!
Where markup ends. The search for the end string reads the text in pairs, each a backslash and the character
behind it, and so does `unescape` with the content, once its end is known. Both divide the content in the same
way: the search looks for the end string only between pairs, so the content does not end inside one. As no
blank stands in front of the end string, the last character of the content stays when the backslashes go.
-/

namespace RstPress.Inline
open Text Cursor

/-- What is read at once: a character that stands for itself, or a backslash with the character behind it.
A backslash that ends a text has none. -/
inductive Step where
  | plain (c : Char)
  | pair (c : Char)
  | dangling
deriving DecidableEq

def Step.written : Step → List Char
  | .plain c => [c]
  | .pair c => ['\\', c]
  | .dangling => ['\\']

/-- An escaped space goes with its backslash. -/
def Step.shown : Step → List Char
  | .plain c => [c]
  | .pair c => if c = ' ' then [] else [c]
  | .dangling => []

/-- The steps in which a text is read from its beginning to its end. -/
def steps : List Char → List Step
  | [] => []
  | c :: text =>
    if c = '\\' then
      match text with
      | [] => [.dangling]
      | d :: text => .pair d :: steps text
    else .plain c :: steps text

/-- The text does not end inside a pair. -/
def IsWhole (text : List Char) : Prop := .dangling ∉ steps text

instance (text : List Char) : Decidable (IsWhole text) := inferInstanceAs (Decidable (_ ∉ _))

/-- A reading in pairs comes from one place to the other. -/
inductive Reaches (text : List Char) : (start place : Nat) → Prop where
  | here {place : Nat} : Reaches text place place
  | plain {start place : Nat} {c : Char} (first : text[start]? = some c) (ordinary : c ≠ '\\')
    (later : Reaches text (start + 1) place) : Reaches text start place
  | pair {start place : Nat} (first : text[start]? = some '\\') (later : Reaches text (start + 2) place) :
    Reaches text start place

/-- Markup whose content begins at `start` may end at a place: the reading comes to it, it lies behind the
start, the end string stands there, not behind a blank, and in front of what may follow it. -/
structure Markup.EndsAt (markup : Markup) (text : List Char) (start place : Nat) : Prop where
  reached : Reaches text start place
  past : start < place
  marked : markup.delimiter <+: text.drop place
  visible : ∀ c ∈ (text.take place).getLast?, isBlank c = false
  border : markup.mayEndBefore (text.drop (place + markup.delimiter.length))

/-- The content that begins at `start` is read alike in its text and on its own. The reading of the text comes
to exactly those places in it up to which the content has whole steps; the steps of the content are all whole;
and what `unescape` makes of them is not empty and ends visibly. -/
structure ReadsAlike (text : List Char) (start : Nat) (content : List Char) : Prop where
  places : ∀ front back, content = front ++ back →
    (Reaches text start (start + front.length) ↔ IsWhole front)
  whole : IsWhole content
  spelled : content = (steps content).flatMap Step.written
  shown : unescape content = (steps content).flatMap Step.shown
  filled : unescape content ≠ []
  visible : ∀ c ∈ (unescape content).getLast?, isBlank c = false

theorem steps_plain {c : Char} (ordinary : c ≠ '\\') (text : List Char) :
    steps (c :: text) = .plain c :: steps text := by
  rw [steps.eq_def]
  exact if_neg ordinary

theorem steps_pair (c : Char) (text : List Char) : steps ('\\' :: c :: text) = .pair c :: steps text := by
  rw [steps, if_pos rfl]

theorem isWhole_nil : IsWhole [] := List.not_mem_nil

theorem not_isWhole_backslash : ¬ IsWhole ['\\'] := by
  rw [IsWhole, steps, if_pos rfl]
  simp

theorem isWhole_plain_iff {c : Char} (ordinary : c ≠ '\\') (text : List Char) :
    IsWhole (c :: text) ↔ IsWhole text := by
  rw [IsWhole, steps_plain ordinary, IsWhole]
  simp

theorem isWhole_pair_iff (c : Char) (text : List Char) : IsWhole ('\\' :: c :: text) ↔ IsWhole text := by
  rw [IsWhole, steps_pair, IsWhole]
  simp

example : IsWhole ['a', '\\', '\\'] ∧ ¬ IsWhole ['a', '\\', '\\', '\\'] := by decide

theorem flatMap_written_steps (text : List Char) : (steps text).flatMap Step.written = text := by
  fun_induction steps text with
  | case1 => rfl
  | case2 => rfl
  | case3 d text ih => rw [List.flatMap_cons, ih]; rfl
  | case4 c text ordinary ih => rw [List.flatMap_cons, ih]; rfl

/-- Unescaping reads a text in these steps. -/
theorem unescape_eq_flatMap_shown (text : List Char) : unescape text = (steps text).flatMap Step.shown := by
  fun_induction steps text with
  | case1 => rfl
  | case2 => rfl
  | case3 d text ih =>
    rw [unescape, if_pos rfl, List.flatMap_cons, ← ih, Step.shown]
    split <;> rfl
  | case4 c text ordinary ih => rw [unescape_cons ordinary, List.flatMap_cons, ← ih]; rfl

section reading
variable {text : List Char} {start place : Nat}

theorem Reaches.le (reached : Reaches text start place) : start ≤ place := by
  induction reached with
  | here => exact Nat.le_refl _
  | plain | pair => omega

theorem reaches_plain_iff {c : Char} (first : text[start]? = some c) (ordinary : c ≠ '\\')
    (past : start < place) : Reaches text start place ↔ Reaches text (start + 1) place := by
  refine ⟨fun reached => ?_, .plain first ordinary⟩
  cases reached with
  | here => omega
  | plain _ _ later => exact later
  | pair escape => exact absurd (Option.some.inj (first.symm.trans escape)) ordinary

theorem reaches_pair_iff (first : text[start]? = some '\\') (past : start < place) :
    Reaches text start place ↔ Reaches text (start + 2) place := by
  refine ⟨fun reached => ?_, .pair first⟩
  cases reached with
  | here => omega
  | plain other ordinary => exact absurd (Option.some.inj (other.symm.trans first)) ordinary
  | pair _ later => exact later

/-- The reading comes to the end of a part exactly if the part does not end inside a pair. -/
theorem reaches_iff_isWhole {front back : List Char} (here : IsAt text start (front ++ back)) :
    Reaches text start (start + front.length) ↔ IsWhole front := by
  fun_induction steps front generalizing start with
  | case1 => exact iff_of_true .here isWhole_nil
  | case2 =>
    refine iff_of_false (fun reached => ?_) not_isWhole_backslash
    rw [reaches_pair_iff here.head? (by simp)] at reached
    have beyond := reached.le
    rw [List.length_singleton] at beyond
    omega
  | case3 d front ih =>
    have behind : start + ('\\' :: d :: front).length = start + 2 + front.length := by
      simp only [List.length_cons]
      omega
    rw [isWhole_pair_iff, ← ih here.succ.succ, behind, reaches_pair_iff here.head? (by omega)]
  | case4 c front ordinary ih =>
    have behind : start + (c :: front).length = start + 1 + front.length := by
      rw [List.length_cons]
      omega
    rw [isWhole_plain_iff ordinary, ← ih here.succ, behind, reaches_plain_iff here.head? ordinary (by omega)]

end reading

/-- The markup may end behind a content; `last` is the character in front of the content, if there is one. -/
structure Markup.Closes (markup : Markup) (last : Option Char) (text content rest : List Char) : Prop where
  parts : text = content ++ (markup.delimiter ++ rest)
  whole : IsWhole content
  visible : MayClose last content
  border : markup.mayEndBefore rest

section closing
variable {markup : Markup} {last : Option Char} {text content rest : List Char}

/-- An end string does not stand at a backslash, nor between it and its character. -/
theorem Markup.Closes.of_backslash (closes : markup.Closes last ('\\' :: text) content rest) :
    ∃ d inner later, text = d :: later ∧ content = '\\' :: d :: inner ∧
      markup.Closes (some d) later inner rest := by
  obtain ⟨parts, whole, visible, border⟩ := closes
  rcases List.cons_eq_append_iff.mp parts with ⟨rfl, stands⟩ | ⟨most, rfl, behind⟩
  · obtain ⟨c, others, same, plain⟩ := exists_of_delimiter markup rest
    exact absurd (List.cons.inj (same.symm.trans stands)).1 plain
  · cases most with
    | nil => exact absurd whole not_isWhole_backslash
    | cons d inner =>
      exact ⟨d, inner, _, behind, rfl, rfl, (isWhole_pair_iff d inner).mp whole, visible.tail.tail, border⟩

/-- At a character that stands for itself, the end string stands or the content goes on. -/
theorem Markup.Closes.of_plain {c : Char} (ordinary : c ≠ '\\')
    (closes : markup.Closes last (c :: text) content rest) :
    (markup.delimiter.isPrefixOf? (c :: text) = some rest ∧
        ((last.any fun d => !isBlank d) && markup.mayEndBefore rest) = true) ∨
      ∃ inner, content = c :: inner ∧ markup.Closes (some c) text inner rest := by
  obtain ⟨parts, whole, visible, border⟩ := closes
  rcases List.cons_eq_append_iff.mp parts with ⟨rfl, stands⟩ | ⟨inner, rfl, later⟩
  · refine .inl ⟨isPrefixOf?_eq_some_iff.mpr stands.symm, ?_⟩
    rw [mayClose_nil_iff.mp visible, border, Bool.and_self]
  · exact .inr ⟨inner, rfl, later, (isWhole_plain_iff ordinary inner).mp whole, visible.tail, border⟩

/-- The search does not pass over a content behind which the markup may end. Where the search takes a step, each
such content takes it too, or the markup ends. -/
theorem exists_close?_of_closes (escapes : markup.escapes) (closes : markup.Closes last text content rest) :
    ∃ inner after, markup.close? last text = some (inner, after) ∧ inner.length ≤ content.length := by
  fun_induction Markup.close? markup last text generalizing content with
  | case1 last =>
    have size := congrArg List.length closes.parts
    have positive := length_pos_delimiter markup
    simp only [List.length_append, List.length_nil] at size
    omega
  | case2 last c escaped =>
    obtain rfl : c = '\\' := by simpa [escapes] using escaped
    obtain ⟨d, inner, later, none, _⟩ := closes.of_backslash
    cases none
  | case3 last c escaped d text ih =>
    obtain rfl : c = '\\' := by simpa [escapes] using escaped
    obtain ⟨_, inner, _, same, rfl, later⟩ := closes.of_backslash
    cases same
    obtain ⟨first, after, found, le⟩ := ih later
    exact ⟨'\\' :: d :: first, after, by rw [found]; rfl, Nat.add_le_add_right le 2⟩
  | case4 => exact ⟨[], _, rfl, Nat.zero_le _⟩
  | case5 last c text plain after matched goes ih | case6 last c text plain unmatched ih =>
    have ordinary : c ≠ '\\' := by simpa [escapes] using plain
    rcases closes.of_plain ordinary with ⟨stands, ends⟩ | ⟨inner, rfl, later⟩
    · -- The end string does not stand here, or may not.
      simp_all
    · obtain ⟨first, after, found, le⟩ := ih later
      exact ⟨c :: first, after, by rw [found]; rfl, Nat.add_le_add_right le 1⟩

/-- A pair is passed over as a whole, so the content that is found does not end inside one. -/
theorem isWhole_of_close? (escapes : markup.escapes) (found : markup.close? last text = some (content, rest)) :
    IsWhole content := by
  replace found := finds_of_close? found
  induction found with
  | ends => exact isWhole_nil
  | pair _ later ih => exact (isWhole_pair_iff _ _).mpr ih
  | plain ordinary later ih => exact (isWhole_plain_iff (ordinary escapes) _).mpr ih

theorem closes_of_close? (escapes : markup.escapes) (found : markup.close? last text = some (content, rest)) :
    markup.Closes last text content rest where
  parts := by rw [eq_of_close? found, List.append_assoc]
  whole := isWhole_of_close? escapes found
  visible := (mayClose_of_close? found).1
  border := mayEndBefore_of_close? found

/-- Contents of one length in front of an end string are the same, and so is what follows. -/
theorem Markup.Closes.eq_of_length {inner after : List Char} (closes : markup.Closes last text content rest)
    (other : markup.Closes last text inner after) (size : content.length = inner.length) :
    content = inner ∧ rest = after := by
  have parts := closes.parts.symm.trans other.parts
  obtain ⟨same, behind⟩ := List.append_inj parts size
  exact ⟨same, List.append_cancel_left behind⟩

/-- Markup is closed behind the shortest content behind which it may end. -/
theorem close?_eq_some_iff (escapes : markup.escapes) :
    markup.close? last text = some (content, rest) ↔
      markup.Closes last text content rest ∧
        ∀ inner after, markup.Closes last text inner after → content.length ≤ inner.length := by
  constructor
  · intro found
    refine ⟨closes_of_close? escapes found, fun inner after other => ?_⟩
    obtain ⟨first, behind, same, le⟩ := exists_close?_of_closes escapes other
    cases found.symm.trans same
    exact le
  · rintro ⟨closes, least⟩
    obtain ⟨first, behind, found, le⟩ := exists_close?_of_closes escapes closes
    have other := closes_of_close? escapes found
    have size : content.length = first.length := Nat.le_antisymm (least first behind other) le
    obtain ⟨rfl, rfl⟩ := closes.eq_of_length other size
    exact found

/-- Markup is not closed exactly if there is no such content. -/
theorem close?_eq_none_iff (escapes : markup.escapes) :
    markup.close? last text = none ↔ ∀ content rest, ¬ markup.Closes last text content rest := by
  constructor
  · intro none content rest closes
    obtain ⟨first, behind, found, _⟩ := exists_close?_of_closes escapes closes
    rw [none] at found
    cases found
  · intro nowhere
    rw [Option.eq_none_iff_forall_ne_some]
    exact fun found same => nowhere found.1 found.2 (closes_of_close? escapes same)

end closing

section places
variable {markup : Markup} {text content rest back : List Char} {start place : Nat}

theorem getLast?_take (here : IsAt text start (content ++ back)) (filled : content ≠ []) :
    (text.take (start + content.length)).getLast? = content.getLast? := by
  obtain ⟨front, rfl, rfl⟩ := here
  rw [← List.append_assoc, ← List.length_append, List.take_left, List.getLast?_append_of_ne_nil _ filled]

/-- Whether the markup may end at a place is seen from the content in front of it and the text behind it. -/
theorem endsAt_add_iff (here : IsAt text start (content ++ back)) :
    markup.EndsAt text start (start + content.length) ↔
      IsWhole content ∧ MayClose none content ∧
        ∃ rest, back = markup.delimiter ++ rest ∧ markup.mayEndBefore rest := by
  constructor
  · rintro ⟨reached, past, ⟨rest, stands⟩, visible, border⟩
    have filled : content ≠ [] := by
      rintro rfl
      exact absurd past (Nat.lt_irrefl _)
    rw [here.add.drop_eq] at stands
    subst stands
    rw [getLast?_take here filled] at visible
    rw [here.add.add.drop_eq] at border
    exact ⟨(reaches_iff_isWhole here).mp reached, mayClose_none_iff.mpr ⟨filled, visible⟩, rest, rfl, border⟩
  · rintro ⟨whole, closes, rest, rfl, border⟩
    obtain ⟨filled, visible⟩ := mayClose_none_iff.mp closes
    have size := List.length_pos_iff.mpr filled
    exact
      { reached := (reaches_iff_isWhole here).mpr whole
        past := by omega
        marked := by rw [here.add.drop_eq]; exact List.prefix_append _ _
        visible := by rwa [getLast?_take here filled]
        border := by rwa [here.add.add.drop_eq] }

/-- A place where markup may end has a content in front of it. -/
theorem Markup.EndsAt.exists_content (ends : markup.EndsAt text start place) :
    ∃ content, IsAt text start (content ++ text.drop place) ∧ place = start + content.length := by
  have positive := length_pos_delimiter markup
  have size := ends.marked.length_le
  have past := ends.past
  rw [List.length_drop] at size
  have here : IsAt text start (text.drop start) := isAt_drop (by omega)
  obtain ⟨content, parts, same⟩ := here.exists_between (isAt_drop (by omega)) past.le
  rw [parts] at here
  exact ⟨content, here, same⟩

theorem Markup.Closes.isAt (closes : markup.Closes none (text.drop start) content rest) :
    IsAt text start (content ++ (markup.delimiter ++ rest)) := by
  have positive := length_pos_delimiter markup
  have size := congrArg List.length closes.parts
  simp only [List.length_drop, List.length_append] at size
  have here : IsAt text start (text.drop start) := isAt_drop (by omega)
  rwa [closes.parts] at here

/-- The places where the markup may end are the ends of the contents behind which it may. -/
theorem endsAt_iff :
    markup.EndsAt text start place ↔
      ∃ content rest, markup.Closes none (text.drop start) content rest ∧ place = start + content.length := by
  constructor
  · intro ends
    obtain ⟨content, here, rfl⟩ := ends.exists_content
    obtain ⟨whole, visible, rest, stands, border⟩ := (endsAt_add_iff here).mp ends
    refine ⟨content, rest, ⟨?_, whole, visible, border⟩, rfl⟩
    rw [here.drop_eq, stands]
  · rintro ⟨content, rest, closes, rfl⟩
    exact (endsAt_add_iff closes.isAt).mpr ⟨closes.whole, closes.visible, rest, rfl, closes.border⟩

/-- A content and what follows its end string are cut out of the text at the place of the end string. -/
theorem Markup.Closes.cuts (closes : markup.Closes none (text.drop start) content rest) :
    content = text.extract start (start + content.length) ∧
      rest = text.drop (start + content.length + markup.delimiter.length) := by
  have here := closes.isAt
  constructor
  · rw [List.extract_eq_take_drop, here.drop_eq, Nat.add_sub_cancel_left, List.take_left]
  · rw [here.add.add.drop_eq]

/-- The shortest content is the one in front of the first place. -/
theorem close?_drop_eq_some_iff (escapes : markup.escapes) :
    markup.close? none (text.drop start) = some (content, rest) ↔
      ∃ place, IsLeast {place | markup.EndsAt text start place} place ∧
        content = text.extract start place ∧ rest = text.drop (place + markup.delimiter.length) := by
  rw [close?_eq_some_iff escapes]
  constructor
  · rintro ⟨closes, least⟩
    refine ⟨start + content.length, ⟨endsAt_iff.mpr ⟨content, rest, closes, rfl⟩, ?_⟩, closes.cuts⟩
    intro later ends
    obtain ⟨inner, after, other, rfl⟩ := endsAt_iff.mp ends
    exact Nat.add_le_add_left (least inner after other) start
  · rintro ⟨place, ⟨ends, least⟩, rfl, rfl⟩
    obtain ⟨content, rest, closes, rfl⟩ := endsAt_iff.mp ends
    obtain ⟨same, behind⟩ := closes.cuts
    rw [← same, ← behind]
    refine ⟨closes, fun inner after other => ?_⟩
    exact Nat.le_of_add_le_add_left (least (endsAt_iff.mpr ⟨inner, after, other, rfl⟩))

/-- A content that is found is unescaped in the steps in which it was searched through. -/
theorem readsAlike_of_close? (escapes : markup.escapes)
    (found : markup.close? none (text.drop start) = some (content, rest)) : ReadsAlike text start content := by
  have closes := closes_of_close? escapes found
  obtain ⟨filled, visible⟩ := mayClose_none_iff.mp ((mayClose_of_close? found).2 escapes)
  refine ⟨?_, closes.whole, (flatMap_written_steps content).symm, unescape_eq_flatMap_shown content, filled,
    visible⟩
  rintro front back rfl
  have here := closes.isAt
  rw [List.append_assoc] at here
  exact reaches_iff_isWhole here

end places

/-- Markup in which a backslash escapes is closed at the first place behind the start of its content that the
reading in pairs comes to and that allows an end string, and it is not closed exactly if there is none.
The content in front of the place is unescaped in the steps in which it was searched through, so that no
backslash is left over, and it ends visibly also when the backslashes are gone. -/
theorem closes_at_first_end (markup : Markup) (escapes : markup.escapes) (text : List Char) (start : Nat) :
    (∀ content rest, markup.close? none (text.drop start) = some (content, rest) ↔
      ∃ place, IsLeast {place | markup.EndsAt text start place} place ∧
        content = text.extract start place ∧ rest = text.drop (place + markup.delimiter.length)) ∧
    (markup.close? none (text.drop start) = none ↔ ∀ place, ¬ markup.EndsAt text start place) ∧
    ∀ content rest, markup.close? none (text.drop start) = some (content, rest) →
      ReadsAlike text start content := by
  refine ⟨fun _ _ => close?_drop_eq_some_iff escapes, ?_, fun _ _ => readsAlike_of_close? escapes⟩
  rw [close?_eq_none_iff escapes]
  constructor
  · intro nowhere place ends
    obtain ⟨content, rest, closes, _⟩ := endsAt_iff.mp ends
    exact nowhere content rest closes
  · intro nowhere content rest closes
    exact nowhere _ (endsAt_iff.mpr ⟨content, rest, closes, rfl⟩)

/-- An escaped star, an escaped space and an escaped backslash stand in front of the star at the end. -/
def escapedStars : List Char := ['*', '\\', '*', '\\', ' ', '\\', '\\', '*', '.']

theorem closes_at_first_end_escaped :
    Markup.emphasis.escapes ∧
      Markup.emphasis.close? none (escapedStars.drop 1) =
        some (['\\', '*', '\\', ' ', '\\', '\\'], ['.']) ∧
      IsLeast {place | Markup.emphasis.EndsAt escapedStars 1 place} 7 ∧
      ReadsAlike escapedStars 1 ['\\', '*', '\\', ' ', '\\', '\\'] := by
  obtain ⟨closed, _, alike⟩ := closes_at_first_end .emphasis rfl escapedStars 1
  have found : Markup.emphasis.close? none (escapedStars.drop 1) =
      some (['\\', '*', '\\', ' ', '\\', '\\'], ['.']) := rfl
  obtain ⟨place, least, _, behind⟩ := (closed _ _).mp found
  obtain rfl : place = 7 := by
    have size : 1 = 9 - (place + 1) := (congrArg List.length behind).trans List.length_drop
    omega
  exact ⟨rfl, found, least, alike _ _ found⟩

end RstPress.Inline
