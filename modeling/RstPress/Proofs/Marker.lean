import RstPress.Layout.Piece
import RstPress.Proofs.Text

/-!
The markers of list items. An enumerator is an ordinal between marks; a label, that is a marker without
text, keeps its width if text follows; and a line that begins with a marker begins a list, unless it is
an enumerator with text at the margin directly below.
-/

namespace RstPress.Layout
open Text Source

theorem spacedWidth?_eq {length width : Nat} {after : List Char}
    (found : spacedWidth? length after = some width) :
    width = length + (after.takeWhile (· = ' ')).length := by
  simp only [spacedWidth?, Option.ite_none_right_eq_some, Option.some.injEq] at found
  exact found.2.symm

/-- The marks in front of an ordinal and behind it. -/
inductive Framed : List Char → Char → Prop where
  | period : Framed [] '.'
  | parenthesis : Framed [] ')'
  | parentheses : Framed ['('] ')'

/-- The parts of an enumerator. -/
theorem exists_of_enumeratorWidth? {text : List Char} {width : Nat}
    (found : enumeratorWidth? text = some width) :
    ∃ front ordinal close after, text = front ++ ordinal ++ close :: after ∧ Framed front close ∧
      (∀ c ∈ ordinal, isEnumeratorChar c) ∧ isOrdinal ordinal ∧
      spacedWidth? (front.length + ordinal.length + 1) after = some width := by
  cases text with
  | nil => cases found
  | cons c text =>
    simp only [enumeratorWidth?] at found
    split at found
    · cases found
    · rename_i close after ended
      rw [Option.ite_none_right_eq_some] at found
      obtain ⟨marked, spaced⟩ := found
      simp only [Bool.and_eq_true, Bool.or_eq_true, decide_eq_true_eq] at marked
      obtain ⟨ordinal, mark⟩ := marked
      by_cases opened : c = '('
      · simp only [opened, decide_true, if_true, Bool.not_true, Bool.false_eq_true, and_false,
          or_false] at ended spaced ordinal mark
        refine ⟨['('], text.takeWhile isEnumeratorChar, close, after, ?_, ?_, ?_, ordinal, ?_⟩
        · rw [List.append_assoc, ← ended, List.takeWhile_append_dropWhile, opened]
          rfl
        · rw [mark]
          exact .parentheses
        · exact fun d member => List.mem_takeWhile_imp member
        · rw [List.length_singleton, Nat.add_right_comm]
          exact spaced
      · simp only [opened, decide_false, Bool.false_eq_true, if_false, Bool.not_false,
          and_true] at ended spaced ordinal mark
        refine ⟨[], (c :: text).takeWhile isEnumeratorChar, close, after, ?_, ?_, ?_, ordinal, ?_⟩
        · rw [List.nil_append, ← ended, List.takeWhile_append_dropWhile]
        · rcases mark with rfl | rfl
          · exact .parenthesis
          · exact .period
        · exact fun d member => List.mem_takeWhile_imp member
        · rw [List.length_nil, Nat.zero_add, Nat.add_comm]
          exact spaced

theorem Framed.isEnumeratorChar_close {front : List Char} {close : Char} (framed : Framed front close) :
    isEnumeratorChar close = false := by
  cases framed <;> decide

theorem enumeratorWidth?_of_framed {front ordinal : List Char} {close : Char}
    (framed : Framed front close) (chars : ∀ c ∈ ordinal, isEnumeratorChar c)
    (whole : isOrdinal ordinal) (after : List Char) :
    enumeratorWidth? (front ++ ordinal ++ close :: after) =
      spacedWidth? (front.length + ordinal.length + 1) after := by
  have stops : ¬isEnumeratorChar close = true := by simp [framed.isEnumeratorChar_close]
  have taken : (ordinal ++ close :: after).takeWhile isEnumeratorChar = ordinal := by
    rw [List.takeWhile_append_of_pos chars, List.takeWhile_cons_of_neg stops, List.append_nil]
  have dropped : (ordinal ++ close :: after).dropWhile isEnumeratorChar = close :: after := by
    rw [List.dropWhile_append_of_pos chars, List.dropWhile_cons_of_neg stops]
  cases framed with
  | parentheses =>
    simp only [enumeratorWidth?, List.cons_append, List.nil_append, decide_true, if_true, taken,
      dropped, whole, Bool.not_true, Bool.and_false, Bool.or_false, Bool.and_self,
      List.length_singleton]
    congr 1
    omega
  | period | parenthesis =>
    obtain ⟨c, others, rfl⟩ : ∃ c others, ordinal = c :: others :=
      List.exists_cons_of_ne_nil (by rintro rfl; cases whole)
    have other : c ≠ '(' := by
      rintro rfl
      exact absurd (chars '(' List.mem_cons_self) (by decide)
    rw [List.cons_append] at taken dropped
    simp only [enumeratorWidth?, List.nil_append, List.cons_append, other, decide_false,
      Bool.false_eq_true, if_false, taken, dropped, whole]
    simp [Nat.add_comm]

theorem width?_enumerator (text : List Char) :
    Marker.enumerator.width? text = enumeratorWidth? text := by
  cases text <;> rfl

/-- The ordinals, form by form. -/
inductive IsOrdinal : List Char → Prop where
  | digits {ordinal : List Char} (filled : ordinal ≠ []) (each : ∀ c ∈ ordinal, c.isDigit) :
    IsOrdinal ordinal
  | letter {c : Char} (letter : c.isAlpha) : IsOrdinal [c]
  | lower {ordinal : List Char} (filled : ordinal ≠ [])
    (each : ∀ c ∈ ordinal, c ∈ ['i', 'v', 'x', 'l', 'c', 'd', 'm']) : IsOrdinal ordinal
  | upper {ordinal : List Char} (filled : ordinal ≠ [])
    (each : ∀ c ∈ ordinal, c ∈ ['I', 'V', 'X', 'L', 'C', 'D', 'M']) : IsOrdinal ordinal
  | automatic : IsOrdinal ['#']

theorem isOrdinal_iff {ordinal : List Char} : isOrdinal ordinal ↔ IsOrdinal ordinal := by
  constructor
  · intro whole
    simp only [isOrdinal, Bool.and_eq_true, Bool.or_eq_true, Bool.not_eq_true', List.isEmpty_eq_false_iff,
      List.all_eq_true, decide_eq_true_eq, or_assoc] at whole
    obtain ⟨filled, digits | ⟨one, letter⟩ | lower | upper | rfl⟩ := whole
    · exact .digits filled digits
    · obtain ⟨c, rfl⟩ := List.length_eq_one_iff.mp one
      exact .letter (letter c List.mem_cons_self)
    · exact .lower filled fun c member => List.contains_iff_mem.mp (lower c member)
    · exact .upper filled fun c member => List.contains_iff_mem.mp (upper c member)
    · exact .automatic
  · intro sound
    cases sound with
    | digits filled each => simp [isOrdinal, filled, List.all_eq_true.mpr each]
    | letter letter => simp [isOrdinal, letter]
    | lower filled each =>
      have all : ordinal.all isLowerRoman :=
        List.all_eq_true.mpr fun c member => List.contains_iff_mem.mpr (each c member)
      simp [isOrdinal, filled, all]
    | upper filled each =>
      have all : ordinal.all isUpperRoman :=
        List.all_eq_true.mpr fun c member => List.contains_iff_mem.mpr (each c member)
      simp [isOrdinal, filled, all]
    | automatic => decide

theorem isEnumeratorChar_of_isAlphanum {c : Char} (plain : c.isAlphanum) : isEnumeratorChar c := by
  rw [isEnumeratorChar, plain, Bool.true_or]

theorem IsOrdinal.isEnumeratorChar {ordinal : List Char} (sound : IsOrdinal ordinal) :
    ∀ c ∈ ordinal, isEnumeratorChar c := by
  have lower : ['i', 'v', 'x', 'l', 'c', 'd', 'm'].all Layout.isEnumeratorChar := by decide
  have upper : ['I', 'V', 'X', 'L', 'C', 'D', 'M'].all Layout.isEnumeratorChar := by decide
  cases sound with
  | digits filled each =>
    exact fun c member => isEnumeratorChar_of_isAlphanum (by simp [Char.isAlphanum, each c member])
  | letter letter =>
    exact List.forall_mem_singleton.mpr
      (isEnumeratorChar_of_isAlphanum (by rw [Char.isAlphanum, letter, Bool.true_or]))
  | lower filled each => exact fun c member => List.all_eq_true.mp lower c (each c member)
  | upper filled each => exact fun c member => List.all_eq_true.mp upper c (each c member)
  | automatic => exact List.forall_mem_singleton.mpr (by decide)

/-- A bullet, or an ordinal between its marks, with any number of spaces behind. -/
inductive IsLabel : Marker → List Char → Prop where
  | bullet {mark : Char} (one : mark ∈ ['-', '*', '+']) (spaces : Nat) :
    IsLabel (.bullet mark) (mark :: List.replicate spaces ' ')
  | enumerator {front ordinal : List Char} {close : Char} (framed : Framed front close)
    (sound : IsOrdinal ordinal) (spaces : Nat) :
    IsLabel .enumerator (front ++ ordinal ++ close :: List.replicate spaces ' ')

theorem bullet?_of_width? {mark : Char} {text : List Char}
    (marked : ((Marker.bullet mark).width? text).isSome) : bullet? text = some (.bullet mark) := by
  cases text with
  | nil => cases marked
  | cons c after =>
    have same : c = mark := by
      by_contra other
      simp [Marker.width?, other] at marked
    rw [same] at marked ⊢
    rw [bullet?, if_pos marked]

theorem at?_of_unmarked {line : Line} (noBullet : bullet? line.text = none)
    (noEnumerator : enumeratorWidth? line.text = none) (marker : Marker) : marker.at? line = none := by
  cases found : marker.at? line with
  | none => rfl
  | some width =>
    have marked := (Option.ite_none_right_eq_some.mp found).2
    cases marker with
    | bullet mark =>
      have begins := bullet?_of_width? (Option.isSome_of_eq_some marked)
      rw [noBullet] at begins
      cases begins
    | enumerator =>
      rw [width?_enumerator, noEnumerator] at marked
      cases marked

/-- A bullet is no adornment that could be a transition. -/
theorem startsTransition_of_bullet {mark : Char} {line : Line} (rest : List Line)
    (marked : ((Marker.bullet mark).width? line.text).isSome) : startsTransition line rest = false := by
  rw [Bool.eq_false_iff]
  intro starts
  simp only [startsTransition, Bool.and_eq_true, Line.width] at starts
  obtain ⟨⟨adorned, long⟩, _⟩ := starts
  cases shown : line.text with
  | nil => simp [shown, Marker.width?] at marked
  | cons c after =>
    simp only [shown, Marker.width?, spacedWidth?] at marked
    cases after with
    | nil => simp [shown, adornmentWidth] at long
    | cons d after =>
      have space : d = ' ' := by
        by_contra other
        simp [other] at marked
      have bullet : isBullet c := by
        by_contra other
        simp [other] at marked
      have other : c ≠ ' ' := by
        rintro rfl
        exact absurd bullet (by decide)
      simp [shown, adornment?, space, other.symm] at adorned

theorem construct_of_bullet {mark : Char} {line : Line} (rest : List Line)
    (marked : ((Marker.bullet mark).at? line).isSome) : construct line rest = .list (.bullet mark) := by
  obtain ⟨width, found⟩ := Option.isSome_iff_exists.mp marked
  obtain ⟨flush, begins⟩ := Option.ite_none_right_eq_some.mp found
  have bullet := bullet?_of_width? (Option.isSome_of_eq_some begins)
  have noTransition := startsTransition_of_bullet rest (Option.isSome_of_eq_some begins)
  simp [construct, flush, noTransition, listMarker?, bullet]

/-- A text with a space in it is no adornment. -/
theorem adornment?_of_space {text : List Char} (space : ' ' ∈ text) : adornment? text = none := by
  cases text with
  | nil => rfl
  | cons mark others =>
    rw [adornment?, if_neg]
    rw [Bool.and_eq_true]
    rintro ⟨punctuation, all⟩
    have same : ' ' = mark := by
      rcases List.mem_cons.mp space with here | later
      · exact here
      · exact of_decide_eq_true (List.all_eq_true.mp all ' ' later)
    rw [← same] at punctuation
    exact absurd punctuation (by decide)

theorem isBlank_of_isEnumeratorChar {c : Char} (plain : isEnumeratorChar c) : isBlank c = false := by
  simp only [isEnumeratorChar, Bool.or_eq_true, decide_eq_true_eq] at plain
  rcases plain with letter | rfl
  · exact isBlank_of_isAlphanum c letter
  · decide

theorem isBullet_of_isEnumeratorChar {c : Char} (plain : isEnumeratorChar c) : isBullet c = false := by
  simp only [isEnumeratorChar, Bool.or_eq_true, decide_eq_true_eq] at plain
  rcases plain with letter | rfl
  · rw [← Bool.not_eq_true]
    intro bullet
    exact (code_of_isPunctuation (isPunctuation_of_isBullet bullet)).2.2 letter
  · decide

theorem exists_first_of_enumerator {text : List Char} {width : Nat}
    (found : enumeratorWidth? text = some width) :
    ∃ c others, text = c :: others ∧ isBlank c = false ∧ isBullet c = false := by
  obtain ⟨front, ordinal, close, after, rfl, framed, chars, whole, _⟩ :=
    exists_of_enumeratorWidth? found
  cases framed with
  | parentheses => exact ⟨'(', _, rfl, by decide, by decide⟩
  | period | parenthesis =>
    obtain ⟨c, others, rfl⟩ : ∃ c others, ordinal = c :: others :=
      List.exists_cons_of_ne_nil (by rintro rfl; cases whole)
    exact ⟨c, _, rfl, isBlank_of_isEnumeratorChar (chars c List.mem_cons_self),
      isBullet_of_isEnumeratorChar (chars c List.mem_cons_self)⟩

theorem bullet?_of_enumerator {text : List Char} {width : Nat}
    (found : enumeratorWidth? text = some width) : bullet? text = none := by
  obtain ⟨c, others, rfl, _, plain⟩ := exists_first_of_enumerator found
  simp [bullet?, Marker.width?, plain]

/-- A line with a marker and text behind it begins a list if no text at the margin is directly below. -/
theorem construct_of_marked {marker : Marker} {line : Line} {rest : List Line} {width : Nat}
    (marked : marker.at? line = some width) (spaced : ' ' ∈ line.text)
    (below : rest.head?.all Line.isInset) : construct line rest = .list marker := by
  obtain ⟨flush, begins⟩ := Option.ite_none_right_eq_some.mp marked
  have noTransition : startsTransition line rest = false := by
    simp [startsTransition, adornment?_of_space spaced]
  have found : listMarker? line rest = some marker := by
    cases marker with
    | bullet mark => simp [listMarker?, bullet?_of_width? (Option.isSome_of_eq_some begins)]
    | enumerator =>
      -- An enumerator needs the next line to be blank, indented or an item; the last is not used.
      rw [width?_enumerator] at begins
      have starts : startsEnumeration line rest := by
        rw [startsEnumeration, begins, Option.isSome_some, Bool.true_and]
        cases rest with
        | nil => rfl
        | cons next rest =>
          have inset : (next.isBlank || decide (0 < next.indent)) = true := below
          simp [inset]
      simp [listMarker?, bullet?_of_enumerator begins, starts]
  simp [construct, flush, noTransition, found]

section label
variable {marker : Marker} {label : List Char}

theorem spaces_of_spacedWidth? {length : Nat} {spaces : List Char}
    (whole : spacedWidth? length spaces = some (length + spaces.length)) :
    ∀ c ∈ spaces, decide (c = ' ') := by
  have same := spacedWidth?_eq whole
  exact List.takeWhile_eq_self_iff.mp ((List.takeWhile_prefix _).eq_of_length (by omega))

theorem eq_replicate_of_spacedWidth? {length : Nat} {spaces : List Char}
    (whole : spacedWidth? length spaces = some (length + spaces.length)) :
    spaces = List.replicate spaces.length ' ' :=
  List.eq_replicate_iff.mpr
    ⟨rfl, fun c member => of_decide_eq_true (spaces_of_spacedWidth? whole c member)⟩

theorem spacedWidth?_replicate (length spaces : Nat) :
    spacedWidth? length (List.replicate spaces ' ') = some (length + spaces) := by
  cases spaces with
  | zero => rfl
  | succ spaces => simp [spacedWidth?]

/-- One space more belongs to the width of a marker. -/
theorem spacedWidth?_append {length : Nat} {spaces : List Char} {c : Char}
    (whole : spacedWidth? length spaces = some (length + spaces.length)) (visible : c ≠ ' ')
    (after : List Char) :
    spacedWidth? length (spaces ++ ' ' :: c :: after) = some (length + spaces.length + 1) := by
  have longer : (spaces ++ ' ' :: c :: after).takeWhile (· = ' ') = spaces ++ [' '] := by
    rw [List.takeWhile_append_of_pos (spaces_of_spacedWidth? whole)]
    simp [visible]
  simp [spacedWidth?, longer, Nat.add_assoc]

/-- What stands in front of the spaces of a marker. -/
structure Marker.IsFront (marker : Marker) (front : List Char) : Prop where
  filled : front ≠ []
  visible : ∀ c ∈ front, isBlank c = false
  width : ∀ after, marker.width? (front ++ after) = spacedWidth? front.length after

theorem isFront_bullet {mark : Char} (bullet : isBullet mark) : (Marker.bullet mark).IsFront [mark] := by
  refine ⟨List.cons_ne_nil mark [], ?_, ?_⟩
  · rw [List.forall_mem_singleton]
    exact isBlank_of_isPunctuation (isPunctuation_of_isBullet bullet)
  · intro after
    simp [Marker.width?, bullet]

theorem isFront_enumerator {front ordinal : List Char} {close : Char} (framed : Framed front close)
    (chars : ∀ c ∈ ordinal, isEnumeratorChar c) (whole : isOrdinal ordinal) :
    Marker.enumerator.IsFront (front ++ ordinal ++ [close]) := by
  refine ⟨by simp, ?_, ?_⟩
  · have marks : (front ++ [close]).all fun c => !isBlank c := by cases framed <;> decide
    obtain ⟨before, behind⟩ : (∀ c ∈ front, isBlank c = false) ∧ isBlank close = false := by
      simpa using marks
    intro c member
    simp only [List.mem_append, List.mem_singleton] at member
    rcases member with (opening | inside) | rfl
    · exact before c opening
    · exact isBlank_of_isEnumeratorChar (chars c inside)
    · exact behind
  · intro after
    have length : (front ++ ordinal ++ [close]).length = front.length + ordinal.length + 1 := by
      simp [Nat.add_assoc]
    rw [length, width?_enumerator, List.append_assoc, List.singleton_append,
      enumeratorWidth?_of_framed framed chars whole]

variable (labelled : marker.width? label = some label.length)
include labelled

/-- A label is a marker and the spaces that belong to it. -/
theorem exists_of_label :
    ∃ front spaces, label = front ++ spaces ∧ marker.IsFront front ∧
      spacedWidth? front.length spaces = some (front.length + spaces.length) := by
  obtain ⟨front, spaces, same, isFront⟩ :
      ∃ front spaces, label = front ++ spaces ∧ marker.IsFront front := by
    cases marker with
    | bullet mark =>
      cases label with
      | nil => cases labelled
      | cons c spaces =>
        rw [Marker.width?, Option.ite_none_right_eq_some, Bool.and_eq_true, decide_eq_true_eq]
          at labelled
        obtain ⟨⟨rfl, bullet⟩, _⟩ := labelled
        exact ⟨[c], spaces, rfl, isFront_bullet bullet⟩
    | enumerator =>
      rw [width?_enumerator] at labelled
      obtain ⟨front, ordinal, close, spaces, same, framed, chars, whole, _⟩ :=
        exists_of_enumeratorWidth? labelled
      exact ⟨front ++ ordinal ++ [close], spaces, by simp [same], isFront_enumerator framed chars whole⟩
  refine ⟨front, spaces, same, isFront, ?_⟩
  rw [same, isFront.width, List.length_append] at labelled
  exact labelled

/-- With text behind it and a space in between, a label is a marker. -/
theorem width?_label_append {c : Char} (visible : c ≠ ' ') (after : List Char) :
    marker.width? (label ++ ' ' :: c :: after) = some (label.length + 1) := by
  obtain ⟨front, spaces, rfl, isFront, spaced⟩ := exists_of_label labelled
  rw [List.append_assoc, isFront.width, spacedWidth?_append spaced visible, List.length_append]

theorem notMem_label {c : Char} (blank : isBlank c) (other : c ≠ ' ') : c ∉ label := by
  obtain ⟨front, spaces, rfl, isFront, spaced⟩ := exists_of_label labelled
  intro member
  rcases List.mem_append.mp member with inside | space
  · exact ne_of_isBlank (isFront.visible c inside) blank rfl
  · exact other (of_decide_eq_true (spaces_of_spacedWidth? spaced c space))

theorem head?_label : label.head?.any fun c => c ≠ ' ' := by
  obtain ⟨front, spaces, rfl, isFront, _⟩ := exists_of_label labelled
  obtain ⟨c, others, rfl⟩ := List.exists_cons_of_ne_nil isFront.filled
  have other : c ≠ ' ' := ne_of_isBlank (isFront.visible c List.mem_cons_self) (by decide)
  simp [other]

end label

/-- The labels are the bullets and the enumerators, with any number of spaces behind. -/
theorem isLabel_iff {marker : Marker} {label : List Char} :
    marker.width? label = some label.length ↔ IsLabel marker label := by
  constructor
  · intro labelled
    cases marker with
    | bullet mark =>
      cases label with
      | nil => cases labelled
      | cons c spaces =>
        rw [Marker.width?, Option.ite_none_right_eq_some, Bool.and_eq_true, decide_eq_true_eq,
          List.length_cons, Nat.add_comm] at labelled
        obtain ⟨⟨rfl, bullet⟩, spaced⟩ := labelled
        rw [eq_replicate_of_spacedWidth? spaced]
        exact .bullet (by simpa [isBullet, or_assoc] using bullet) spaces.length
    | enumerator =>
      rw [width?_enumerator] at labelled
      obtain ⟨front, ordinal, close, spaces, rfl, framed, _, whole, spaced⟩ :=
        exists_of_enumeratorWidth? labelled
      have length : (front ++ ordinal ++ close :: spaces).length =
          front.length + ordinal.length + 1 + spaces.length := by
        simp only [List.length_append, List.length_cons]
        omega
      rw [length] at spaced
      rw [eq_replicate_of_spacedWidth? spaced]
      exact .enumerator framed (isOrdinal_iff.mp whole) spaces.length
  · intro sound
    cases sound with
    | bullet one spaces =>
      have front := isFront_bullet (show isBullet _ by simpa [isBullet, or_assoc] using one)
      exact (front.width _).trans (by simp [spacedWidth?_replicate, Nat.add_comm])
    | @enumerator front ordinal close framed sound spaces =>
      rw [width?_enumerator, enumeratorWidth?_of_framed framed sound.isEnumeratorChar
        (isOrdinal_iff.mpr sound), spacedWidth?_replicate]
      simp only [List.length_append, List.length_cons, List.length_replicate, Option.some.injEq]
      omega

end RstPress.Layout
