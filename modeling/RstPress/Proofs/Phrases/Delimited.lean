import Mathlib.Data.List.Chain
import RstPress.Proofs.Phrases.Escaped

/-!
Content between delimiters. The markup around an escaped content ends where it was meant to end,
whatever the content is made of. A literal is not escaped: there it is enough that no two backquotes
stand side by side.
-/

namespace RstPress.Inline
open Text RstPress.Tree

theorem mayEnd_of_setApart {rest : List Char} (apart : SetApart rest) : mayEnd rest := by
  rcases apart with rfl | ⟨more, rfl⟩ <;> rfl

theorem suffix_of_setApart {rest : List Char} (apart : SetApart rest) :
    suffix rest = (.nothing, rest) := by
  rcases apart with rfl | ⟨more, rfl⟩
  · rfl
  · simp [suffix, role?_of_ne_colon]

theorem suffix_reference {rest : List Char} (apart : SetApart rest) :
    suffix ('_' :: rest) = (.reference, rest) := by
  rcases apart with rfl | ⟨more, rfl⟩
  · rfl
  · simp [suffix, role?_of_ne_colon]

theorem mayEndBefore_of_setApart {markup : Markup} {rest : List Char} (apart : SetApart rest) :
    markup.mayEndBefore rest := by
  rw [Markup.mayEndBefore, suffix_of_setApart apart, ite_self]
  exact mayEnd_of_setApart apart

/-- The last character of a text that follows `last` is there and no blank. -/
def MayClose (last : Option Char) (text : List Char) : Prop :=
  ∃ c, text.getLast?.or last = some c ∧ isBlank c = false

theorem MayClose.tail {last : Option Char} {c : Char} {text : List Char}
    (visible : MayClose last (c :: text)) : MayClose (some c) text := by
  rw [MayClose, List.getLast?_cons, Option.some_or] at visible
  rwa [MayClose, Option.or_some]

/-- A delimiter does not begin with a backslash. -/
theorem exists_of_delimiter (markup : Markup) (rest : List Char) :
    ∃ c others, markup.delimiter ++ rest = c :: others ∧ c ≠ '\\' := by
  cases markup <;> exact ⟨_, _, rfl, by decide⟩

/-- A delimiter closes the markup if it does not stand behind a blank. -/
theorem close?_delimiter {markup : Markup} {last : Option Char} {rest : List Char}
    (visible : MayClose last []) (ends : markup.mayEndBefore rest) :
    markup.close? last (markup.delimiter ++ rest) = some ([], rest) := by
  obtain ⟨before, rfl, shown⟩ := visible
  obtain ⟨c, others, same, plain⟩ := exists_of_delimiter markup rest
  have matched : markup.delimiter.isPrefixOf? (c :: others) = some rest :=
    isPrefixOf?_eq_some_iff.mpr same.symm
  rw [same, Markup.close?.eq_def]
  simp [plain, matched, shown, ends]

/-- The markup goes on over a character at which its delimiter does not stand, or may not end it. -/
theorem close?_cons {markup : Markup} {c : Char} {text : List Char}
    (plain : (markup.escapes && c = '\\') = false) (last : Option Char)
    (goes : ∀ after, markup.delimiter ++ after = c :: text → markup.mayEndBefore after = false) :
    markup.close? last (c :: text) =
      (markup.close? (some c) text).map fun found => (c :: found.1, found.2) := by
  rw [Markup.close?.eq_def]
  simp only [plain, Bool.false_eq_true, if_false]
  split
  · rename_i after matched
    rw [goes after (isPrefixOf?_eq_some_iff.mp matched).symm, Bool.and_false]
    rfl
  · rfl

theorem delimiter_append_ne {c : Char} (ordinary : isMark c = false) (markup : Markup)
    (after text : List Char) : markup.delimiter ++ after ≠ c :: text := by
  intro same
  have begins : isMark c := by
    cases markup <;> exact (List.cons.inj same).1 ▸ rfl
  rw [ordinary] at begins
  cases begins

/-- Escaped content ends at the delimiter behind it. -/
theorem close?_of_escapes {markup : Markup} (escaped : markup.escapes) {value written : List Char}
    (escapes : Escapes value written) {last : Option Char} (visible : MayClose last value)
    {rest : List Char} (ends : markup.mayEndBefore rest) :
    markup.close? last (written ++ (markup.delimiter ++ rest)) = some (written, rest) := by
  induction escapes generalizing last with
  | nil => exact close?_delimiter visible ends
  | @plain c value written ordinary later ih =>
    have noBackslash : c ≠ '\\' := ne_of_isMark ordinary (by decide)
    rw [List.cons_append, close?_cons (by simp [noBackslash]) last, ih visible.tail]
    · rfl
    · exact fun after matched => absurd matched (delimiter_append_ne ordinary markup after _)
  | marked noSpace noFeed later ih =>
    rw [List.cons_append, List.cons_append, Markup.close?.eq_def]
    simp [escaped, ih visible.tail]

/-- No two backquotes stand side by side. -/
def SingleQuotes (text : List Char) : Prop := text.IsChain fun c d => ¬(c = '\x60' ∧ d = '\x60')

/-- A literal ends at the last two backquotes, also where one more stands in front of them. -/
theorem close?_literal {value : List Char} (single : SingleQuotes value) {last : Option Char}
    (visible : MayClose last value) {rest : List Char} (ends : mayEnd rest) :
    Markup.literal.close? last (value ++ (Markup.literal.delimiter ++ rest)) =
      some (value, rest) := by
  induction value generalizing last with
  | nil => exact close?_delimiter visible ends
  | cons c value ih =>
    have later : Markup.literal.close? (some c) (value ++ (Markup.literal.delimiter ++ rest)) =
        some (value, rest) := ih (List.isChain_of_isChain_cons single) visible.tail
    rw [List.cons_append, close?_cons rfl last, later]
    · rfl
    · intro after matched
      change '\x60' :: '\x60' :: after = _ at matched
      obtain ⟨first, matched⟩ := List.cons.inj matched
      cases value with
      | nil =>
        -- The first backquote belongs to the content, so another one stands behind the two.
        obtain ⟨_, rfl⟩ := List.cons.inj matched
        rfl
      | cons d value =>
        have both : c = '\x60' ∧ d = '\x60' := ⟨first.symm, (List.cons.inj matched).1.symm⟩
        exact absurd both (List.isChain_cons_cons.mp single).1

/-- A phrase begins a text, or stands behind a space. -/
def Begins (before : Option Char) : Prop := before = none ∨ before = some ' '

theorem mayBegin_of_begins {before : Option Char} (begins : Begins before) : mayBegin before := by
  rcases begins with rfl | rfl <;> rfl

def MayOpen (text : List Char) : Prop :=
  ∃ first others, text = first :: others ∧ isBlank first = false

theorem MayOpen.append {text : List Char} (visible : MayOpen text) (more : List Char) :
    MayOpen (text ++ more) := by
  obtain ⟨first, others, rfl, shown⟩ := visible
  exact ⟨first, others ++ more, rfl, shown⟩

theorem contentMayBegin_of_mayOpen {before : Option Char} {text : List Char}
    (alone : before.bind partner? = none) (visible : MayOpen text) :
    contentMayBegin before text := by
  obtain ⟨first, others, rfl, shown⟩ := visible
  simp [contentMayBegin, shown, alone]

theorem mayOpen_of_escapes {value written : List Char} (escapes : Escapes value written)
    (visible : MayOpen value) : MayOpen written := by
  obtain ⟨first, others, rfl, shown⟩ := visible
  cases escapes with
  | plain ordinary later => exact ⟨first, _, rfl, shown⟩
  | marked noSpace noFeed later => exact ⟨'\\', _, rfl, by decide⟩

/-- No mark but the backslash begins an escaped text. -/
theorem head?_ne_of_escapes {value written : List Char} (escapes : Escapes value written)
    {mark : Char} (shown : isMark mark) (other : mark ≠ '\\') : written.head? ≠ some mark := by
  cases escapes with
  | nil => nofun
  | plain ordinary later => exact fun equal => ne_of_isMark ordinary shown (Option.some.inj equal)
  | marked noSpace noFeed later => exact fun equal => other (Option.some.inj equal).symm

/-- Markup is told by its delimiter; a single mark must not stand in front of another one. -/
theorem first?_delimiter {markup : Markup} {text : List Char}
    (single : ∀ mark, markup.delimiter = [mark] → text.head? ≠ some mark) :
    Markup.first? (markup.delimiter ++ text) = some markup := by
  cases markup with
  | literal | strong => simp [Markup.first?, Markup.delimiter]
  | emphasis | interpreted =>
    cases text with
    | nil => rfl
    | cons c text =>
      have other (mark : Char) (same : _ = [mark]) : mark ≠ c := fun equal =>
        single mark same (congrArg some equal.symm)
      simp [Markup.first?, Markup.delimiter, List.isPrefixOf, other _ rfl]

/-- Delimiters with a content that may begin behind the first and end in front of the second. -/
theorem trySpan_delimiter {markup : Markup} {before : Option Char} (begins : Begins before)
    {content rest : List Char} (visible : MayOpen content)
    (single : ∀ mark, markup.delimiter = [mark] → content.head? ≠ some mark)
    (closed : markup.close? none (content ++ (markup.delimiter ++ rest)) = some (content, rest)) :
    trySpan before (markup.delimiter ++ (content ++ (markup.delimiter ++ rest))) =
      markup.span content rest := by
  have alone : before.bind partner? = none := by
    rcases begins with rfl | rfl <;> rfl
  have noRole (text : List Char) : role? (markup.delimiter ++ text) = none := by
    cases markup <;> exact role?_of_ne_colon (by decide) _
  have told : Markup.first? (markup.delimiter ++ (content ++ (markup.delimiter ++ rest))) =
      some markup := by
    apply first?_delimiter
    obtain ⟨first, others, rfl, _⟩ := visible
    exact single
  simp only [trySpan, mayBegin_of_begins begins, if_true, noRole, told, List.drop_left, tryMarkup,
    contentMayBegin_of_mayOpen alone (visible.append _), closed]

/-- An escaped content between the delimiters of its markup. -/
theorem trySpan_of_escapes {markup : Markup} (escaped : markup.escapes) {before : Option Char}
    (begins : Begins before) {value written : List Char} (escapes : Escapes value written)
    (opens : MayOpen value) (closes : MayClose none value) {rest : List Char}
    (ends : markup.mayEndBefore rest) :
    trySpan before (markup.delimiter ++ (written ++ (markup.delimiter ++ rest))) =
      markup.span written rest := by
  apply trySpan_delimiter begins (mayOpen_of_escapes escapes opens)
  · intro mark same
    cases markup with
    | literal | strong => cases same
    | emphasis | interpreted =>
      obtain rfl := (List.cons.inj same).1
      exact head?_ne_of_escapes escapes (by decide) (by decide)
  · exact close?_of_escapes escaped escapes closes ends

theorem role?_name {name : List Char} (filled : name ≠ []) (plain : ∀ c ∈ name, isRoleChar c)
    (rest : List Char) : role? (':' :: (name ++ ':' :: rest)) = some (name, rest) := by
  have colon : isRoleChar ':' = false := by decide
  have taken : (name ++ ':' :: rest).takeWhile isRoleChar = name := by
    rw [List.takeWhile_append_of_pos plain, List.takeWhile_cons_of_neg (by simp [colon]),
      List.append_nil]
  have left : (name ++ ':' :: rest).dropWhile isRoleChar = ':' :: rest := by
    rw [List.dropWhile_append_of_pos plain, List.dropWhile_cons_of_neg (by simp [colon])]
  simp [role?, taken, left, filled]

/-- Interpreted text with its role in front. -/
theorem trySpan_role {name : List Char} (filled : name ≠ []) (plain : ∀ c ∈ name, isRoleChar c)
    {before : Option Char} (begins : Begins before) {value written : List Char}
    (escapes : Escapes value written) (opens : MayOpen value) (closes : MayClose none value)
    {rest : List Char} (apart : SetApart rest) :
    trySpan before (':' :: (name ++ ':' :: '\x60' :: (written ++ '\x60' :: rest))) =
      .span (interpretedNode (some name) written) '\x60' rest := by
  have closed : Markup.interpreted.close? none (written ++ '\x60' :: rest) = some (written, rest) :=
    close?_of_escapes rfl escapes closes (mayEndBefore_of_setApart apart)
  have opened : Markup.interpreted.delimiter.isPrefixOf? ('\x60' :: (written ++ '\x60' :: rest)) =
      some (written ++ '\x60' :: rest) := isPrefixOf?_eq_some_iff.mpr rfl
  have content : contentMayBegin (some ':') (written ++ '\x60' :: rest) :=
    contentMayBegin_of_mayOpen rfl ((mayOpen_of_escapes escapes opens).append _)
  simp only [trySpan, mayBegin_of_begins begins, if_true, role?_name filled plain, tryRole, opened,
    content, closed]

end RstPress.Inline
