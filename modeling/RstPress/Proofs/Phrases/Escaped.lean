import RstPress.Inline.Token
import RstPress.Proofs.Accounts.Inline

/-!
Escaped text. A backslash makes the character behind it an ordinary one, so a text in which each mark
has one in front shows no delimiter. It is read as the characters that are meant, whatever they are
and whichever others are escaped besides the marks.
-/

namespace RstPress.Inline
open Text RstPress.Tree

/-- The characters of which delimiters are made, and the backslash. -/
def isMark (c : Char) : Bool := c = '\\' || c = '*' || c = '\x60'

theorem ne_of_isMark {c mark : Char} (plain : isMark c = false) (shown : isMark mark) : c ≠ mark := by
  rintro rfl
  rw [plain] at shown
  cases shown

/-- The written text is the value with a backslash in front of each mark, and perhaps of others. A
space or a line feed behind a backslash would not stand for itself. -/
inductive Escapes : List Char → List Char → Prop where
  | nil : Escapes [] []
  | plain {c : Char} {value written : List Char} (ordinary : isMark c = false)
      (later : Escapes value written) : Escapes (c :: value) (c :: written)
  | marked {c : Char} {value written : List Char} (noSpace : c ≠ ' ') (noFeed : c ≠ '\n')
      (later : Escapes value written) : Escapes (c :: value) ('\\' :: c :: written)

theorem unescape_of_escapes {value written : List Char} (escapes : Escapes value written) :
    unescape written = value := by
  induction escapes with
  | nil => rfl
  | plain ordinary later ih =>
    rw [unescape.eq_def]
    simp only [ne_of_isMark ordinary (show isMark '\\' by decide), if_false, ih]
  | marked noSpace noFeed later ih =>
    rw [unescape, if_pos rfl]
    simp only [noSpace, if_false, ih]

/-- Behind escaped text or markup there is nothing, or an escaped space. -/
def SetApart (rest : List Char) : Prop := rest = [] ∨ ∃ more, rest = '\\' :: ' ' :: more

/-- What is set apart is read without regard to what stands in front of it. -/
theorem tokens_of_setApart {rest : List Char} (apart : SetApart rest) (before : Option Char) :
    tokens before rest = tokens none rest := by
  rcases apart with rfl | ⟨more, rfl⟩
  · rw [tokens, tokens]
  · rw [tokens, tokens]
    simp

theorem role?_of_ne_colon {c : Char} (other : c ≠ ':') (text : List Char) :
    role? (c :: text) = none := by
  unfold role?
  split
  · rfl
  · rename_i d more same
    rw [← (List.cons.inj same).1]
    split <;> simp [other]

theorem first?_eq_none {c : Char} (ordinary : isMark c = false) (text : List Char) :
    Markup.first? (c :: text) = none := by
  have noStar : '*' ≠ c := (ne_of_isMark ordinary (by decide)).symm
  have noQuote : '\x60' ≠ c := (ne_of_isMark ordinary (by decide)).symm
  simp [Markup.first?, Markup.delimiter, noStar, noQuote]

theorem exists_of_cons_eq_append {c quote : Char} {more front others : List Char} (other : c ≠ quote)
    (same : c :: more = front ++ quote :: others) :
    ∃ inner, front = c :: inner ∧ more = inner ++ quote :: others := by
  cases front with
  | nil => exact absurd (List.cons.inj same).1 other
  | cons d inner => exact ⟨inner, by rw [(List.cons.inj same).1], (List.cons.inj same).2⟩

/-- In front of a backquote of escaped text there is a backslash. -/
theorem backslash_mem_of_quote {value written rest front others : List Char}
    (escapes : Escapes value written) (apart : SetApart rest)
    (same : written ++ rest = front ++ '\x60' :: others) : '\\' ∈ front := by
  induction escapes generalizing front with
  | nil =>
    rcases apart with rfl | ⟨more, rfl⟩
    · simp at same
    · obtain ⟨inner, rfl, _⟩ := exists_of_cons_eq_append (by decide) same
      exact List.mem_cons_self
  | plain ordinary later ih =>
    obtain ⟨inner, rfl, rest⟩ := exists_of_cons_eq_append (ne_of_isMark ordinary (by decide)) same
    exact List.mem_cons_of_mem _ (ih rest)
  | marked =>
    obtain ⟨inner, rfl, _⟩ := exists_of_cons_eq_append (by decide) same
    exact List.mem_cons_self

/-- At an ordinary character of escaped text no markup begins. It may be the colon of a role, but no
content stands behind the role. -/
theorem trySpan_ordinary {c : Char} (ordinary : isMark c = false) (before : Option Char)
    {value written rest : List Char} (escapes : Escapes value written) (apart : SetApart rest) :
    trySpan before (c :: (written ++ rest)) = .nothing := by
  unfold trySpan
  split
  · split
    · rename_i name after found
      unfold tryRole
      split
      · rfl
      · rename_i content opened
        have whole : written ++ rest = (name ++ [':']) ++ '\x60' :: content := by
          have same := (List.cons.inj (eq_of_role? found)).2
          rw [isPrefixOf?_eq_some_iff.mp opened] at same
          simpa [Markup.delimiter] using same
        rcases List.mem_append.mp (backslash_mem_of_quote escapes apart whole) with inside | colon
        · exact absurd (isRoleChar_of_mem_role found _ inside) (by decide)
        · exact absurd (List.mem_singleton.mp colon) (by decide)
    · rw [first?_eq_none ordinary]
  · rfl

/-- Escaped text is read as the characters that are meant. -/
theorem tokens_of_escapes {value written rest : List Char} (escapes : Escapes value written)
    (apart : SetApart rest) (before : Option Char) :
    tokens before (written ++ rest) = value.map .char ++ tokens none rest := by
  induction escapes generalizing before with
  | nil => exact tokens_of_setApart apart before
  | @plain c value written ordinary later ih =>
    have noBackslash : c ≠ '\\' := ne_of_isMark ordinary (by decide)
    rw [List.cons_append, tokens.eq_def, List.map_cons, List.cons_append, ← ih (some c)]
    simp only [noBackslash, if_false]
    split
    · rfl
    · rename_i markup found
      rw [trySpan_ordinary ordinary before later apart] at found
      cases found
    · rename_i node last after found
      rw [trySpan_ordinary ordinary before later apart] at found
      cases found
  | @marked c value written noSpace noFeed later ih =>
    rw [List.cons_append, List.cons_append, tokens, List.map_cons, List.cons_append, ← ih (some c)]
    simp [noSpace, noFeed]

theorem gather_chars_append (run text : List Char) (others : List Token) :
    gather run (text.map .char ++ others) = gather (text.reverse ++ run) others := by
  induction text generalizing run with
  | nil => rfl
  | cons c text ih =>
    rw [List.map_cons, List.cons_append, gather, ih, List.reverse_cons, List.append_assoc,
      List.singleton_append]

theorem runNode_reverse {text : List Char} (filled : text ≠ []) :
    runNode (text.reverse ++ []) = [textNode text] := by
  rw [List.append_nil, runNode, if_neg (by simp [filled]), List.reverse_reverse]

theorem gather_chars {text : List Char} (filled : text ≠ []) :
    gather [] (text.map .char) = [textNode text] := by
  have whole := gather_chars_append [] text []
  rw [List.append_nil] at whole
  exact whole.trans (runNode_reverse filled)

theorem unclosed_chars (text : List Char) : unclosed (text.map .char) = [] := by
  induction text with
  | nil => rfl
  | cons c text ih => exact ih

end RstPress.Inline
