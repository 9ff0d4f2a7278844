import RstPress.Proofs.Grammar.Inline

/-!
Inline markup is found at the borders of words. Its start string stands behind a blank or an opening
mark, its content is not empty and neither begins nor ends with a blank, and what follows it is a blank
or a closing mark. One case falls out of the last rule: the search for the end of interpreted text passes
over underscores, which make a reference of it, but a text with its role in front is no reference and
leaves them behind.
-/

namespace RstPress.Inline
open Text RstPress.Tree

/-- What is tried at a place of a text. -/
def trialAt (text : List Char) (place : Nat) : Trial :=
  trySpan (text.take place).getLast? (text.drop place)

/-- How a construct is written: its start string, with a role in front of it if there is one, its
content, and its end string with what belongs to the construct behind that. -/
inductive IsWritten : Node → (opening content closing : List Char) → Prop where
  | literal (content : List Char) :
    IsWritten (.composite .literal [textNode content]) ['\x60', '\x60'] content ['\x60', '\x60']
  | strong (content : List Char) :
    IsWritten (.composite .strong [textNode (unescape content)]) ['*', '*'] content ['*', '*']
  | emphasis (content : List Char) :
    IsWritten (.composite .emphasis [textNode (unescape content)]) ['*'] content ['*']
  | interpreted (content : List Char) :
    IsWritten (interpretedNode none content) ['\x60'] content ['\x60']
  | reference (content : List Char) :
    IsWritten (.unknown referenceKind [textNode (unescape content)]) ['\x60'] content ['\x60', '_']
  | anonymous (content : List Char) :
    IsWritten (.unknown referenceKind [textNode (unescape content)]) ['\x60'] content ['\x60', '_', '_']
  | roleBehind (name content : List Char) :
    IsWritten (interpretedNode (some name) content) ['\x60'] content ('\x60' :: ':' :: (name ++ [':']))
  | roleInFront (name content : List Char) :
    IsWritten (interpretedNode (some name) content) (':' :: (name ++ [':', '\x60'])) content ['\x60']

/-- A construct may stand behind the text in front of it, and its content is visible at both ends. -/
structure IsBordered (front content : List Char) : Prop where
  before : ∀ c ∈ front.getLast?, isBlank c ∨ c ∈ openers
  filled : content ≠ []
  first : ∀ c ∈ content.head?, isBlank c = false
  last : ∀ c ∈ content.getLast?, isBlank c = false

theorem mayBegin_iff {before : Option Char} : mayBegin before ↔ ∀ c ∈ before, isBlank c ∨ c ∈ openers := by
  cases before <;> simp [mayBegin]

theorem mayEnd_iff {rest : List Char} : mayEnd rest ↔ ∀ c ∈ rest.head?, isBlank c ∨ c ∈ closers := by
  cases rest <;> simp [mayEnd]

/-- The markup is closed where it may end. -/
theorem mayEndBefore_of_close? {markup : Markup} {last : Option Char} {text content rest : List Char}
    (found : markup.close? last text = some (content, rest)) : markup.mayEndBefore rest := by
  replace found := finds_of_close? found
  induction found with
  | ends visible border => exact border
  | pair escapes later ih => exact ih
  | plain ordinary later ih => exact ih

/-- The content of markup that is closed is visible at both ends. -/
theorem isBordered_of_close? {markup : Markup} {before : Option Char} {front text content rest : List Char}
    (begins : mayBegin front.getLast?) (visible : contentMayBegin before text)
    (closed : markup.close? none text = some (content, rest)) : IsBordered front content := by
  obtain ⟨filled, ends⟩ := mayClose_none_iff.mp (mayClose_of_close? closed).1
  refine ⟨mayBegin_iff.mp begins, filled, fun c head => ?_, ends⟩
  obtain ⟨first, others, rfl⟩ := List.exists_cons_of_ne_nil filled
  cases head
  have shown : contentMayBegin before (c :: (others ++ markup.delimiter ++ rest)) := by
    rw [eq_of_close? closed] at visible
    simpa using visible
  rw [contentMayBegin, Bool.and_eq_true, Bool.not_eq_true'] at shown
  exact shown.1

/-- Behind markup without a role in front of it there is a border. -/
theorem isWritten_of_span {markup : Markup} {content text rest : List Char} {node : Node} {last : Char}
    (ends : markup.mayEndBefore text) (found : markup.span content text = .span node last rest) :
    mayEnd rest ∧ ∃ closing, IsWritten node markup.delimiter content closing ∧
      markup.delimiter ++ text = closing ++ rest := by
  cases markup with
  | literal =>
    cases found
    exact ⟨ends, _, .literal content, rfl⟩
  | strong =>
    cases found
    exact ⟨ends, _, .strong content, rfl⟩
  | emphasis =>
    cases found
    exact ⟨ends, _, .emphasis content, rfl⟩
  | interpreted =>
    have border : mayEnd (suffix text).2 := ends
    rcases suffix_cases text with same | ⟨more, same, rfl | rfl⟩ | ⟨name, more, same, role⟩
    all_goals
      rw [Markup.span, same] at found
      rw [same] at border
      cases found
    · exact ⟨border, _, .interpreted content, rfl⟩
    · exact ⟨border, _, .reference content, rfl⟩
    · exact ⟨border, _, .anonymous content, rfl⟩
    · refine ⟨border, _, .roleBehind name content, ?_⟩
      rw [eq_of_role? role]
      simp [Markup.delimiter]

theorem not_mayEnd_underscore (rest : List Char) : ¬ mayEnd ('_' :: rest) := by
  have mark : ¬ (isBlank '_' ∨ '_' ∈ closers) := by decide
  exact fun ends => mark (mayEnd_iff.mp ends _ rfl)

/-- Interpreted text may end where there is no border only in front of an underscore. -/
theorem mayEnd_iff_of_mayEndBefore {rest : List Char} (ends : Markup.interpreted.mayEndBefore rest) :
    mayEnd rest ↔ rest.head? ≠ some '_' := by
  have border : mayEnd (suffix rest).2 := ends
  rcases suffix_cases rest with same | ⟨more, same, rfl | rfl⟩ | ⟨name, more, same, role⟩
  · rw [same] at border
    refine iff_of_true border fun mark => ?_
    obtain ⟨more, rfl⟩ := List.head?_eq_some_iff.mp mark
    exact not_mayEnd_underscore more border
  · exact iff_of_false (not_mayEnd_underscore more) (by simp)
  · exact iff_of_false (not_mayEnd_underscore ('_' :: more)) (by simp)
  · rw [eq_of_role? role]
    exact iff_of_true rfl (by simp)

/-- The parts of a span: it begins and ends at a border, unless its role stands in front of it and an
underscore behind it. -/
theorem exists_isWritten_of_trySpan {front text rest : List Char} {node : Node} {last : Char}
    (found : trySpan front.getLast? text = .span node last rest) :
    ∃ opening content closing, IsWritten node opening content closing ∧
      text = opening ++ content ++ closing ++ rest ∧ IsBordered front content ∧
      (mayEnd rest ↔ ¬ (opening.head? = some ':' ∧ rest.head? = some '_')) := by
  obtain ⟨begins, ⟨name, more, content, role, visible, closed, rfl, rfl⟩ |
    ⟨markup, more, content, after, same, visible, closed, made⟩⟩ := trySpan_parts found
  · refine ⟨_, content, _, .roleInFront name content, ?_, isBordered_of_close? begins visible closed, ?_⟩
    · rw [eq_of_role? role, eq_of_close? closed]
      simp [Markup.delimiter]
    · rw [mayEnd_iff_of_mayEndBefore (mayEndBefore_of_close? closed)]
      simp
  · obtain ⟨border, closing, written, ends⟩ := isWritten_of_span (mayEndBefore_of_close? closed) made
    refine ⟨_, content, closing, written, ?_, isBordered_of_close? begins visible closed, ?_⟩
    · rw [same, eq_of_close? closed, List.append_assoc content, ends]
      simp only [List.append_assoc]
    · refine iff_of_true border fun both => ?_
      have colon := both.1
      cases markup <;> cases colon

/-- The nodes of a text are found at its places: when the reading comes to a character, the one in front
of it is the last one of all that was read. -/
theorem exists_trialAt_of_mem_tokens {node : Node} {front text : List Char}
    (member : .node node ∈ tokens front.getLast? text) :
    ∃ place last rest, trialAt (front ++ text) place = .span node last rest := by
  generalize same : front.getLast? = before at member
  fun_induction tokens before text generalizing front with
  | case1 | case2 => simp at member
  | case3 before text ih =>
    simpa using @ih (front ++ ['\\', ' ']) (by simp) member
  | case4 before d text other ends => simp at member
  | case5 before d text other goes ih =>
    have later : .node node ∈ tokens (some d) text := by simpa using member
    simpa using @ih (front ++ ['\\', d]) (by simp) later
  | case6 before c text plain found ih | case7 before c text plain markup found ih =>
    have later : .node node ∈ tokens (some c) text := by simpa using member
    simpa using @ih (front ++ [c]) (by simp) later
  | case8 before c text plain tree last rest found ih =>
    rcases List.mem_cons.mp member with here | later
    · cases here
      refine ⟨front.length, last, rest, ?_⟩
      rw [trialAt, List.take_left, List.drop_left, same, found]
    · obtain ⟨_, _, taken, whole⟩ := exists_of_trySpan found
      rw [whole]
      simpa using @ih (front ++ (taken ++ [last])) (by simp) later

/-- Wherever a construct is found in a text, its parts are these: a start string at a border, a content that
is visible at both ends, an end string and the rest of the text, which begins at a border too. The only
exception is an underscore behind a text that has its role in front. All inline nodes of the text are
found like this. -/
theorem constructs_keep_to_borders (text : List Char) :
    (∀ node, .node node ∈ tokens none text →
      ∃ place last rest, trialAt text place = .span node last rest) ∧
    ∀ place node last rest, trialAt text place = .span node last rest →
      ∃ opening content closing, IsWritten node opening content closing ∧
        text = text.take place ++ (opening ++ content ++ closing ++ rest) ∧
        IsBordered (text.take place) content ∧
        ((∀ c ∈ rest.head?, isBlank c ∨ c ∈ closers) ↔
          ¬ (opening.head? = some ':' ∧ rest.head? = some '_')) := by
  refine ⟨fun node member => @exists_trialAt_of_mem_tokens node [] text member,
    fun place node last rest found => ?_⟩
  obtain ⟨opening, content, closing, written, same, bordered, ends⟩ := exists_isWritten_of_trySpan found
  refine ⟨opening, content, closing, written, ?_, bordered, mayEnd_iff.symm.trans ends⟩
  rw [← same, List.take_append_drop]

theorem constructs_keep_to_borders_reference :
    trialAt ['(', '\x60', 'a', ' ', 'b', '\x60', '_', '_', ')'] 1 =
      .span (.unknown referenceKind [textNode ['a', ' ', 'b']]) '_' [')'] ∧
    ∃ opening content closing,
      IsWritten (.unknown referenceKind [textNode ['a', ' ', 'b']]) opening content closing ∧
      ['(', '\x60', 'a', ' ', 'b', '\x60', '_', '_', ')'] = ['('] ++ (opening ++ content ++ closing ++ [')']) ∧
      IsBordered ['('] content ∧
      ((∀ c ∈ [')'].head?, isBlank c ∨ c ∈ closers) ↔
        ¬ (opening.head? = some ':' ∧ [')'].head? = some '_')) :=
  ⟨rfl, (constructs_keep_to_borders _).2 1 _ _ _ rfl⟩

def roledReference : List Char := [':', 'r', ':', '\x60', 'x', '\x60', '_']

/-- A role in front of a reference takes its text away, and the underscore is left over. -/
theorem role_leaves_underscore :
    trialAt roledReference 0 = .span (interpretedNode (some ['r']) ['x']) '\x60' ['_'] ∧
      ¬ (isBlank '_' ∨ '_' ∈ closers) ∧
      nodes roledReference = [interpretedNode (some ['r']) ['x'], textNode ['_']] := by
  exact ⟨rfl, by decide, by decide +kernel⟩

end RstPress.Inline
