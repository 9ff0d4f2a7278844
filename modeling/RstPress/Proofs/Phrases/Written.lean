import RstPress.Document.Body
import RstPress.Proofs.Phrases.Delimited

/-!
Phrases are texts and the markup around texts. Each is written with its content escaped, and an
escaped space between two phrases sets them apart. Reading what was written gives their nodes, without
a problem.
-/

namespace RstPress.Inline
open Text Document RstPress.Tree

/-- What markup can hold: a text that neither begins nor ends with a blank. -/
structure Content where
  text : List Char
  begins : MayOpen text
  ends : ∃ front last, text = front ++ [last] ∧ isBlank last = false

/-- The text with a backslash in front of each mark. -/
def escapeMarks : List Char → List Char
  | [] => []
  | c :: text => if isMark c then '\\' :: c :: escapeMarks text else c :: escapeMarks text

structure Role where
  name : List Char
  filled : name ≠ []
  plain : ∀ c ∈ name, isRoleChar c

inductive Phrase where
  | text (value : List Char) (filled : value ≠ [])
  | emphasis (content : Content)
  | strong (content : Content)
  | interpreted (role : Option Role) (content : Content)
  | reference (content : Content)
  | literal (content : Content) (single : SingleQuotes content.text)

namespace Phrase

def node : Phrase → Node
  | text value _ => textNode value
  | emphasis content => .composite .emphasis [textNode content.text]
  | strong content => .composite .strong [textNode content.text]
  | interpreted role content =>
    .interpreted (role.map fun role => String.ofList role.name) [textNode content.text]
  | reference content => .unknown referenceKind [textNode content.text]
  | literal content _ => .composite .literal [textNode content.text]

def written : Phrase → List Char
  | text value _ => escapeMarks value
  | emphasis content => '*' :: (escapeMarks content.text ++ ['*'])
  | strong content => '*' :: '*' :: (escapeMarks content.text ++ ['*', '*'])
  | interpreted none content => '\x60' :: (escapeMarks content.text ++ ['\x60'])
  | interpreted (some role) content =>
    ':' :: (role.name ++ ':' :: '\x60' :: (escapeMarks content.text ++ ['\x60']))
  | reference content => '\x60' :: (escapeMarks content.text ++ ['\x60', '_'])
  | literal content _ => '\x60' :: '\x60' :: (content.text ++ ['\x60', '\x60'])

def IsText : Phrase → Prop
  | text _ _ => True
  | _ => False

/-- Two texts side by side would be read as one. -/
def MayPrecede (phrase next : Phrase) : Prop := ¬(phrase.IsText ∧ next.IsText)

/-- The tokens as which a phrase is read. -/
def tokens (phrase : Phrase) : List Token :=
  match phrase with
  | text value _ => value.map .char
  | _ => [.node phrase.node]

end Phrase

/-- Phrases one after the other, with an escaped space between them. -/
def written (phrases : List Phrase) : List Char :=
  ['\\', ' '].intercalate (phrases.map Phrase.written)

theorem Content.mayClose (content : Content) : MayClose none content.text := by
  obtain ⟨front, last, same, shown⟩ := content.ends
  exact ⟨last, by rw [same]; simp, shown⟩

theorem escapes_escapeMarks (text : List Char) : Escapes text (escapeMarks text) := by
  induction text with
  | nil => exact .nil
  | cons c text ih =>
    rw [escapeMarks]
    split
    · rename_i mark
      refine .marked ?_ ?_ ih
      · rintro rfl
        exact absurd mark (by decide)
      · rintro rfl
        exact absurd mark (by decide)
    · rename_i ordinary
      exact .plain (Bool.eq_false_iff.mpr ordinary) ih

theorem unescape_escapeMarks (text : List Char) : unescape (escapeMarks text) = text :=
  unescape_of_escapes (escapes_escapeMarks text)

/-- Markup around an escaped content ends behind it. -/
theorem Content.trySpan_delimiter (content : Content) {markup : Markup} (escaped : markup.escapes)
    {before : Option Char} (begins : Begins before) {rest : List Char}
    (ends : markup.mayEndBefore rest) :
    trySpan before
        (markup.delimiter ++ (escapeMarks content.text ++ (markup.delimiter ++ rest))) =
      markup.span (escapeMarks content.text) rest :=
  trySpan_of_escapes escaped begins (escapes_escapeMarks content.text) content.begins
    content.mayClose ends

theorem tokens_of_trySpan {before : Option Char} {text rest : List Char} {node : Node} {last : Char}
    (plain : text.head? ≠ some '\\') (found : trySpan before text = .span node last rest) :
    tokens before text = .node node :: tokens (some last) rest := by
  cases text with
  | nil => exact absurd (length_trySpan_lt found) (Nat.not_lt_zero _)
  | cons c text =>
    have noBackslash : c ≠ '\\' := fun same => plain (congrArg some same)
    rw [tokens.eq_def]
    simp only [noBackslash, if_false]
    split
    · rename_i same
      rw [found] at same
      cases same
    · rename_i markup same
      rw [found] at same
      cases same
    · rename_i other final after same
      rw [found] at same
      cases same
      rfl

/-- A phrase that is no text is read as one span. -/
theorem trySpan_phrase {phrase : Phrase} (marked : ¬phrase.IsText) {before : Option Char}
    (begins : Begins before) {rest : List Char} (apart : SetApart rest) :
    ∃ last, trySpan before (phrase.written ++ rest) = .span phrase.node last rest := by
  have ends {markup : Markup} : markup.mayEndBefore rest := mayEndBefore_of_setApart apart
  cases phrase with
  | text value filled => exact absurd trivial marked
  | emphasis content =>
    refine ⟨'*', ?_⟩
    calc
      _ = trySpan before (Markup.emphasis.delimiter ++
          (escapeMarks content.text ++ (Markup.emphasis.delimiter ++ rest))) := by
        simp [Phrase.written, Markup.delimiter]
      _ = Markup.emphasis.span (escapeMarks content.text) rest :=
        content.trySpan_delimiter rfl begins ends
      _ = _ := by
        rw [Markup.span, unescape_escapeMarks]
        rfl
  | strong content =>
    refine ⟨'*', ?_⟩
    calc
      _ = trySpan before (Markup.strong.delimiter ++
          (escapeMarks content.text ++ (Markup.strong.delimiter ++ rest))) := by
        simp [Phrase.written, Markup.delimiter]
      _ = Markup.strong.span (escapeMarks content.text) rest :=
        content.trySpan_delimiter rfl begins ends
      _ = _ := by
        rw [Markup.span, unescape_escapeMarks]
        rfl
  | interpreted role content =>
    refine ⟨'\x60', ?_⟩
    cases role with
    | none =>
      calc
        _ = trySpan before (Markup.interpreted.delimiter ++
            (escapeMarks content.text ++ (Markup.interpreted.delimiter ++ rest))) := by
          simp [Phrase.written, Markup.delimiter]
        _ = Markup.interpreted.span (escapeMarks content.text) rest :=
          content.trySpan_delimiter rfl begins ends
        _ = .span (interpretedNode none (escapeMarks content.text)) '\x60' rest := by
          rw [Markup.span, suffix_of_setApart apart]
        _ = _ := by
          rw [interpretedNode, unescape_escapeMarks]
          rfl
    | some role =>
      calc
        _ = trySpan before (':' :: (role.name ++ ':' :: '\x60' ::
            (escapeMarks content.text ++ '\x60' :: rest))) := by
          simp [Phrase.written]
        _ = .span (interpretedNode (some role.name) (escapeMarks content.text)) '\x60' rest :=
          trySpan_role role.filled role.plain begins (escapes_escapeMarks content.text) content.begins
            content.mayClose apart
        _ = _ := by
          rw [interpretedNode, unescape_escapeMarks]
          rfl
  | reference content =>
    refine ⟨'_', ?_⟩
    have ends : Markup.interpreted.mayEndBefore ('_' :: rest) := by
      rw [Markup.mayEndBefore, if_pos rfl, suffix_reference apart]
      exact mayEnd_of_setApart apart
    calc
      _ = trySpan before (Markup.interpreted.delimiter ++
          (escapeMarks content.text ++ (Markup.interpreted.delimiter ++ '_' :: rest))) := by
        simp [Phrase.written, Markup.delimiter]
      _ = Markup.interpreted.span (escapeMarks content.text) ('_' :: rest) :=
        content.trySpan_delimiter rfl begins ends
      _ = .span (.unknown referenceKind [textNode (unescape (escapeMarks content.text))]) '_' rest := by
        rw [Markup.span, suffix_reference apart]
      _ = _ := by
        rw [unescape_escapeMarks]
        rfl
  | literal content single =>
    refine ⟨'\x60', ?_⟩
    have closed := close?_literal single content.mayClose (mayEnd_of_setApart apart)
    calc
      _ = trySpan before (Markup.literal.delimiter ++
          (content.text ++ (Markup.literal.delimiter ++ rest))) := by
        simp [Phrase.written, Markup.delimiter]
      _ = Markup.literal.span content.text rest := by
        apply trySpan_delimiter begins content.begins _ closed
        exact fun mark doubled => absurd (List.cons.inj doubled).2 (List.cons_ne_nil _ _)
      _ = _ := rfl

theorem head?_written_ne {phrase : Phrase} (marked : ¬phrase.IsText) (rest : List Char) :
    (phrase.written ++ rest).head? ≠ some '\\' := by
  cases phrase with
  | text value filled => exact absurd trivial marked
  | interpreted role content => cases role <;> simp [Phrase.written]
  | emphasis | strong | reference | literal => simp [Phrase.written]

theorem tokens_of_not_isText {phrase : Phrase} (marked : ¬phrase.IsText) :
    phrase.tokens = [.node phrase.node] := by
  cases phrase with
  | text value filled => exact absurd trivial marked
  | emphasis | strong | interpreted | reference | literal => rfl

/-- A phrase is read as its tokens, whatever phrases stand around it. -/
theorem tokens_phrase (phrase : Phrase) {before : Option Char} (begins : Begins before)
    {rest : List Char} (apart : SetApart rest) :
    tokens before (phrase.written ++ rest) = phrase.tokens ++ tokens none rest := by
  by_cases text : phrase.IsText
  · cases phrase with
    | text value filled => exact tokens_of_escapes (escapes_escapeMarks value) apart before
    | emphasis | strong | interpreted | reference | literal => cases text
  · obtain ⟨last, found⟩ := trySpan_phrase text begins apart
    rw [tokens_of_trySpan (head?_written_ne text rest) found, tokens_of_setApart apart,
      tokens_of_not_isText text]
    rfl

/-- The tokens of phrases are gathered to their nodes, as no run of characters meets another one. -/
theorem gather_phrases {phrases : List Phrase} (parted : phrases.IsChain Phrase.MayPrecede) :
    gather [] (phrases.flatMap Phrase.tokens) = phrases.map Phrase.node := by
  induction phrases with
  | nil => rfl
  | cons phrase phrases ih =>
    have later := ih (List.isChain_of_isChain_cons parted)
    rw [List.flatMap_cons, List.map_cons, ← later]
    by_cases text : phrase.IsText
    · cases phrase with
      | text value filled =>
        rw [Phrase.tokens]
        cases phrases with
        | nil =>
          rw [List.flatMap_nil, List.append_nil]
          exact gather_chars filled
        | cons next phrases =>
          -- The run of characters ends at the next phrase, which is one node.
          have marked : ¬next.IsText := fun other =>
            (List.isChain_cons_cons.mp parted).1 ⟨text, other⟩
          rw [gather_chars_append, List.flatMap_cons, tokens_of_not_isText marked,
            List.singleton_append, gather, runNode_reverse filled]
          rfl
      | emphasis | strong | interpreted | reference | literal => cases text
    · rw [tokens_of_not_isText text]
      rfl

theorem unclosed_phrases (phrases : List Phrase) :
    unclosed (phrases.flatMap Phrase.tokens) = [] := by
  rw [unclosed, List.filterMap_flatMap, List.flatMap_eq_nil_iff]
  intro phrase _
  cases phrase with
  | text value filled => exact unclosed_chars value
  | emphasis | strong | interpreted | reference | literal => rfl

/-- All phrases are read, one after the other. -/
theorem tokens_written (phrases : List Phrase) {before : Option Char} (begins : Begins before) :
    tokens before (written phrases) = phrases.flatMap Phrase.tokens := by
  induction phrases generalizing before with
  | nil => rw [written, List.map_nil, List.intercalate_nil, tokens, List.flatMap_nil]
  | cons phrase phrases ih =>
    cases phrases with
    | nil =>
      calc
        _ = tokens before (phrase.written ++ []) := by
          rw [written, List.map_singleton, List.intercalate_singleton, List.append_nil]
        _ = phrase.tokens ++ tokens none [] := tokens_phrase phrase begins (.inl rfl)
        _ = _ := by rw [tokens, List.append_nil, List.flatMap_singleton]
    | cons next phrases =>
      calc
        _ = tokens before (phrase.written ++ '\\' :: ' ' :: written (next :: phrases)) := by
          simp only [written, List.map_cons, List.intercalate_cons_cons, List.append_assoc,
            List.cons_append, List.nil_append]
        _ = phrase.tokens ++ tokens none ('\\' :: ' ' :: written (next :: phrases)) :=
          tokens_phrase phrase begins (.inr ⟨_, rfl⟩)
        _ = phrase.tokens ++ tokens (some ' ') (written (next :: phrases)) := by
          rw [tokens]
          simp
        _ = phrase.tokens ++ (next :: phrases).flatMap Phrase.tokens := by rw [ih (.inr rfl)]
        _ = _ := List.flatMap_cons.symm

/-- Reading gives the phrases back. No problem is reported, so strict reading does not stop. -/
theorem readText_written {phrases : List Phrase} (parted : phrases.IsChain Phrase.MayPrecede)
    (line : Nat) :
    (readText line (written phrases) : Reading (List Node)) = .done (phrases.map Phrase.node) ∧
      (readText line (written phrases) : Except Problem (List Node)) =
        .ok (phrases.map Phrase.node) := by
  have found := tokens_written phrases (.inl rfl)
  constructor
  · simp only [readText, found, unclosed_phrases, gather_phrases parted]
    rfl
  · simp only [readText, found, unclosed_phrases, gather_phrases parted]
    rfl

def markedContent : Content where
  text := "*`a\\".toList
  begins := ⟨'*', "`a\\".toList, by decide, by decide⟩
  ends := ⟨"*`a".toList, '\\', by decide, by decide⟩

def quotedContent : Content where
  text := "`\\ *`".toList
  begins := ⟨'\x60', "\\ *`".toList, by decide, by decide⟩
  ends := ⟨"`\\ *".toList, '\x60', by decide, by decide⟩

def dottedRole : Role := ⟨"a.b".toList, by decide, by simp [isRoleChar]⟩

/-- Phrases whose texts are made of delimiters, backslashes and what looks like a role. -/
def markedPhrases : List Phrase :=
  [.text "**:a:".toList (by decide), .interpreted (some dottedRole) markedContent,
    .text "`_\\".toList (by decide), .literal quotedContent (by simp [SingleQuotes, quotedContent]),
    .interpreted none quotedContent, .strong markedContent, .reference quotedContent,
    .emphasis markedContent]

example : String.ofList (written markedPhrases) =
    "\\*\\*:a:\\ :a.b:`\\*\\`a\\\\`\\ \\`_\\\\\\ ```\\ *```" ++
      "\\ `\\`\\\\ \\*\\``\\ **\\*\\`a\\\\**\\ `\\`\\\\ \\*\\``_" ++
      "\\ *\\*\\`a\\\\*" := by
  decide +kernel

theorem readText_written_marked :
    markedPhrases.IsChain Phrase.MayPrecede ∧
      (readText 1 (written markedPhrases) : Reading (List Node)) =
        .done (markedPhrases.map Phrase.node) ∧
      (readText 1 (written markedPhrases) : Except Problem (List Node)) =
        .ok (markedPhrases.map Phrase.node) := by
  have parted : markedPhrases.IsChain Phrase.MayPrecede := by
    simp [markedPhrases, Phrase.MayPrecede, Phrase.IsText]
  exact ⟨parted, readText_written parted 1⟩

end RstPress.Inline
