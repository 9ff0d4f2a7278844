import RstPress.Inline.Markup
import RstPress.Tree.Node

/-!
A span is a piece of inline markup with its delimiters. At each place of a text it is tried whether a
span begins there. A delimiter that could begin one but is never closed is noted, and read as text.
-/

namespace RstPress.Inline
open Text RstPress.Tree

/-- What begins at a place of a text. A span comes with its last character and the text after it. -/
inductive Trial where
  | nothing
  | unclosed (markup : Markup)
  | span (node : Node) (last : Char) (rest : List Char)

def textNode (value : List Char) : Node := .text (String.ofList value)

def referenceKind : UnknownKind := ⟨"reference", by decide⟩

def interpretedNode (role : Option (List Char)) (content : List Char) : Node :=
  .interpreted (role.map String.ofList) [textNode (unescape content)]

/-- The span whose content ends in front of the closing delimiter, `rest` being what follows that. -/
def Markup.span (markup : Markup) (content rest : List Char) : Trial :=
  match markup with
  | .literal => .span (.composite .literal [textNode content]) '\x60' rest
  | .strong => .span (.composite .strong [textNode (unescape content)]) '*' rest
  | .emphasis => .span (.composite .emphasis [textNode (unescape content)]) '*' rest
  | .interpreted =>
    match suffix rest with
    | (.nothing, rest) => .span (interpretedNode none content) '\x60' rest
    | (.role name, rest) => .span (interpretedNode (some name) content) ':' rest
    | (.reference, rest) => .span (.unknown referenceKind [textNode (unescape content)]) '_' rest

/-- Tries interpreted text after its role. If it does not work out, the role is text. -/
def tryRole (name afterRole : List Char) : Trial :=
  match Markup.interpreted.delimiter.isPrefixOf? afterRole with
  | none => .nothing
  | some content =>
    if contentMayBegin (some ':') content then
      match Markup.interpreted.close? none content with
      | some (inner, rest) => .span (interpretedNode (some name) inner) '\x60' rest
      | none => .nothing
    else .nothing

def tryMarkup (markup : Markup) (before : Option Char) (content : List Char) : Trial :=
  if contentMayBegin before content then
    match markup.close? none content with
    | some (inner, rest) => markup.span inner rest
    | none => .unclosed markup
  else .nothing

/-- Tries whether a span begins here; `before` is the character in front, if there is one. -/
def trySpan (before : Option Char) (text : List Char) : Trial :=
  if mayBegin before then
    match role? text with
    | some (name, afterRole) => tryRole name afterRole
    | none =>
      match Markup.first? text with
      | some markup => tryMarkup markup before (text.drop markup.delimiter.length)
      | none => .nothing
  else .nothing

/-- A role is its name between two colons. -/
theorem eq_of_role? {text name rest : List Char} (found : role? text = some (name, rest)) :
    text = ':' :: (name ++ ':' :: rest) := by
  unfold role? at found
  split at found
  · simp at found
  · rename_i c more
    split at found
    · simp at found
    · rename_i close after same
      dsimp only at found
      rw [Option.ite_none_right_eq_some] at found
      simp only [Bool.and_eq_true, decide_eq_true_eq, Option.some.injEq, Prod.mk.injEq] at found
      obtain ⟨⟨⟨rfl, rfl⟩, _⟩, rfl, rfl⟩ := found
      rw [← same, List.takeWhile_append_dropWhile]

/-- A suffix is a role, or one underscore or two. -/
theorem suffix_cases (text : List Char) :
    suffix text = (.nothing, text) ∨
      (∃ rest, suffix text = (.reference, rest) ∧ (text = '_' :: rest ∨ text = '_' :: '_' :: rest)) ∨
      ∃ name rest, suffix text = (.role name, rest) ∧ role? text = some (name, rest) := by
  unfold suffix
  split
  · rename_i name rest found
    exact .inr (.inr ⟨name, rest, rfl, found⟩)
  · split
    · exact .inl rfl
    · rename_i c rest
      split
      · rename_i mark
        refine .inr (.inl ?_)
        split
        · exact ⟨[], rfl, .inl (by rw [mark])⟩
        · rename_i d more
          split
          · rename_i second
            exact ⟨more, rfl, .inr (by rw [mark, second])⟩
          · exact ⟨d :: more, rfl, .inl (by rw [mark])⟩
      · exact .inl rfl

theorem suffix_suffix (text : List Char) : (suffix text).2 <:+ text := by
  rcases suffix_cases text with same | ⟨rest, same, rfl | rfl⟩ | ⟨name, rest, same, found⟩
  all_goals simp only [same]
  · exact List.suffix_refl _
  · exact List.suffix_cons _ _
  · exact (List.suffix_cons _ _).trans (List.suffix_cons _ _)
  · rw [eq_of_role? found]
    exact ⟨':' :: (name ++ [':']), by simp⟩

/-- What the search for the end of markup passes over: escaped characters with their backslashes, and characters
that stand for themselves, up to a delimiter that may end the markup. -/
inductive Markup.Finds (markup : Markup) : Option Char → (text content rest : List Char) → Prop where
  | ends {last : Option Char} {rest : List Char} (visible : last.any fun d => !isBlank d)
    (border : markup.mayEndBefore rest) : markup.Finds last (markup.delimiter ++ rest) [] rest
  | pair {last : Option Char} {d : Char} {text content rest : List Char} (escapes : markup.escapes)
    (later : markup.Finds (some d) text content rest) :
    markup.Finds last ('\\' :: d :: text) ('\\' :: d :: content) rest
  | plain {last : Option Char} {c : Char} {text content rest : List Char} (ordinary : markup.escapes → c ≠ '\\')
    (later : markup.Finds (some c) text content rest) : markup.Finds last (c :: text) (c :: content) rest

theorem finds_of_close? {markup : Markup} {last : Option Char} {text content rest : List Char}
    (found : markup.close? last text = some (content, rest)) : markup.Finds last text content rest := by
  fun_induction Markup.close? markup last text generalizing content with
  | case1 | case2 => cases found
  | case3 last c escaped d text ih =>
    obtain ⟨inner, closed, same⟩ := Option.map_eq_some_iff.mp found
    cases same
    obtain ⟨escapes, backslash⟩ := Bool.and_eq_true_iff.mp escaped
    rw [of_decide_eq_true backslash]
    exact .pair escapes (ih closed)
  | case4 last c text plain after matched ends =>
    cases found
    obtain ⟨visible, border⟩ := Bool.and_eq_true_iff.mp ends
    rw [isPrefixOf?_eq_some_iff.mp matched]
    exact .ends visible border
  | case5 last c text plain after matched goes ih | case6 last c text plain unmatched ih =>
    obtain ⟨inner, closed, same⟩ := Option.map_eq_some_iff.mp found
    cases same
    exact .plain (by simpa using plain) (ih closed)

/-- Nothing is lost where markup ends: content, delimiter and rest make up the text. -/
theorem eq_of_close? {markup : Markup} {last : Option Char} {text content rest : List Char}
    (found : markup.close? last text = some (content, rest)) :
    text = content ++ markup.delimiter ++ rest := by
  replace found := finds_of_close? found
  induction found with
  | ends => rfl
  | pair escapes later ih => rw [ih]; rfl
  | plain ordinary later ih => rw [ih]; rfl

theorem rest_suffix_of_span {markup : Markup} {content rest after : List Char} {node : Node} {last : Char}
    (found : markup.span content rest = .span node last after) : after <:+ rest := by
  have whole := suffix_suffix rest
  unfold Markup.span at found
  split at found
  · exact (Trial.span.inj found).2.2 ▸ List.suffix_refl _
  · exact (Trial.span.inj found).2.2 ▸ List.suffix_refl _
  · exact (Trial.span.inj found).2.2 ▸ List.suffix_refl _
  · split at found
    all_goals
      rename_i taken
      rw [taken] at whole
      exact (Trial.span.inj found).2.2 ▸ whole

theorem length_pos_delimiter (markup : Markup) : 0 < markup.delimiter.length := by
  cases markup <;> decide

theorem length_close?_lt {markup : Markup} {last : Option Char} {text content rest : List Char}
    (found : markup.close? last text = some (content, rest)) : rest.length < text.length := by
  have positive := length_pos_delimiter markup
  rw [eq_of_close? found]
  simp only [List.length_append]
  omega

/-- All that is checked before there is a span: what may stand in front of it, what its content may begin
with, and where it is closed. -/
theorem trySpan_parts {before : Option Char} {text rest : List Char} {node : Node} {last : Char}
    (found : trySpan before text = .span node last rest) :
    mayBegin before ∧
      ((∃ name content inner, role? text = some (name, Markup.interpreted.delimiter ++ content) ∧
          contentMayBegin (some ':') content ∧
          Markup.interpreted.close? none content = some (inner, rest) ∧
          node = interpretedNode (some name) inner ∧ last = '\x60') ∨
        ∃ (markup : Markup) (content inner after : List Char), text = markup.delimiter ++ content ∧
          contentMayBegin before content ∧ markup.close? none content = some (inner, after) ∧
          markup.span inner after = .span node last rest) := by
  unfold trySpan at found
  split at found
  · rename_i begins
    refine ⟨begins, ?_⟩
    split at found
    · rename_i name afterRole role
      unfold tryRole at found
      split at found
      · cases found
      · rename_i content opened
        split at found
        · rename_i visible
          split at found
          · rename_i inner after closed
            cases found
            exact .inl ⟨name, content, inner, isPrefixOf?_eq_some_iff.mp opened ▸ role, visible, closed,
              rfl, rfl⟩
          · cases found
        · cases found
    · split at found
      · rename_i markup starts
        unfold tryMarkup at found
        split at found
        · rename_i visible
          split at found
          · rename_i inner after closed
            have front := List.find?_some starts
            obtain ⟨content, same⟩ := List.isPrefixOf_iff_prefix.mp front
            rw [← same, List.drop_left] at closed visible
            exact .inr ⟨markup, content, inner, after, same.symm, visible, closed, found⟩
          · cases found
        · cases found
      · cases found
  · cases found

/-- A span is interpreted text behind its role, or markup that begins with its delimiter. -/
theorem trySpan_cases {before : Option Char} {text rest : List Char} {node : Node} {last : Char}
    (found : trySpan before text = .span node last rest) :
    (∃ name content inner, role? text = some (name, Markup.interpreted.delimiter ++ content) ∧
        Markup.interpreted.close? none content = some (inner, rest) ∧
        node = interpretedNode (some name) inner ∧ last = '\x60') ∨
      ∃ (markup : Markup) (content inner after : List Char), text = markup.delimiter ++ content ∧
        markup.close? none content = some (inner, after) ∧
        markup.span inner after = .span node last rest := by
  obtain ⟨_, ⟨name, content, inner, role, _, closed, shown⟩ |
    ⟨markup, content, inner, after, same, _, closed, made⟩⟩ := trySpan_parts found
  · exact .inl ⟨name, content, inner, role, closed, shown⟩
  · exact .inr ⟨markup, content, inner, after, same, closed, made⟩

/-- A span takes at least one character. -/
theorem length_trySpan_lt {before : Option Char} {text rest : List Char} {node : Node} {last : Char}
    (found : trySpan before text = .span node last rest) : rest.length < text.length := by
  rcases trySpan_cases found with
    ⟨name, content, inner, role, closed, _⟩ | ⟨markup, content, inner, after, same, closed, found⟩
  · have shorter := length_close?_lt closed
    rw [eq_of_role? role]
    simp only [List.length_cons, List.length_append]
    omega
  · have shorter := length_close?_lt closed
    have kept := (rest_suffix_of_span found).length_le
    rw [same, List.length_append]
    omega

end RstPress.Inline
