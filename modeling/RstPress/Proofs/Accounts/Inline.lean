import RstPress.Inline.Token
import RstPress.Proofs.Accounts.Text

/-!
The nodes of a text account for it. Delimiters, backslashes, and the spaces after backslashes are
left out, and roles, which are labels for the backquote beside them.
-/

namespace RstPress.Tree

/-- The text of some nodes, as characters. -/
def shownBy (nodes : List Node) : List Char := (Node.plainTexts nodes).toList

@[simp] theorem shownBy_nil : shownBy [] = [] := rfl

@[simp] theorem shownBy_cons (node : Node) (nodes : List Node) :
    shownBy (node :: nodes) = node.plainText.toList ++ shownBy nodes := by
  rw [shownBy, Node.plainTexts, String.toList_append]
  rfl

@[simp] theorem shownBy_append (front back : List Node) :
    shownBy (front ++ back) = shownBy front ++ shownBy back := by
  induction front with
  | nil => rfl
  | cons node front ih => rw [List.cons_append, shownBy_cons, shownBy_cons, ih, List.append_assoc]

end RstPress.Tree

namespace RstPress.Inline
open Text RstPress.Tree

theorem shownBy_textNode (value : List Char) : shownBy [textNode value] = value := by
  simp [textNode, Node.plainText]

theorem accounts_unescape (text : List Char) : Accounts (unescape text) text := by
  fun_induction unescape text with
  | case1 => exact .refl _
  | case2 => exact .punctuation_cons (by decide) (.refl [])
  | case3 text ih =>
    apply Accounts.punctuation_cons (by decide)
    exact .blank_cons (by decide) ih
  | case4 d text other ih =>
    apply Accounts.punctuation_cons (by decide)
    exact .cons d ih
  | case5 c text plain ih => exact .cons c ih

theorem isForeign_of_isRoleChar {c : Char} (plain : isRoleChar c) : isForeign c = false := by
  simp only [isRoleChar, Bool.or_eq_true, decide_eq_true_eq] at plain
  rcases plain with (((letter | rfl) | rfl) | rfl) | rfl
  · exact isForeign_of_isAlphanum letter
  all_goals decide

theorem isRoleChar_of_mem_role {text name rest : List Char}
    (found : role? text = some (name, rest)) : ∀ c ∈ name, isRoleChar c := by
  unfold role? at found
  split at found
  · cases found
  · split at found
    · cases found
    · dsimp only at found
      rw [Option.ite_none_right_eq_some, Option.some.injEq, Prod.mk.injEq] at found
      rw [← found.2.1]
      intro c member
      exact List.mem_takeWhile_imp member

/-- A role goes together with a backquote beside it. -/
theorem accounts_of_role {text name rest label : List Char} (found : role? text = some (name, rest))
    (parts : ∀ c ∈ label, c ∈ name ∨ c = ':' ∨ c = '\x60') (mark : '\x60' ∈ label) :
    Accounts [] label := by
  apply Accounts.of_left_out
  · intro c member
    rcases parts c member with inside | rfl | rfl
    · exact isForeign_of_isRoleChar (isRoleChar_of_mem_role found c inside)
    · decide
    · decide
  · exact .inl ⟨_, mark, by decide⟩

theorem accounts_suffix (text : List Char) : Accounts (suffix text).2 ('\x60' :: text) := by
  rcases suffix_cases text with same | ⟨rest, same, rfl | rfl⟩ | ⟨name, rest, same, found⟩ <;> rw [same]
  · exact .punctuation_cons (by decide) (.refl _)
  · exact .punctuation_cons (by decide) (.punctuation_cons (by decide) (.refl _))
  · exact .punctuation_cons (by decide)
      (.punctuation_cons (by decide) (.punctuation_cons (by decide) (.refl _)))
  · have label : Accounts [] ('\x60' :: ':' :: (name ++ [':'])) := by
      apply accounts_of_role found _ List.mem_cons_self
      intro c member
      simp only [List.mem_cons, List.mem_append, List.not_mem_nil, or_false] at member
      grind
    have whole := label.left_out_append (.refl rest)
    rw [eq_of_role? found]
    simpa using whole

theorem accounts_delimiter (markup : Markup) : Accounts [] markup.delimiter := by
  have mark {c : Char} (punctuation : isPunctuation c) : Accounts [] [c] :=
    .punctuation_cons punctuation (.refl [])
  cases markup with
  | literal => exact .punctuation_cons (by decide) (mark (by decide))
  | strong => exact .punctuation_cons (by decide) (mark (by decide))
  | emphasis | interpreted => exact mark (by decide)

/-- What a span shows, and what is left after it, account for its content with all that follows. -/
theorem accounts_of_span {markup : Markup} {content rest after : List Char} {node : Node}
    {last : Char} (found : markup.span content rest = .span node last after) :
    Accounts (node.plainText.toList ++ after) (content ++ markup.delimiter ++ rest) := by
  have plain (shown : List Char) (kept : Accounts shown content) :
      Accounts (shown ++ rest) (content ++ markup.delimiter ++ rest) :=
    (kept.append_left_out (accounts_delimiter markup)).append (.refl rest)
  cases markup with
  | literal =>
    simp only [Markup.span, Trial.span.injEq] at found
    rw [← found.1, ← found.2.2]
    simpa [Node.plainText, Node.plainTexts, textNode] using plain content (.refl _)
  | strong | emphasis =>
    simp only [Markup.span, Trial.span.injEq] at found
    rw [← found.1, ← found.2.2]
    have whole := plain (unescape content) (accounts_unescape content)
    simpa [Node.plainText, Node.plainTexts, textNode] using whole
  | interpreted =>
    have whole : Accounts (unescape content ++ (suffix rest).2)
        (content ++ Markup.interpreted.delimiter ++ rest) := by
      rw [List.append_assoc]
      exact (accounts_unescape content).append (accounts_suffix rest)
    have same : node.plainText.toList = unescape content ∧ after = (suffix rest).2 := by
      simp only [Markup.span] at found
      split at found
      all_goals
        rename_i kind
        simp only [Trial.span.injEq] at found
        rw [← found.1, ← found.2.2, kind]
        simp [interpretedNode, Node.plainText, Node.plainTexts, textNode]
    rw [same.1, same.2]
    exact whole

theorem accounts_trySpan {before : Option Char} {text rest : List Char} {node : Node} {last : Char}
    (found : trySpan before text = .span node last rest) :
    Accounts (node.plainText.toList ++ rest) text := by
  rcases trySpan_cases found with
    ⟨name, content, inner, role, closed, rfl, _⟩ | ⟨markup, content, inner, after, same, closed, found⟩
  · have label : Accounts [] (':' :: (name ++ [':', '\x60'])) := by
      apply accounts_of_role role _ (by simp)
      intro c member
      simp only [List.mem_cons, List.mem_append, List.not_mem_nil, or_false] at member
      grind
    have inside : Accounts (unescape inner ++ rest) content := by
      rw [eq_of_close? closed]
      exact ((accounts_unescape inner).append_left_out (accounts_delimiter _)).append (.refl rest)
    have whole := label.left_out_append inside
    have shown : (interpretedNode (some name) inner).plainText.toList = unescape inner := by
      simp [interpretedNode, Node.plainText, Node.plainTexts, textNode]
    rw [shown, eq_of_role? role]
    simpa [Markup.delimiter] using whole
  · rw [same, eq_of_close? closed]
    exact (accounts_delimiter markup).left_out_append (accounts_of_span found)

/-- What a token shows. -/
def Token.shown : Token → List Char
  | .char c => [c]
  | .node tree => tree.plainText.toList
  | .unclosed _ => []

theorem accounts_tokens (before : Option Char) (text : List Char) :
    Accounts ((tokens before text).flatMap Token.shown) text := by
  fun_induction tokens before text with
  | case1 => exact .refl _
  | case2 => exact .refl _
  | case3 before text ih =>
    apply Accounts.punctuation_cons (by decide)
    exact .blank_cons (by decide) ih
  | case4 before d text other ends =>
    simp only [Bool.and_eq_true, decide_eq_true_eq, List.isEmpty_iff] at ends
    rw [ends.1, ends.2]
    exact .refl _
  | case5 before d text other goes ih =>
    apply Accounts.punctuation_cons (by decide)
    exact .cons d ih
  | case6 before c text plain found ih => exact .cons c ih
  | case7 before c text plain markup found ih => exact .cons c ih
  | case8 before c text plain node last rest found ih =>
    have whole := accounts_trySpan found
    apply Accounts.trans _ whole
    rw [List.flatMap_cons]
    exact (Accounts.refl _).append ih

theorem shownBy_runNode (run : List Char) : shownBy (runNode run) = run.reverse := by
  unfold runNode
  split
  · rename_i empty
    rw [List.isEmpty_iff.mp empty]
    rfl
  · exact shownBy_textNode _

theorem shownBy_gather (run : List Char) (found : List Token) :
    shownBy (gather run found) = run.reverse ++ found.flatMap Token.shown := by
  fun_induction gather run found with
  | case1 run => rw [shownBy_runNode, List.flatMap_nil, List.append_nil]
  | case2 run c found ih =>
    rw [ih, List.reverse_cons, List.append_assoc, List.flatMap_cons, Token.shown]
  | case3 run markup found ih => rw [ih, List.flatMap_cons, Token.shown, List.nil_append]
  | case4 run node found ih =>
    calc
      _ = run.reverse ++ (node.plainText.toList ++ shownBy (gather [] found)) := by
        rw [shownBy_append, shownBy_runNode, shownBy_cons]
      _ = run.reverse ++ (node.plainText.toList ++ found.flatMap Token.shown) := by
        rw [ih, List.reverse_nil, List.nil_append]
      _ = _ := by rw [List.flatMap_cons, Token.shown]

theorem flatten_cutAfterLineFeeds (text : List Char) : (cutAfterLineFeeds text).flatten = text := by
  fun_induction cutAfterLineFeeds text with
  | case1 => rfl
  | case2 text ih => rw [List.flatten_cons, ih, List.singleton_append]
  | case3 c text other none ih => simp_all
  | case4 c text other first others cut ih => simp_all

/-- Cutting the texts of some nodes does not change what they show. -/
theorem shownBy_cutTexts (found : List Node) : shownBy (cutTexts found) = shownBy found := by
  have texts (pieces : List (List Char)) : shownBy (pieces.map textNode) = pieces.flatten := by
    induction pieces with
    | nil => rfl
    | cons piece pieces ih =>
      rw [List.map_cons, shownBy_cons, ih, List.flatten_cons, textNode, Node.plainText,
        String.toList_ofList]
  induction found with
  | nil => rfl
  | cons node found ih =>
    rw [cutTexts, List.flatMap_cons, ← cutTexts, shownBy_append, ih, shownBy_cons]
    cases node with
    | text value => rw [texts, flatten_cutAfterLineFeeds, Node.plainText]
    | transition | titled | interpreted | composite | unknown | unknownLeaf =>
      rw [shownBy_cons, shownBy_nil, List.append_nil]

theorem accounts_nodes (text : List Char) : Accounts (shownBy (nodes text)) text := by
  rw [nodes, shownBy_gather]
  exact accounts_tokens none text

end RstPress.Inline
