import Mathlib.Data.List.Chain
import RstPress.Proofs.Phrases.Delimited

/-!
What inline reading makes of any text: texts, and marked nodes around one text each. No text is empty,
and no two stand side by side. Markup ends behind a visible character, and a visible end of the text
is shown, so that neither a content nor a whole text can vanish with its backslashes.
-/

namespace RstPress.Inline
open Text RstPress.Tree

/-- A node with inline markup around a text. -/
inductive IsMarked (value : String) : Node → Prop where
  | emphasis : IsMarked value (.composite .emphasis [.text value])
  | strong : IsMarked value (.composite .strong [.text value])
  | literal : IsMarked value (.composite .literal [.text value])
  | interpreted (role : Option String) : IsMarked value (.interpreted role [.text value])
  | reference : IsMarked value (.unknown referenceKind [.text value])

/-- A text that is not empty, or such a text in inline markup. -/
inductive IsInline : Node → Prop where
  | text {value : String} (filled : value ≠ "") : IsInline (.text value)
  | marked {value : String} {node : Node} (marked : IsMarked value node) (filled : value ≠ "") :
    IsInline node

def isText : Node → Bool
  | .text _ => true
  | .transition | .titled .. | .interpreted .. | .composite .. | .unknown .. | .unknownLeaf .. => false

theorem IsMarked.plainText {value : String} {node : Node} (marked : IsMarked value node) :
    node.plainText = value := by
  cases marked <;> simp [Node.plainText, Node.plainTexts]

theorem IsMarked.isText {value : String} {node : Node} (marked : IsMarked value node) :
    isText node = false := by
  cases marked <;> rfl

theorem ofList_ne_empty {text : List Char} (filled : text ≠ []) : String.ofList text ≠ "" := by
  intro same
  apply filled
  have listed := congrArg String.toList same
  rwa [String.toList_ofList] at listed

section ends
variable {last : Option Char} {c : Char} {text : List Char}

theorem MayClose.cons (visible : MayClose (some c) text) : MayClose last (c :: text) := by
  rw [MayClose, Option.or_some] at visible
  rwa [MayClose, List.getLast?_cons, Option.some_or]

/-- A text behind a blank ends visibly by itself. -/
theorem MayClose.of_isBlank (visible : MayClose (some c) text) (blank : isBlank c)
    (last : Option Char) : MayClose last text := by
  obtain ⟨d, ends, shown⟩ := visible
  cases same : text.getLast? with
  | none =>
    rw [same, Option.none_or, Option.some.injEq] at ends
    rw [ends, shown] at blank
    cases blank
  | some e =>
    rw [same, Option.some_or] at ends
    exact ⟨d, by rw [same, Option.some_or, ends], shown⟩

theorem MayClose.append (visible : MayClose none text) (front : List Char) :
    MayClose none (front ++ text) := by
  obtain ⟨d, ends, shown⟩ := visible
  rw [Option.or_none] at ends
  exact ⟨d, by rw [List.getLast?_append, ends, Option.some_or, Option.some_or], shown⟩

theorem mayClose_append_singleton (visible : isBlank c = false) (front : List Char) :
    MayClose none (front ++ [c]) := ⟨c, by simp, visible⟩

/-- A visible end stays when a part in front of it is left out. -/
theorem MayClose.of_append {back : List Char} (filled : back ≠ []) {front : List Char}
    (visible : MayClose none (front ++ back)) : MayClose none back := by
  obtain ⟨d, ends, shown⟩ := visible
  rw [Option.or_none, List.getLast?_append_of_ne_nil _ filled] at ends
  exact ⟨d, by rw [ends, Option.some_or], shown⟩

theorem MayClose.exists_concat (visible : MayClose none text) :
    ∃ front last, text = front ++ [last] ∧ Text.isBlank last = false := by
  obtain ⟨d, ends, shown⟩ := visible
  rw [Option.or_none] at ends
  obtain ⟨front, same⟩ := List.getLast?_eq_some_iff.mp ends
  exact ⟨front, d, same, shown⟩

theorem MayClose.ne_nil (visible : MayClose none text) : text ≠ [] := by
  rintro rfl
  obtain ⟨d, ends, _⟩ := visible
  cases ends

theorem mayClose_none_iff : MayClose none text ↔ text ≠ [] ∧ ∀ c ∈ text.getLast?, isBlank c = false := by
  constructor
  · intro visible
    obtain ⟨front, d, rfl, shown⟩ := visible.exists_concat
    refine ⟨visible.ne_nil, fun c ends => ?_⟩
    rw [List.getLast?_concat] at ends
    cases ends
    exact shown
  · rintro ⟨filled, shown⟩
    have ends := List.getLast?_eq_some_getLast filled
    exact ⟨_, by rw [ends, Option.some_or], shown _ ends⟩

theorem mayClose_nil_iff : MayClose last [] ↔ last.any fun c => !isBlank c := by
  cases last <;> simp [MayClose]

end ends

theorem unescape_cons {c : Char} (plain : c ≠ '\\') (text : List Char) :
    unescape (c :: text) = c :: unescape text := by
  rw [unescape.eq_def]
  exact if_neg plain

/-- Markup ends behind a visible character of its content, and this character stays when the backslashes
go: the search for the end reads a backslash together with the character behind it, so the content
does not end between the two, and an escaped space is followed by something visible. -/
theorem mayClose_of_close? {markup : Markup} {last : Option Char} {text content rest : List Char}
    (found : markup.close? last text = some (content, rest)) :
    MayClose last content ∧ (markup.escapes → MayClose last (unescape content)) := by
  replace found := finds_of_close? found
  induction found with
  | ends visible border =>
    have shown := mayClose_nil_iff.mpr visible
    exact ⟨shown, fun _ => shown⟩
  | @pair last d _ _ _ escapes later ih =>
    obtain ⟨raw, meant⟩ := ih
    refine ⟨raw.cons.cons, fun _ => ?_⟩
    rw [unescape, if_pos rfl]
    split
    · rename_i space
      exact (meant escapes).of_isBlank (by rw [space]; decide) last
    · exact (meant escapes).cons
  | plain ordinary later ih =>
    obtain ⟨raw, meant⟩ := ih
    refine ⟨raw.cons, fun escapes => ?_⟩
    rw [unescape_cons (ordinary escapes)]
    exact (meant escapes).cons

/-- The text that markup shows of its content. -/
def Markup.shown (markup : Markup) (content : List Char) : List Char :=
  if markup.escapes then unescape content else content

theorem Markup.mayClose_shown {markup : Markup} {text content rest : List Char}
    (found : markup.close? none text = some (content, rest)) :
    MayClose none (markup.shown content) := by
  obtain ⟨raw, meant⟩ := mayClose_of_close? found
  unfold Markup.shown
  split
  · rename_i escapes
    exact meant escapes
  · exact raw

/-- Markup is a node around the text that it shows, and it ends with a mark. -/
theorem exists_of_span {markup : Markup} {content rest after : List Char} {node : Node} {last : Char}
    (found : markup.span content rest = .span node last after) :
    IsMarked (String.ofList (markup.shown content)) node ∧ isPunctuation last ∧
      ∃ front, markup.delimiter ++ rest = front ++ last :: after := by
  cases markup with
  | literal =>
    cases found
    exact ⟨.literal, by decide, ['\x60'], rfl⟩
  | strong =>
    cases found
    exact ⟨.strong, by decide, ['*'], rfl⟩
  | emphasis =>
    cases found
    exact ⟨.emphasis, by decide, [], rfl⟩
  | interpreted =>
    rcases suffix_cases rest with same | ⟨more, same, rfl | rfl⟩ | ⟨name, more, same, role⟩
    all_goals
      rw [Markup.span, same] at found
      cases found
    · exact ⟨.interpreted none, by decide, [], rfl⟩
    · exact ⟨.reference, by decide, ['\x60'], rfl⟩
    · exact ⟨.reference, by decide, ['\x60', '_'], rfl⟩
    · refine ⟨.interpreted (some (String.ofList name)), by decide, '\x60' :: ':' :: name, ?_⟩
      rw [eq_of_role? role]
      rfl

/-- A span is markup around a text that ends visibly, and it ends with a mark. -/
theorem exists_of_trySpan {before : Option Char} {text rest : List Char} {node : Node} {last : Char}
    (found : trySpan before text = .span node last rest) :
    (∃ value, IsMarked (String.ofList value) node ∧ MayClose none value) ∧ isPunctuation last ∧
      ∃ front, text = front ++ last :: rest := by
  rcases trySpan_cases found with
    ⟨name, content, inner, role, closed, rfl, rfl⟩ | ⟨markup, content, inner, after, same, closed, found⟩
  · refine ⟨⟨_, .interpreted _, Markup.mayClose_shown closed⟩, by decide,
      ':' :: (name ++ ':' :: '\x60' :: inner), ?_⟩
    rw [eq_of_role? role, eq_of_close? closed]
    simp [Markup.delimiter]
  · obtain ⟨marked, punctuation, front, ends⟩ := exists_of_span found
    refine ⟨⟨_, marked, Markup.mayClose_shown closed⟩, punctuation, markup.delimiter ++ inner ++ front, ?_⟩
    rw [same, eq_of_close? closed]
    simp only [List.append_assoc, ends]

/-- Nodes of markup hold a text that ends visibly. -/
def Token.IsSound : Token → Prop
  | .node tree => ∃ value, IsMarked (String.ofList value) tree ∧ MayClose none value
  | .char _ | .unclosed _ => True

theorem isSound_of_mem_tokens {before : Option Char} {text : List Char} :
    ∀ token ∈ tokens before text, token.IsSound := by
  fun_induction tokens before text with
  | case1 => exact List.forall_mem_nil _
  | case2 => exact List.forall_mem_singleton.mpr trivial
  | case3 before text ih => exact ih
  | case4 => exact List.forall_mem_cons.mpr ⟨trivial, List.forall_mem_singleton.mpr trivial⟩
  | case5 before d text other goes ih | case6 before d text other found ih =>
    exact List.forall_mem_cons.mpr ⟨trivial, ih⟩
  | case7 before c text plain markup found ih =>
    exact List.forall_mem_cons.mpr ⟨trivial, List.forall_mem_cons.mpr ⟨trivial, ih⟩⟩
  | case8 before c text plain node last rest found ih =>
    exact List.forall_mem_cons.mpr ⟨(exists_of_trySpan found).1, ih⟩

theorem getLast?_cons_cases {α : Type} {first last : α} {others : List α}
    (ends : (first :: others).getLast? = some last) :
    (others = [] ∧ first = last) ∨ others.getLast? = some last := by
  cases others with
  | nil => exact .inl ⟨rfl, Option.some.inj ends⟩
  | cons second others => exact .inr (by rwa [List.getLast?_cons_cons] at ends)

theorem getLast?_cons_of_some {α : Type} {last : α} {others : List α}
    (ends : others.getLast? = some last) (first : α) : (first :: others).getLast? = some last := by
  rw [List.getLast?_cons, ends, Option.getD_some]

/-- The last character of a text becomes the last token, or it ends the markup that does. A space may
be left out. -/
theorem getLast?_tokens (before : Option Char) {text : List Char} {c : Char}
    (ends : text.getLast? = some c) (noSpace : c ≠ ' ') :
    (tokens before text).getLast? = some (.char c) ∨
      isPunctuation c ∧ ∃ node, (tokens before text).getLast? = some (.node node) := by
  have later {first : Token} {others : List Token}
      (found : others.getLast? = some (.char c) ∨
        isPunctuation c ∧ ∃ node, others.getLast? = some (.node node)) :
      (first :: others).getLast? = some (.char c) ∨
        isPunctuation c ∧ ∃ node, (first :: others).getLast? = some (.node node) :=
    found.imp (getLast?_cons_of_some · first) fun ⟨mark, node, same⟩ =>
      ⟨mark, node, getLast?_cons_of_some same first⟩
  fun_induction tokens before text with
  | case1 => cases ends
  | case2 =>
    cases ends
    exact .inl rfl
  | case3 before text ih =>
    rcases getLast?_cons_cases ends with ⟨none, _⟩ | tail
    · cases none
    · rcases getLast?_cons_cases tail with ⟨_, space⟩ | rest
      · exact absurd space.symm noSpace
      · exact ih rest
  | case4 before d text other last =>
    rw [List.isEmpty_iff.mp (Bool.and_eq_true_iff.mp last).2] at ends
    cases ends
    exact .inl rfl
  | case5 before d text other goes ih =>
    rcases getLast?_cons_cases ends with ⟨none, _⟩ | tail
    · cases none
    · rcases getLast?_cons_cases tail with ⟨rfl, rfl⟩ | rest
      · rw [tokens]
        exact .inl rfl
      · exact later (ih rest)
  | case6 before d text plain found ih =>
    rcases getLast?_cons_cases ends with ⟨rfl, rfl⟩ | rest
    · rw [tokens]
      exact .inl rfl
    · exact later (ih rest)
  | case7 before d text plain markup found ih =>
    rcases getLast?_cons_cases ends with ⟨rfl, rfl⟩ | rest
    · rw [tokens]
      exact .inl rfl
    · exact later (later (ih rest))
  | case8 before d text plain node last rest found ih =>
    obtain ⟨_, mark, front, whole⟩ := exists_of_trySpan found
    rw [whole, List.getLast?_append_of_ne_nil _ (List.cons_ne_nil last rest)] at ends
    rcases getLast?_cons_cases ends with ⟨rfl, rfl⟩ | behind
    · rw [tokens]
      exact .inr ⟨mark, node, rfl⟩
    · exact later (ih behind)

/-- A visible end of a text is shown. -/
theorem mayClose_nodes {text : List Char} (visible : MayClose none text) :
    MayClose none (shownBy (nodes text)) := by
  obtain ⟨c, ends, shown⟩ := visible
  rw [Option.or_none] at ends
  have last : ∃ token ∈ (tokens none text).getLast?, MayClose none token.shown := by
    rcases getLast?_tokens none ends (ne_of_isBlank shown (by decide)) with
      same | ⟨_, node, same⟩
    · exact ⟨_, same, c, rfl, shown⟩
    · obtain ⟨value, marked, closes⟩ := isSound_of_mem_tokens _ (List.mem_of_getLast? same)
      refine ⟨_, same, ?_⟩
      rw [Token.shown, marked.plainText, String.toList_ofList]
      exact closes
  obtain ⟨token, same, closes⟩ := last
  obtain ⟨front, whole⟩ := List.getLast?_eq_some_iff.mp same
  rw [nodes, shownBy_gather, whole, List.flatMap_append, List.flatMap_singleton]
  exact (closes.append _).append _

theorem nodes_ne_nil {text : List Char} (visible : MayClose none text) : nodes text ≠ [] := by
  intro none
  have shown := (mayClose_nodes visible).ne_nil
  rw [none] at shown
  exact shown rfl

theorem runNode_cases (run : List Char) :
    runNode run = [] ∨ ∃ value, value ≠ "" ∧ runNode run = [.text value] := by
  unfold runNode
  split
  · exact .inl rfl
  · rename_i filled
    have reversed : run.reverse ≠ [] := fun none => filled (by simpa using none)
    exact .inr ⟨_, ofList_ne_empty reversed, rfl⟩

theorem isInline_gather {found : List Token} (sound : ∀ token ∈ found, token.IsSound)
    (run : List Char) : ∀ node ∈ gather run found, IsInline node := by
  have texts (run : List Char) : ∀ node ∈ runNode run, IsInline node := by
    rcases runNode_cases run with same | ⟨value, filled, same⟩ <;> rw [same]
    · exact List.forall_mem_nil _
    · exact List.forall_mem_singleton.mpr (.text filled)
  induction found generalizing run with
  | nil => exact texts run
  | cons token found ih =>
    obtain ⟨here, later⟩ := List.forall_mem_cons.mp sound
    cases token with
    | char | unclosed => exact ih later _
    | node node =>
      obtain ⟨value, marked, closes⟩ := here
      refine List.forall_mem_append.mpr ⟨texts run, List.forall_mem_cons.mpr ⟨?_, ih later []⟩⟩
      exact .marked marked (ofList_ne_empty closes.ne_nil)

theorem isInline_of_mem_nodes (text : List Char) : ∀ node ∈ nodes text, IsInline node :=
  isInline_gather isSound_of_mem_tokens []

/-- Of two neighbours one is no text. -/
def Apart (first second : Node) : Prop := isText first = false ∨ isText second = false

theorem isChain_gather {found : List Token} (sound : ∀ token ∈ found, token.IsSound)
    (run : List Char) : (gather run found).IsChain Apart := by
  induction found generalizing run with
  | nil =>
    rcases runNode_cases run with same | ⟨value, _, same⟩ <;> rw [gather, same]
    · exact .nil
    · exact .singleton _
  | cons token found ih =>
    obtain ⟨here, later⟩ := List.forall_mem_cons.mp sound
    cases token with
    | char | unclosed => exact ih later _
    | node node =>
      obtain ⟨value, marked, _⟩ := here
      have behind : (node :: gather [] found).IsChain Apart :=
        List.isChain_cons.mpr ⟨fun _ _ => .inl marked.isText, ih later []⟩
      rcases runNode_cases run with same | ⟨value, _, same⟩ <;> rw [gather, same]
      · exact behind
      · exact List.isChain_cons_cons.mpr ⟨.inr marked.isText, behind⟩

theorem getLast?_gather {found : List Token} {c : Char} (ends : found.getLast? = some (.char c))
    (run : List Char) : ∃ front, (gather run found).getLast? = some (textNode (front ++ [c])) := by
  induction found generalizing run with
  | nil => cases ends
  | cons token found ih =>
    rcases getLast?_cons_cases ends with ⟨rfl, rfl⟩ | rest
    · refine ⟨run.reverse, ?_⟩
      rw [gather, gather, runNode, if_neg (by simp), List.reverse_cons]
      rfl
    · cases token with
      | char d => exact ih rest (d :: run)
      | unclosed => exact ih rest run
      | node node =>
        obtain ⟨front, same⟩ := ih rest []
        refine ⟨front, ?_⟩
        rw [gather, List.getLast?_append, getLast?_cons_of_some same node, Option.some_or]

/-- A text that ends with a line feed is read as nodes that do. -/
theorem getLast?_nodes_feed {text : List Char} (ends : text.getLast? = some '\n') :
    ∃ front, (nodes text).getLast? = some (textNode (front ++ ['\n'])) := by
  rcases getLast?_tokens none ends (by decide) with same | ⟨mark, _⟩
  · exact getLast?_gather same []
  · cases mark

end RstPress.Inline
