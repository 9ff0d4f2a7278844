import RstPress.Proofs.Grammar.Paragraph

/-!
Of which characters the inline nodes of a text are made. Reading moves characters and leaves some out, but
it does not make new ones; the only characters of its own are those of the names that it gives to nodes.
-/

namespace RstPress.Tree

/-- The characters of names, tags and messages, and of the white space around them. -/
def isUsual (c : Char) : Bool := c = '\n' || (' ' ≤ c && c ≤ '~')

/-- All characters of a tree are of one kind: those of its texts, its roles and its unknown type names. -/
inductive Node.MadeOf (p : Char → Prop) : Node → Prop where
  | text {value : String} (own : ∀ c ∈ value.toList, p c) : MadeOf p (.text value)
  | transition : MadeOf p .transition
  | titled {depth : UInt32} {title body : List Node} (above : ∀ node ∈ title, MadeOf p node)
    (below : ∀ node ∈ body, MadeOf p node) : MadeOf p (.titled depth title body)
  | interpreted {role : Option String} {children : List Node}
    (named : ∀ name ∈ role, ∀ c ∈ name.toList, p c) (inner : ∀ node ∈ children, MadeOf p node) :
    MadeOf p (.interpreted role children)
  | composite {kind : Kind} {children : List Node} (inner : ∀ node ∈ children, MadeOf p node) :
    MadeOf p (.composite kind children)
  | unknown {kind : UnknownKind} {children : List Node} (named : ∀ c ∈ kind.name.toList, p c)
    (inner : ∀ node ∈ children, MadeOf p node) : MadeOf p (.unknown kind children)
  | unknownLeaf {kind : UnknownKind} {value : String} (named : ∀ c ∈ kind.name.toList, p c)
    (own : ∀ c ∈ value.toList, p c) : MadeOf p (.unknownLeaf kind value)

end RstPress.Tree

namespace RstPress.Inline
open Text RstPress.Tree

theorem unescape_sublist (text : List Char) : (unescape text).Sublist text := by
  fun_induction unescape text with
  | case1 => exact .slnil
  | case2 => exact .cons _ .slnil
  | case3 text ih => exact .cons _ (.cons _ ih)
  | case4 d text other ih => exact .cons _ (.cons_cons _ ih)
  | case5 c text plain ih => exact .cons_cons _ ih

/-- All characters of a token are of one kind. -/
def Token.MadeOf (p : Char → Prop) : Token → Prop
  | .char c => p c
  | .node tree => tree.MadeOf p
  | .unclosed _ => True

section characters
variable {p : Char → Prop}

theorem madeOf_textNode {value : List Char} (own : ∀ c ∈ value, p c) : (textNode value).MadeOf p :=
  .text (by rwa [String.toList_ofList])

theorem madeOf_unescaped {content : List Char} (inside : ∀ c ∈ content, p c) :
    ∀ node ∈ [textNode (unescape content)], node.MadeOf p :=
  List.forall_mem_singleton.mpr
    (madeOf_textNode fun c member => inside c ((unescape_sublist content).subset member))

theorem madeOf_interpretedNode {role : Option (List Char)} {content : List Char}
    (named : ∀ name ∈ role, ∀ c ∈ name, p c) (inside : ∀ c ∈ content, p c) :
    (interpretedNode role content).MadeOf p := by
  refine .interpreted (fun name member => ?_) (madeOf_unescaped inside)
  obtain ⟨chars, present, rfl⟩ := Option.map_eq_some_iff.mp member
  rw [String.toList_ofList]
  exact named chars present

theorem forall_of_role? {text name rest : List Char} (found : role? text = some (name, rest))
    (all : ∀ c ∈ text, p c) : ∀ c ∈ name, p c := by
  rw [eq_of_role? found] at all
  exact fun c member => all c (List.mem_cons_of_mem _ (List.mem_append_left _ member))

variable (usual : ∀ c, isUsual c → p c)
include usual

/-- A name that is given to a node is made of the usual characters. -/
theorem forall_of_usual {name : String} (names : name.toList.all isUsual) : ∀ c ∈ name.toList, p c :=
  fun c member => usual c (List.all_eq_true.mp names c member)

/-- The node of a span takes its characters from the content, and its role from what follows. -/
theorem madeOf_span {markup : Markup} {content rest after : List Char} {node : Node} {last : Char}
    (found : markup.span content rest = .span node last after) (inside : ∀ c ∈ content, p c)
    (behind : ∀ c ∈ rest, p c) : node.MadeOf p := by
  cases markup with
  | literal =>
    cases found
    exact .composite (List.forall_mem_singleton.mpr (madeOf_textNode inside))
  | strong | emphasis =>
    cases found
    exact .composite (madeOf_unescaped inside)
  | interpreted =>
    rcases suffix_cases rest with same | ⟨more, same, _⟩ | ⟨name, more, same, role⟩
    all_goals
      rw [Markup.span, same] at found
      cases found
    · exact madeOf_interpretedNode (fun name member => by cases member) inside
    · exact .unknown (forall_of_usual usual (by decide)) (madeOf_unescaped inside)
    · refine madeOf_interpretedNode (fun chars member => ?_) inside
      cases member
      exact forall_of_role? role behind

theorem madeOf_trySpan {before : Option Char} {text rest : List Char} {node : Node} {last : Char}
    (found : trySpan before text = .span node last rest) (all : ∀ c ∈ text, p c) : node.MadeOf p := by
  rcases trySpan_cases found with
    ⟨name, content, inner, role, closed, rfl, rfl⟩ | ⟨markup, content, inner, after, same, closed, found⟩
  · have named := forall_of_role? role all
    rw [eq_of_role? role, eq_of_close? closed] at all
    refine madeOf_interpretedNode (fun chars member => ?_) fun c member => all c (by simp [member])
    cases member
    exact named
  · rw [same, eq_of_close? closed] at all
    exact madeOf_span usual found (fun c member => all c (by simp [member]))
      fun c member => all c (by simp [member])

theorem madeOf_tokens (before : Option Char) {text : List Char} (all : ∀ c ∈ text, p c) :
    ∀ token ∈ tokens before text, token.MadeOf p := by
  fun_induction tokens before text with
  | case1 => exact List.forall_mem_nil _
  | case2 => exact List.forall_mem_singleton.mpr (all _ List.mem_cons_self)
  | case3 before text ih =>
    exact ih (List.forall_mem_cons.mp (List.forall_mem_cons.mp all).2).2
  | case4 =>
    obtain ⟨first, later⟩ := List.forall_mem_cons.mp all
    exact List.forall_mem_cons.mpr ⟨first, List.forall_mem_singleton.mpr (later _ List.mem_cons_self)⟩
  | case5 before d text other goes ih =>
    obtain ⟨second, later⟩ := List.forall_mem_cons.mp (List.forall_mem_cons.mp all).2
    exact List.forall_mem_cons.mpr ⟨second, ih later⟩
  | case6 before c text other found ih =>
    obtain ⟨first, later⟩ := List.forall_mem_cons.mp all
    exact List.forall_mem_cons.mpr ⟨first, ih later⟩
  | case7 before c text plain markup found ih =>
    obtain ⟨first, later⟩ := List.forall_mem_cons.mp all
    exact List.forall_mem_cons.mpr ⟨trivial, List.forall_mem_cons.mpr ⟨first, ih later⟩⟩
  | case8 before c text plain node last rest found ih =>
    obtain ⟨_, _, front, whole⟩ := exists_of_trySpan found
    refine List.forall_mem_cons.mpr ⟨madeOf_trySpan usual found all, ih fun d member => ?_⟩
    exact all d (by simp [whole, member])

omit usual in
theorem madeOf_gather {found : List Token} (made : ∀ token ∈ found, token.MadeOf p) {run : List Char}
    (read : ∀ c ∈ run, p c) : ∀ node ∈ gather run found, node.MadeOf p := by
  have texts {run : List Char} (read : ∀ c ∈ run, p c) : ∀ node ∈ runNode run, node.MadeOf p := by
    unfold runNode
    split
    · exact List.forall_mem_nil _
    · exact List.forall_mem_singleton.mpr
        (madeOf_textNode fun c member => read c (List.mem_reverse.mp member))
  induction found generalizing run with
  | nil => exact texts read
  | cons token found ih =>
    obtain ⟨here, later⟩ := List.forall_mem_cons.mp made
    cases token with
    | char c => exact ih later (List.forall_mem_cons.mpr ⟨here, read⟩)
    | unclosed => exact ih later read
    | node node =>
      have behind := ih later (List.forall_mem_nil p)
      exact List.forall_mem_append.mpr ⟨texts read, List.forall_mem_cons.mpr ⟨here, behind⟩⟩

theorem madeOf_nodes {text : List Char} (all : ∀ c ∈ text, p c) :
    ∀ node ∈ nodes text, node.MadeOf p :=
  madeOf_gather (madeOf_tokens usual none all) (List.forall_mem_nil p)

omit usual in
/-- Cutting texts into lines leaves their characters. -/
theorem madeOf_cutTexts {nodes : List Node} (made : ∀ node ∈ nodes, node.MadeOf p) :
    ∀ node ∈ cutTexts nodes, node.MadeOf p := by
  refine List.forall_mem_flatMap.mpr fun node member => ?_
  cases made node member with
  | @text value own =>
    refine List.forall_mem_map.mpr fun piece cut => madeOf_textNode fun c inside => own c ?_
    rw [← flatten_cutAfterLineFeeds value.toList]
    exact List.mem_flatten.mpr ⟨piece, cut, inside⟩
  | transition | titled | interpreted | composite | unknown | unknownLeaf =>
    exact List.forall_mem_singleton.mpr (made _ member)

end characters

end RstPress.Inline
