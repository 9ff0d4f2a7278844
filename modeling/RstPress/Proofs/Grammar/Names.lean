import RstPress.Proofs.Grammar.Document
import RstPress.Wire.Node

/-!
The grammar by the names of the types, as they stand in the wire form of a tree. Below each type only the
types stand that its line of the table names.
-/

namespace RstPress.Grammar
open Text Source Layout Inline RstPress.Tree Document

def inlineNames : List String :=
  ["text", "emphasis", "strong", "literal", "interpreted_text", "reference"]

def bodyNames : List String :=
  ["transition", "paragraph", "literal_block", "bullet_list", "enumerated_list", "definition_list",
    "line_block", "block_quote"]

/-- The types that may stand directly below a type. -/
def namesBelow : String → List String
  | "document" => bodyNames ++ ["section"]
  | "section" => "title" :: bodyNames ++ ["section"]
  | "list_item" | "definition" | "block_quote" => bodyNames
  | "bullet_list" | "enumerated_list" => ["list_item"]
  | "definition_list" => ["definition_list_item"]
  | "definition_list_item" => ["term", "definition"]
  | "line_block" => ["line", "line_block"]
  | "title" | "paragraph" | "term" | "line" => inlineNames
  | "literal_block" | "emphasis" | "strong" | "literal" | "interpreted_text" | "reference" => ["text"]
  | _ => []

/-- A wire node with only such types below it, at any depth. -/
inductive IsNamed : Wire → Prop where
  | node {kind : String} {depth : Option UInt32} {role : Option String} {children : Option (List Wire)}
      {value : Option String}
      (allowed : ∀ child ∈ children.getD [], child.kind ∈ namesBelow kind)
      (below : ∀ child ∈ children.getD [], IsNamed child) : IsNamed ⟨kind, depth, role, children, value⟩

/-- A node of one of these types, with the types of the table below it. -/
structure IsOneOf (names : List String) (node : Node) : Prop where
  kind : (Wire.ofNode node).kind ∈ names
  named : IsNamed (.ofNode node)

theorem IsOneOf.mono {names more : List String} {node : Node} (one : IsOneOf names node)
    (subset : names ⊆ more) : IsOneOf more node :=
  ⟨subset one.kind, one.named⟩

theorem mem_ofNodes {nodes : List Node} {wire : Wire} (member : wire ∈ Wire.ofNodes nodes) :
    ∃ node ∈ nodes, wire = .ofNode node := by
  induction nodes with
  | nil => exact absurd member List.not_mem_nil
  | cons node nodes ih =>
    rcases List.mem_cons.mp member with here | later
    · exact ⟨node, List.mem_cons_self, here⟩
    · obtain ⟨other, present, same⟩ := ih later
      exact ⟨other, List.mem_cons_of_mem node present, same⟩

/-- A node is of the table if its children are of the types that stand below its own. -/
theorem isNamed_of_children {kind : String} {depth : Option UInt32} {role : Option String}
    {children : List Node} {value : Option String}
    (each : ∀ node ∈ children, IsOneOf (namesBelow kind) node) :
    IsNamed ⟨kind, depth, role, some (Wire.ofNodes children), value⟩ := by
  constructor
  · intro wire member
    obtain ⟨node, present, rfl⟩ := mem_ofNodes member
    exact (each node present).kind
  · intro wire member
    obtain ⟨node, present, rfl⟩ := mem_ofNodes member
    exact (each node present).named

theorem isNamed_of_no_children {kind : String} {depth : Option UInt32} {role value : Option String} :
    IsNamed ⟨kind, depth, role, none, value⟩ :=
  ⟨List.forall_mem_nil _, List.forall_mem_nil _⟩

section
variable {names : List String}

theorem isOneOf_text (allowed : "text" ∈ names) (value : String) : IsOneOf names (.text value) :=
  ⟨allowed, isNamed_of_no_children⟩

theorem isOneOf_composite {kind : Kind} {children : List Node} (allowed : kind.name ∈ names)
    (each : ∀ node ∈ children, IsOneOf (namesBelow kind.name) node) :
    IsOneOf names (.composite kind children) :=
  ⟨allowed, isNamed_of_children each⟩

theorem isOneOf_unknown {kind : UnknownKind} {children : List Node} (allowed : kind.name ∈ names)
    (each : ∀ node ∈ children, IsOneOf (namesBelow kind.name) node) :
    IsOneOf names (.unknown kind children) :=
  ⟨allowed, isNamed_of_children each⟩

end

theorem isOneOf_inline {node : Node} (inline : IsInline node) : IsOneOf inlineNames node := by
  have inner (value : String) : ∀ node ∈ [Node.text value], IsOneOf ["text"] node :=
    List.forall_mem_singleton.mpr (isOneOf_text List.mem_cons_self value)
  cases inline with
  | text filled => exact isOneOf_text (by decide) _
  | marked marked filled =>
    cases marked with
    | emphasis | strong | literal => exact isOneOf_composite (by decide) (inner _)
    | interpreted role =>
      exact ⟨show "interpreted_text" ∈ inlineNames by decide, isNamed_of_children (inner _)⟩
    | reference => exact isOneOf_unknown (by decide) (inner _)

theorem isOneOf_phrase {words : List Node} (phrase : IsPhrase words) :
    ∀ node ∈ words, IsOneOf inlineNames node :=
  fun node member => isOneOf_inline (phrase.inline node member)

theorem isOneOf_verse {node : Node} (verse : IsVerse node) : IsOneOf ["line", "line_block"] node := by
  induction verse with
  | line inline =>
    exact isOneOf_composite (by decide) fun node member => isOneOf_inline (inline node member)
  | block filled inner ih => exact isOneOf_composite (by decide) ih

theorem isOneOf_listItem {body : List Node} (inner : ∀ node ∈ body, IsOneOf bodyNames node) :
    IsOneOf ["list_item"] (listItem body) :=
  isOneOf_composite (by decide) inner

/-- A definition list item holds a term and a definition, in this order. -/
theorem isOneOf_definitionItem {item : List Node × List Node} (term : IsPhrase item.1)
    (inner : ∀ node ∈ item.2, IsOneOf bodyNames node) :
    IsOneOf ["definition_list_item"] (definitionItem item) := by
  refine isOneOf_unknown (by decide) (List.forall_mem_cons.mpr ⟨?_, List.forall_mem_singleton.mpr ?_⟩)
  · exact isOneOf_unknown (by decide) (isOneOf_phrase term)
  · exact isOneOf_unknown (by decide) inner

theorem isOneOf_body {node : Node} (body : IsBody node) : IsOneOf bodyNames node := by
  induction body with
  | transition => exact ⟨show "transition" ∈ bodyNames by decide, isNamed_of_no_children⟩
  | paragraph whole =>
    exact isOneOf_composite (by decide) fun node member => isOneOf_inline (whole.inline node member)
  | literalBlock text =>
    exact isOneOf_composite (by decide) (List.forall_mem_singleton.mpr (isOneOf_text (by decide) _))
  | list marker filled inner ih =>
    have items := List.forall_mem_map.mpr fun body member => isOneOf_listItem (ih body member)
    cases marker with
    | bullet => exact isOneOf_composite (show "bullet_list" ∈ bodyNames by decide) items
    | enumerator => exact isOneOf_composite (show "enumerated_list" ∈ bodyNames by decide) items
  | definitionList filled terms inner ih =>
    exact isOneOf_composite (by decide) (List.forall_mem_map.mpr fun item member =>
      isOneOf_definitionItem (terms item member) (ih item member))
  | lineBlock filled inner =>
    exact isOneOf_composite (by decide) fun node member => isOneOf_verse (inner node member)
  | blockQuote inner ih => exact isOneOf_composite (by decide) ih

theorem isOneOf_parts {bodies subsections : List Node} (inner : ∀ node ∈ bodies, IsBody node)
    (below : ∀ node ∈ subsections, IsOneOf ["section"] node) :
    ∀ node ∈ bodies ++ subsections, IsOneOf (bodyNames ++ ["section"]) node := by
  refine List.forall_mem_append.mpr ⟨fun node member => ?_, fun node member => ?_⟩
  · exact (isOneOf_body (inner node member)).mono (List.subset_append_left _ _)
  · exact (below node member).mono (List.subset_append_right _ _)

theorem isOneOf_section {node : Node} (sound : IsSection node) : IsOneOf ["section"] node := by
  induction sound with
  | @titled depth title bodies subsections deep phrase inner below ih =>
    have parts := isOneOf_parts inner ih
    have heading : IsNamed { kind := "title", children := some (Wire.ofNodes title) } :=
      isNamed_of_children (isOneOf_phrase phrase)
    refine ⟨List.mem_cons_self, .node (List.forall_mem_cons.mpr ⟨List.mem_cons_self, ?_⟩)
      (List.forall_mem_cons.mpr ⟨heading, ?_⟩)⟩
    · intro wire member
      obtain ⟨node, present, rfl⟩ := mem_ofNodes member
      exact List.mem_cons_of_mem "title" (parts node present).kind
    · intro wire member
      obtain ⟨node, present, rfl⟩ := mem_ofNodes member
      exact (parts node present).named

theorem isOneOf_document {node : Node} (sound : IsDocument node) : IsOneOf ["document"] node := by
  obtain ⟨inner, below⟩ := sound
  exact isOneOf_composite (by decide)
    (isOneOf_parts inner fun node member => isOneOf_section (below node member))

/-- The wire form of what is read from a source is a document, and below each type in it only the types
of the table stand. -/
theorem parse_isNamed (options : ReadOptions) (source : String) :
    ∃ tree, parse { options with strict := false } source = .ok tree ∧ IsOneOf ["document"] tree :=
  ⟨_, parse_of_lenient _ rfl source, isOneOf_document (isDocument_of_source options.tabWidth source)⟩

end RstPress.Grammar
