/-!
Every node of a document tree has a type name. Names with a meaning of their own are built in; all others
are kept as they are, so a tree made elsewhere can hold nodes this library knows nothing about.
-/

namespace RstPress.Tree

/-- The nodes that hold child nodes and nothing else. -/
inductive Kind where
  | document
  | paragraph
  | bulletList
  | enumeratedList
  | definitionList
  | listItem
  | line
  | lineBlock
  | literalBlock
  | blockQuote
  | emphasis
  | strong
  | literal
deriving DecidableEq, Repr

namespace Kind

def all : List Kind :=
  [document, paragraph, bulletList, enumeratedList, definitionList, listItem, line, lineBlock,
    literalBlock, blockQuote, emphasis, strong, literal]

def name : Kind → String
  | document => "document"
  | paragraph => "paragraph"
  | bulletList => "bullet_list"
  | enumeratedList => "enumerated_list"
  | definitionList => "definition_list"
  | listItem => "list_item"
  | line => "line"
  | lineBlock => "line_block"
  | literalBlock => "literal_block"
  | blockQuote => "block_quote"
  | emphasis => "emphasis"
  | strong => "strong"
  | literal => "literal"

def ofName? (name : String) : Option Kind := all.find? fun kind => kind.name = name

theorem mem_all (kind : Kind) : kind ∈ all := by cases kind <;> decide

theorem name_injective {a b : Kind} (same : a.name = b.name) : a = b := by
  revert same
  cases a <;> cases b <;> decide

@[simp] theorem ofName?_name (kind : Kind) : ofName? kind.name = some kind := by cases kind <;> decide

end Kind

/-- The type names with a meaning of their own. -/
def builtinNames : List String :=
  Kind.all.map Kind.name ++ ["section", "transition", "interpreted_text", "text"]

/-- A type name without a meaning of its own. -/
structure UnknownKind where
  name : String
  isUnknown : name ∉ builtinNames
deriving DecidableEq

def UnknownKind.ofName? (name : String) : Option UnknownKind :=
  if builtin : name ∈ builtinNames then none else some ⟨name, builtin⟩

@[simp] theorem UnknownKind.ofName?_name (kind : UnknownKind) :
    UnknownKind.ofName? kind.name = some kind := by
  simp [UnknownKind.ofName?, kind.isUnknown]

/-- The type names, sorted by what they mean. -/
inductive TypeName where
  | text
  | transition
  | titled
  | interpreted
  | composite (kind : Kind)
  | unknown (kind : UnknownKind)
deriving DecidableEq

namespace TypeName

def name : TypeName → String
  | text => "text"
  | transition => "transition"
  | titled => "section"
  | interpreted => "interpreted_text"
  | composite kind => kind.name
  | unknown kind => kind.name

/-- The names that are built in but do not name a kind. -/
def others : List TypeName := [text, transition, titled, interpreted]

theorem unknown_of_none {name : String} (noKind : Kind.ofName? name = none)
    (noOther : (others.find? fun other => other.name = name) = none) : name ∉ builtinNames := by
  have foreign (kind : Kind) : kind.name ≠ name := by
    simpa using List.find?_eq_none.mp noKind kind (Kind.mem_all kind)
  have other (typeName : TypeName) (member : typeName ∈ others) : typeName.name ≠ name := by
    simpa using List.find?_eq_none.mp noOther typeName member
  intro builtin
  rcases List.mem_append.mp builtin with kinds | rest
  · obtain ⟨kind, _, same⟩ := List.mem_map.mp kinds
    exact foreign kind same
  · obtain ⟨typeName, member, same⟩ := List.mem_map.mp (show name ∈ others.map TypeName.name by
      simpa [others, TypeName.name, or_assoc, or_comm, or_left_comm] using rest)
    exact other typeName member same

/-- What a name means. Every string is the name of something. -/
def ofName (name : String) : TypeName :=
  match noKind : Kind.ofName? name with
  | some kind => composite kind
  | none =>
    match noOther : others.find? fun other => other.name = name with
    | some other => other
    | none => unknown ⟨name, unknown_of_none noKind noOther⟩

@[simp] theorem name_ofName (name : String) : (ofName name).name = name := by
  unfold ofName
  split
  · rename_i kind found
    have named := List.find?_some found
    simpa [TypeName.name] using named
  · split
    · rename_i other found
      have named := List.find?_some found
      simpa using named
    · rfl

theorem ofName_composite (kind : Kind) : ofName kind.name = composite kind := by cases kind <;> decide

@[simp] theorem ofName_name (typeName : TypeName) : ofName typeName.name = typeName := by
  cases typeName with
  | text | transition | titled | interpreted => decide
  | composite kind => exact ofName_composite kind
  | unknown kind =>
    have named := name_ofName kind.name
    change ofName kind.name = unknown kind
    cases same : ofName kind.name with
    | unknown other =>
      rw [same] at named
      cases kind
      cases other
      simp only [TypeName.name] at named
      simp [named]
    | composite other =>
      rw [same] at named
      exact absurd (named ▸ List.mem_append_left _ (List.mem_map_of_mem (Kind.mem_all other))) kind.isUnknown
    | _ =>
      rw [same] at named
      exact absurd (named ▸ by decide) kind.isUnknown

end TypeName

end RstPress.Tree
