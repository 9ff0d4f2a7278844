import Mathlib.Tactic.MkIffOfInductiveProp
import RstPress.Proofs.Canonical

/-!
Which wire nodes are trees. The type of a node asks for some of its fields, and a wire node is a tree if
every node that is looked at has what its type asks for. If some do not, the complaint is about the
first of them in the order of the document, and about the first field that it lacks.
-/

namespace RstPress.Tree.TypeName

theorem name_injective {a b : TypeName} (same : a.name = b.name) : a = b := by
  rw [← ofName_name a, same, ofName_name]

@[simp] theorem name_eq_text {typeName : TypeName} : typeName.name = "text" ↔ typeName = .text :=
  ⟨fun same => name_injective (b := .text) same, fun same => same ▸ rfl⟩

@[simp] theorem name_eq_transition {typeName : TypeName} :
    typeName.name = "transition" ↔ typeName = .transition :=
  ⟨fun same => name_injective (b := .transition) same, fun same => same ▸ rfl⟩

@[simp] theorem name_eq_section {typeName : TypeName} : typeName.name = "section" ↔ typeName = .titled :=
  ⟨fun same => name_injective (b := .titled) same, fun same => same ▸ rfl⟩

/-- All names are built in but those of unknown nodes. -/
@[simp] theorem name_mem_builtinNames {typeName : TypeName} :
    typeName.name ∈ builtinNames ↔ ∀ kind, typeName ≠ .unknown kind := by
  cases typeName with
  | text | transition | titled | interpreted => exact iff_of_true (by decide) nofun
  | composite kind =>
    have member : kind.name ∈ Kind.all.map Kind.name := List.mem_map_of_mem (Kind.mem_all kind)
    exact iff_of_true (List.mem_append_left _ member) nofun
  | unknown kind => exact iff_of_false kind.isUnknown fun other => other kind rfl

end RstPress.Tree.TypeName

namespace RstPress.Wire
open RstPress.Tree

mutual

/-- The nodes that are looked at, from the first to the last: a node before those below it. Nothing is
looked at below a text or a transition, and of the first child of a section, which stands for its title,
nothing but the children. -/
def reached : Wire → List Wire
  | ⟨kind, depth, role, children, value⟩ =>
    ⟨kind, depth, role, children, value⟩ ::
      if kind = "text" ∨ kind = "transition" then []
      else if kind = "section" then reachedInParts children
      else reachedBelow children

/-- The nodes of the title of a section, then those of its body. -/
def reachedInParts : Option (List Wire) → List Wire
  | none | some [] => []
  | some (⟨_, _, _, title, _⟩ :: body) => reachedBelow title ++ reachedIn body

def reachedBelow : Option (List Wire) → List Wire
  | none => []
  | some wires => reachedIn wires

def reachedIn : List Wire → List Wire
  | [] => []
  | wire :: wires => wire.reached ++ reachedIn wires

end

/-- What the type of a node asks for. A transition needs nothing. -/
@[mk_iff]
structure Conforms (wire : Wire) : Prop where
  text : wire.kind = "text" → wire.value.isSome
  titled : wire.kind = "section" →
    wire.depth.isSome ∧ ∃ title body, wire.children = some (title :: body) ∧ title.children.isSome
  builtin : wire.kind ∈ builtinNames → wire.kind ≠ "text" → wire.kind ≠ "transition" → wire.children.isSome
  unknown : wire.kind ∉ builtinNames → wire.children.isSome ∨ wire.value.isSome

/-- The first child, which for a section stands for its title. -/
def first? (wire : Wire) : Option Wire := wire.children.bind List.head?

/-- The demands on a node in the order in which they are made, each with what is said if it is not met. -/
def demands (wire : Wire) : List (Bool × String) :=
  if wire.kind = "transition" then []
  else if wire.kind = "text" then [(wire.value.isSome, "\x60text\x60 node has no value")]
  else if wire.kind = "section" then
    (wire.depth.isSome, "\x60section\x60 node has no depth") ::
      (wire.children.isSome, "\x60section\x60 node has no children") ::
      (wire.first?.isSome, "\x60section\x60 node has no title") ::
      wire.first?.toList.map fun title =>
        (title.children.isSome, "\x60" ++ title.kind ++ "\x60 node has no children")
  else if wire.kind ∈ builtinNames then
    [(wire.children.isSome, "\x60" ++ wire.kind ++ "\x60 node has no children")]
  else
    [(wire.children.isSome || wire.value.isSome,
      "\x60" ++ wire.kind ++ "\x60 node has neither children nor value")]

/-- What can be said against a node itself. -/
def complaints (wire : Wire) : List String :=
  wire.demands.filterMap fun demand => if demand.1 then none else some demand.2

/-- A node has what its type asks for exactly if nothing can be said against it. -/
theorem conforms_iff_complaints {wire : Wire} : wire.Conforms ↔ wire.complaints = [] := by
  obtain ⟨kind, depth, role, children, value⟩ := wire
  obtain ⟨typeName, rfl⟩ := exists_typeName kind
  rw [conforms_iff, complaints, demands]
  cases typeName with
  | text => cases value <;> simp
  | transition => simp
  | titled =>
    rcases depth with _ | depth <;>
      rcases children with _ | _ | ⟨⟨_, _, _, _ | title, _⟩, body⟩ <;> simp [first?]
  | interpreted | composite => cases children <;> simp
  | unknown => cases children <;> cases value <;> simp

/-- What comes of reading something, and the complaints about it: it is read if there are none, and else
the first one is told. -/
def Settles {α : Type} (made : Except Violation α) (complaints : List String) : Prop :=
  match made with
  | .ok _ => complaints = []
  | .error violation => complaints.head? = some violation.message

theorem Settles.bind {α β : Type} {first : Except Violation α} {next : α → Except Violation β}
    {before after : List String} (here : Settles first before) (later : ∀ a, Settles (next a) after) :
    Settles (first >>= next) (before ++ after) := by
  cases first with
  | error violation =>
    change (before ++ after).head? = some violation.message
    rw [List.head?_append, show before.head? = some violation.message from here]
    rfl
  | ok a =>
    rw [show before = [] from here]
    exact later a

/-- What is made of the parts of a node does not matter. -/
theorem Settles.map {α β : Type} {made : Except Violation α} {complaints : List String}
    (here : Settles made complaints) (next : α → β) :
    Settles (made >>= fun a => pure (next a)) complaints :=
  List.append_nil complaints ▸ here.bind fun _ => rfl

mutual

/-- Own fields are looked at before the nodes below, so the complaints are met in their order. -/
theorem settles_toNode : (wire : Wire) → Settles wire.toNode (wire.reached.flatMap complaints)
  | ⟨kind, depth, role, children, value⟩ => by
    obtain ⟨typeName, rfl⟩ := exists_typeName kind
    rw [toNode.eq_def, reached, List.flatMap_cons, complaints, demands]
    simp only [TypeName.ofName_name]
    cases typeName with
    | text => cases value <;> simp [Settles, Violation.message]
    | transition => simp [Settles]
    | titled =>
      rcases depth with _ | depth
      · simp [Settles, Violation.message]
      rcases children with _ | _ | ⟨⟨_, _, _, _ | title, _⟩, body⟩
      · simp [Settles, Violation.message, TypeName.name]
      · simp [Settles, Violation.message, first?]
      · simp [Settles, Violation.message, first?]
      have parts := (settles_toNodes title).bind fun title =>
        (settles_toNodes body).map (Node.titled depth title)
      simpa [first?, reachedInParts, reachedBelow] using parts
    | interpreted =>
      cases children with
      | none => simp [Settles, Violation.message]
      | some children => simpa [reachedBelow] using (settles_toNodes children).map (Node.interpreted role)
    | composite kind =>
      cases children with
      | none => simp [Settles, Violation.message]
      | some children => simpa [reachedBelow] using (settles_toNodes children).map (Node.composite kind)
    | unknown kind =>
      rcases children with _ | children
      · have named : kind.name = (TypeName.unknown kind).name := rfl
        cases value <;> simp [Settles, Violation.message, reachedBelow, named]
      · simpa [reachedBelow] using (settles_toNodes children).map (Node.unknown kind)

theorem settles_toNodes : (wires : List Wire) → Settles (toNodes wires) ((reachedIn wires).flatMap complaints)
  | [] => rfl
  | wire :: wires => by
    rw [toNodes, reachedIn, List.flatMap_append]
    exact (settles_toNode wire).bind fun node => (settles_toNodes wires).map (node :: ·)

end

/-- A wire node makes a tree exactly if every node that is looked at has what its type asks for. If it
makes none, the error is about the first complaint, whichever others there are. -/
theorem toNode_names_first_complaint (wire : Wire) :
    ((∃ tree, wire.toNode = .ok tree) ↔ ∀ node ∈ wire.reached, node.Conforms) ∧
      ∀ text, (wire.reached.flatMap complaints).head? = some text ↔
        ∃ violation, wire.toNode.mapError Error.tree = .error (.tree violation) ∧
          (Error.tree violation).message = "Invalid document tree: " ++ text := by
  have settled := settles_toNode wire
  have none : (∀ node ∈ wire.reached, node.Conforms) ↔ wire.reached.flatMap complaints = [] := by
    simp only [conforms_iff_complaints, List.flatMap_eq_nil_iff]
  rw [none]
  cases made : wire.toNode with
  | ok tree =>
    rw [made] at settled
    rw [show wire.reached.flatMap complaints = [] from settled]
    exact ⟨iff_of_true ⟨tree, rfl⟩ rfl, fun text => iff_of_false nofun fun ⟨_, same, _⟩ => by cases same⟩
  | error violation =>
    rw [made] at settled
    have first : (wire.reached.flatMap complaints).head? = some violation.message := settled
    refine ⟨iff_of_false (fun ⟨_, same⟩ => by cases same) fun empty => ?_, fun text => ?_⟩
    · rw [empty] at first
      cases first
    · rw [first, Option.some.injEq]
      constructor
      · rintro rfl
        exact ⟨violation, rfl, rfl⟩
      · rintro ⟨_, ⟨⟩, same⟩
        exact String.append_right_inj _ |>.mp same

-- The first child of this section lacks a value, which nothing asks of a title, and what stands below the
-- transition is ignored: the two complaints are about its last children.
example :
    let bare (kind : String) : Wire := ⟨kind, none, none, none, none⟩
    let title : Wire := ⟨"text", none, none, some [], none⟩
    let rule : Wire := ⟨"transition", none, none, some [bare "text"], none⟩
    let body := [title, rule, bare "paragraph", bare "odd"]
    reached ⟨"section", some 1, none, some body, none⟩ |>.flatMap complaints =
      ["\x60paragraph\x60 node has no children", "\x60odd\x60 node has neither children nor value"] := by
  decide +kernel

end RstPress.Wire
