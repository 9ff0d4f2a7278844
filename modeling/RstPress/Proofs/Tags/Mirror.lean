import RstPress.Proofs.Tags.Reading
import RstPress.Wire.Node

/-!
The markup of a tree mirrors its wire form. Each wire node is one element, with the tag and the class of
its type, and the elements are nested as the wire nodes are. Outside of the tags stands the text of the
tree, with other spaces and line feeds.
-/

namespace RstPress.Html
open Text RstPress.Tree

/-- The element of a type name. -/
def elementNamed (role : Option String) : TypeName → Element
  | .text => ⟨.inline, "span", "rst-text"⟩
  | .transition => fallback "transition"
  | .titled => ⟨.block, "div", "rst-section"⟩
  | .interpreted => ⟨.inline, "span", interpretedClass role⟩
  | .composite kind => elementOf kind
  | .unknown kind => fallback kind.name

def Element.shape (element : Element) (inner : List Shape) : Shape :=
  .element element.tag.toList element.className.toList inner

/-- The depth of the section to which a title belongs, for the first child of this node. -/
def titleDepth? (typeName : TypeName) (depth : Option UInt32) : Option UInt32 :=
  if typeName = .titled then depth else none

mutual

/-- One element for each wire node. For the title of a section the depth of the section is given; it is
a heading, whatever its type. -/
def mirror (title : Option UInt32) : Wire → Shape
  | ⟨name, depth, role, children, _⟩ =>
    ((title.map titleElement).getD (elementNamed role (.ofName name))).shape
      (match children with
      | none => []
      | some children => mirrorAll (titleDepth? (.ofName name) depth) children)

/-- The elements of wire nodes. The first of them is a title if a depth is given. -/
def mirrorAll (title : Option UInt32) : List Wire → List Shape
  | [] => []
  | wire :: wires => mirror title wire :: mirrorAll none wires

end

/-- The tag and the class of a type, by its name. Types that are not listed are known by their class. -/
def tagNamed (role : Option String) : String → String × String
  | "document" => ("div", "rst-document")
  | "section" => ("div", "rst-section")
  | "paragraph" => ("p", "rst-paragraph")
  | "bullet_list" => ("ul", "rst-bullet-list")
  | "enumerated_list" => ("ol", "rst-enumerated-list")
  | "list_item" => ("li", "rst-list-item")
  | "line_block" => ("div", "rst-line-block")
  | "line" => ("div", "rst-line")
  | "literal_block" => ("pre", "rst-literal-block")
  | "block_quote" => ("blockquote", "rst-block-quote")
  | "text" => ("span", "rst-text")
  | "emphasis" => ("em", "rst-emphasis")
  | "strong" => ("strong", "rst-strong")
  | "literal" => ("tt", "rst-literal")
  | "interpreted_text" =>
    ("span", match role with
      | none => "rst-interpreted_text"
      | some role => "rst-interpreted_text rst-role-" ++ role)
  | name => ("div", "rst-unknown rst-" ++ name)

/-- The same with the title of a section, which is a heading of its depth. -/
def tagOf (role : Option String) (name : String) : Option UInt32 → String × String
  | none => tagNamed role name
  | some depth => ("h" ++ depth.toNat.repr, "rst-title-" ++ depth.toNat.repr)

def Element.tagAndClass (element : Element) : String × String := (element.tag, element.className)

theorem tagAndClass_elementNamed (role : Option String) (name : String) :
    (elementNamed role (.ofName name)).tagAndClass = tagNamed role name := by
  obtain ⟨typeName, rfl⟩ : ∃ typeName : TypeName, name = typeName.name :=
    ⟨.ofName name, (TypeName.name_ofName name).symm⟩
  rw [TypeName.ofName_name]
  cases typeName with
  | text | transition | titled => rfl
  | interpreted => cases role <;> rfl
  | composite kind => cases kind <;> rfl
  | unknown kind =>
    obtain ⟨name, foreign⟩ := kind
    simp only [TypeName.name]
    unfold tagNamed
    split
    case h_16 => rfl
    all_goals exact absurd (by decide) foreign

theorem titleDepth?_ofName (name : String) (depth : Option UInt32) :
    titleDepth? (.ofName name) depth = if name = "section" then depth else none := by
  have same : TypeName.ofName name = .titled ↔ name = "section" := by
    constructor
    · intro titled
      rw [← TypeName.name_ofName name, titled]
      rfl
    · rintro rfl
      decide
  rw [titleDepth?]
  simp only [same]

/-- The mirror of a wire node, written out: its tag and its class, and its children inside, the first of
which is a title below a section. -/
theorem mirror_eq (title : Option UInt32) (wire : Wire) :
    mirror title wire =
      .element (tagOf wire.role wire.kind title).1.toList (tagOf wire.role wire.kind title).2.toList
        (mirrorAll (if wire.kind = "section" then wire.depth else none) (wire.children.getD [])) := by
  obtain ⟨name, depth, role, children, value⟩ := wire
  have same : tagOf role name title =
      ((title.map titleElement).getD (elementNamed role (.ofName name))).tagAndClass := by
    cases title with
    | none => exact (tagAndClass_elementNamed role name).symm
    | some depth => rfl
  cases children <;> simp only [mirror, titleDepth?_ofName, same] <;> rfl

/-- The names that a node brings into the class of its element. -/
def labels : Node → List String
  | .interpreted (some role) _ => [role]
  | .unknown kind _ | .unknownLeaf kind _ => [kind.name]
  | .interpreted none _ | .text _ | .transition | .titled .. | .composite .. => []

/-- A node whose text begins no tag, and whose names end none. -/
structure IsSafe (node : Node) : Prop where
  value : ∀ value, node.value? = some value → '<' ∉ value.toList
  labels : ∀ label ∈ labels node, ∀ c ∈ label.toList, c ≠ '<' ∧ c ≠ '>' ∧ c ≠ '"'

theorem all_isClassChar {label : String} (safe : ∀ c ∈ label.toList, c ≠ '<' ∧ c ≠ '>' ∧ c ≠ '"') :
    label.toList.all isClassChar := by
  simpa [isClassChar, and_assoc] using safe

theorem all_isClassChar_append {front back : String} (first : front.toList.all isClassChar)
    (second : back.toList.all isClassChar) : (front ++ back).toList.all isClassChar := by
  rw [String.toList_append, List.all_append, first, second, Bool.and_self]

theorem fits_fallback {name : String} (safe : name.toList.all isClassChar) :
    Fits (fallback name).tag (fallback name).className :=
  ⟨show "div".toList.all Char.isAlphanum by decide, all_isClassChar_append (by decide) safe⟩

theorem fits_interpreted {role : Option String} (safe : ∀ name ∈ role, name.toList.all isClassChar) :
    Fits "span" (interpretedClass role) := by
  cases role with
  | none => exact ⟨by decide, by decide⟩
  | some name => exact ⟨by decide, all_isClassChar_append (by decide) (safe name rfl)⟩

theorem fits_elementOf (kind : Kind) : Fits (elementOf kind).tag (elementOf kind).className := by
  cases kind <;> exact ⟨by decide, by decide⟩

theorem isClassChar_of_isAlphanum {c : Char} (letter : c.isAlphanum) : isClassChar c := by
  have other (mark : Char) (plain : mark.isAlphanum = false) : c ≠ mark := by
    rintro rfl
    rw [letter] at plain
    cases plain
  simp [isClassChar, other '<' (by decide), other '>' (by decide), other '"' (by decide)]

theorem fits_titleElement (depth : UInt32) :
    Fits (titleElement depth).tag (titleElement depth).className := by
  have digits : ∀ c ∈ depth.toNat.repr.toList, c.isAlphanum := fun c member => by
    rw [Nat.toList_repr] at member
    have digit := Nat.isDigit_of_mem_toDigits (by decide) (by decide) member
    rw [Char.isAlphanum, digit, Bool.or_true]
  refine ⟨?_, all_isClassChar_append (by decide) ?_⟩
  · rw [titleElement, String.toList_append, List.all_append, List.all_eq_true.mpr digits]
    decide
  · exact List.all_eq_true.mpr fun c member => isClassChar_of_isAlphanum (digits c member)

/-- A node that is no section mirrors as its own element around those of its children. -/
theorem mirror_of_children (typeName : TypeName) (untitled : typeName ≠ .titled) (depth : Option UInt32)
    (role : Option String) (children : List Wire) (value : Option String) :
    mirror none ⟨typeName.name, depth, role, some children, value⟩ =
      (elementNamed role typeName).shape (mirrorAll none children) := by
  simp only [mirror, TypeName.ofName_name, titleDepth?, if_neg untitled, Option.map_none,
    Option.getD_none]

theorem mirror_of_leaf (typeName : TypeName) (depth : Option UInt32) (role value : Option String) :
    mirror none ⟨typeName.name, depth, role, none, value⟩ = (elementNamed role typeName).shape [] := by
  simp only [mirror, TypeName.ofName_name, Option.map_none, Option.getD_none]

theorem mirror_titled (depth : UInt32) (title body : List Node) :
    mirror none (.ofNode (.titled depth title body)) =
      (elementNamed none .titled).shape
        ((titleElement depth).shape (mirrorAll none (Wire.ofNodes title)) ::
          mirrorAll none (Wire.ofNodes body)) := by
  have named : TypeName.ofName "section" = .titled := TypeName.ofName_name .titled
  have heading : TypeName.ofName "title" ≠ .titled := by decide
  simp only [Wire.ofNode, mirror, mirrorAll, named, titleDepth?, if_true, if_neg heading,
    Option.map_none, Option.map_some, Option.getD_none, Option.getD_some]

theorem dropLineFeed_cases (value : String) :
    dropLineFeed value = value ∨ value.toList = (dropLineFeed value).toList ++ ['\n'] := by
  unfold dropLineFeed
  split
  · exact .inl rfl
  · rename_i last front reversed
    split
    · rename_i feed
      right
      rw [String.toList_ofList, ← List.reverse_cons, ← feed, ← reversed, List.reverse_reverse]
    · exact .inl rfl

/-- A text shows itself, but for a line feed at its end. -/
theorem shows_leaf {tag className value : String} (fits : Fits tag className)
    (plain : '<' ∉ value.toList) :
    Shows (leaf tag className value) [.element tag.toList className.toList []] value := by
  have inside : Shows (dropLineFeed value) [] value := by
    rcases dropLineFeed_cases value with same | ends
    · rw [same]
      exact shows_of_squeeze plain rfl
    · refine shows_of_squeeze (fun member => plain ?_) ?_
      · rw [ends]
        exact List.mem_append_left _ member
      · conv => rhs; rw [ends, squeeze_append]
        exact (List.append_nil _).symm
  exact inside.element fits

/-- A section around its heading and its body. -/
theorem shows_section {heading body first second : String} {left right : List Shape}
    (title : Shows heading left first) (rest : Shows body right second) (width level : Nat) :
    Shows (indentation width level ++ openTag "div" "rst-section" ++ "\n" ++ heading ++ body ++
        indentation width level ++ closeTag "div" ++ "\n")
      [(elementNamed none .titled).shape (left ++ right)] (first ++ second) := by
  have fits : Fits "div" "rst-section" := ⟨by decide, by decide⟩
  have feed : ∀ c ∈ "\n".toList, c = ' ' ∨ c = '\n' := by simp
  have margin := blank_indentation width level
  have inside := (title.append rest).pad _ _ feed margin
  have whole := (inside.element fits).pad _ _ margin feed
  rw [Element.shape, elementNamed]
  simpa only [String.append_assoc] using whole

mutual

theorem shows_render (width level : Nat) : (node : Node) → (∀ inner ∈ node.preorder, IsSafe inner) →
    Shows (render width level node) [mirror none (.ofNode node)] node.plainText
  | .text value, safe => by
    have plain := (safe _ List.mem_cons_self).value value rfl
    have same : mirror none (.ofNode (.text value)) = (elementNamed none .text).shape [] :=
      mirror_of_leaf .text none none (some value)
    rw [same]
    exact shows_leaf ⟨by decide, by decide⟩ plain
  | .transition, _ => by
    have same : mirror none (.ofNode .transition) = (elementNamed none .transition).shape [] :=
      mirror_of_leaf .transition none none none
    rw [same]
    exact shows_leaf (fits_fallback (by decide)) (by decide)
  | .unknownLeaf kind value, safe => by
    have here := safe _ List.mem_cons_self
    have fits := fits_fallback (all_isClassChar (here.labels _ List.mem_cons_self))
    have same : mirror none (.ofNode (.unknownLeaf kind value)) = (fallback kind.name).shape [] :=
      mirror_of_leaf (.unknown kind) none none (some value)
    rw [same]
    exact shows_leaf fits (here.value value rfl)
  | .titled depth title body, safe => by
    obtain ⟨inTitle, inBody⟩ := List.forall_mem_append.mp (List.forall_mem_cons.mp safe).2
    have heading := (shows_renderAll width (level + 2) title inTitle).wrap
      (fits_titleElement depth) width (level + 1)
    rw [mirror_titled]
    exact shows_section heading (shows_renderSeparated width (level + 1) body inBody) width level
  | .interpreted role children, safe => by
    obtain ⟨here, below⟩ := List.forall_mem_cons.mp safe
    have inner := shows_renderAll width (level + 1) children below
    have same : mirror none (.ofNode (.interpreted role children)) =
        (elementNamed role .interpreted).shape (mirrorAll none (Wire.ofNodes children)) :=
      mirror_of_children .interpreted nofun none role _ none
    have name : ∀ name ∈ role, name.toList.all isClassChar := by
      rintro name rfl
      exact all_isClassChar (here.labels name List.mem_cons_self)
    rw [same]
    exact inner.element (fits_interpreted name)
  | .composite kind children, safe => by
    have inner := shows_renderAll width (level + 1) children (List.forall_mem_cons.mp safe).2
    have same : mirror none (.ofNode (.composite kind children)) =
        (elementOf kind).shape (mirrorAll none (Wire.ofNodes children)) :=
      mirror_of_children (.composite kind) nofun none none _ none
    rw [same]
    exact inner.wrap (fits_elementOf kind) width level
  | .unknown kind children, safe => by
    obtain ⟨here, below⟩ := List.forall_mem_cons.mp safe
    have inner := shows_renderAll width (level + 1) children below
    have same : mirror none (.ofNode (.unknown kind children)) =
        (fallback kind.name).shape (mirrorAll none (Wire.ofNodes children)) :=
      mirror_of_children (.unknown kind) nofun none none _ none
    rw [same]
    exact inner.wrap (fits_fallback (all_isClassChar (here.labels _ List.mem_cons_self))) width level

theorem shows_renderAll (width level : Nat) : (nodes : List Node) →
    (∀ inner ∈ Node.preorders nodes, IsSafe inner) →
    Shows (renderAll width level nodes) (mirrorAll none (Wire.ofNodes nodes)) (Node.plainTexts nodes)
  | [], _ => shows_of_squeeze List.not_mem_nil rfl
  | node :: nodes, safe => by
    obtain ⟨here, later⟩ := List.forall_mem_append.mp safe
    exact (shows_render width level node here).append (shows_renderAll width level nodes later)

/-- A line feed between nodes does not show. -/
theorem shows_renderSeparated (width level : Nat) : (nodes : List Node) →
    (∀ inner ∈ Node.preorders nodes, IsSafe inner) →
    Shows (renderSeparated width level nodes) (mirrorAll none (Wire.ofNodes nodes))
      (Node.plainTexts nodes)
  | [], _ => shows_of_squeeze List.not_mem_nil rfl
  | node :: nodes, safe => by
    obtain ⟨here, later⟩ := List.forall_mem_append.mp safe
    have first : Shows (render width level node ++ (if nodes.isEmpty then "" else "\n"))
        [mirror none (.ofNode node)] node.plainText := by
      have feed : ∀ c ∈ (if nodes.isEmpty then "" else "\n").toList, c = ' ' ∨ c = '\n' := by
        split <;> simp
      have padded := (shows_render width level node here).pad "" _ (by simp) feed
      rwa [String.empty_append] at padded
    exact first.append (shows_renderSeparated width level nodes later)

end

end RstPress.Html
