import Mathlib.Data.List.TakeWhile
import RstPress.Proofs.Nesting.Titles

/-!
How sections nest. The elements up to the next title of the same or a lesser depth go into a section,
so what follows a section begins with such a title: no body node comes after a section, and no section
is deeper than the one in front of it. All titles inside are deeper than the section itself.
-/

namespace RstPress.Document
open Layout Source RstPress.Tree

/-- The depths of the sections among the nodes; sections below them are not searched. -/
def depths (nodes : List Node) : List UInt32 :=
  nodes.filterMap fun node => (titled? node).map Prod.fst

/-- Body nodes come first, then sections that become no deeper from left to right. -/
structure InOrder (nodes : List Node) : Prop where
  bodiesFirst : ∃ bodies subsections, nodes = bodies ++ subsections ∧
    (∀ node ∈ bodies, titled? node = none) ∧ ∀ node ∈ subsections, (titled? node).isSome
  descending : (depths nodes).Pairwise (· ≥ ·)

theorem depths_cons_body {node : Node} (body : titled? node = none) (nodes : List Node) :
    depths (node :: nodes) = depths nodes :=
  List.filterMap_cons_none (by rw [body]; rfl)

/-- What follows a section begins with a title that is not below it. -/
theorem isBelow_of_head_dropWhile {depth : UInt32} {elements : List Element} {first : Element}
    (begins : (elements.dropWhile (Element.isBelow depth)).head? = some first) :
    first.isBelow depth = false := by
  have stopped := List.head?_dropWhile_not (Element.isBelow depth) elements
  rwa [begins] at stopped

/-- Behind a title that is not below a depth there are only sections, and none is deeper. -/
theorem sections_of_head {elements : List Element} {limit : UInt32}
    (begins : ∀ first, elements.head? = some first → first.isBelow limit = false) :
    ∀ node ∈ sections elements, ∃ depth title body, node = .titled depth title body ∧ depth ≤ limit := by
  fun_induction sections elements generalizing limit with
  | case1 => exact fun node member => (List.not_mem_nil member).elim
  | case2 node elements ih => cases begins _ rfl
  | case3 depth content elements inside after =>
    have top : depth ≤ limit := by simpa [Element.isBelow] using begins _ rfl
    intro node member
    rcases List.mem_cons.mp member with rfl | later
    · exact ⟨depth, content, _, rfl, top⟩
    · obtain ⟨other, title, body, same, lower⟩ :=
        after (fun first => isBelow_of_head_dropWhile) node later
      exact ⟨other, title, body, same, UInt32.le_trans lower top⟩

theorem exists_of_mem_depths {depth : UInt32} {nodes : List Node} (member : depth ∈ depths nodes) :
    ∃ title body, .titled depth title body ∈ nodes := by
  obtain ⟨node, present, shown⟩ := List.mem_filterMap.mp member
  cases node with
  | titled other title body =>
    cases shown
    exact ⟨title, body, present⟩
  | text | transition | interpreted | composite | unknown | unknownLeaf => cases shown

theorem mem_preorder (node : Node) : node ∈ node.preorder := by
  cases node <;> exact List.mem_cons_self

theorem mem_preorders {node : Node} {nodes : List Node} (member : node ∈ nodes) :
    node ∈ Node.preorders nodes := by
  induction nodes with
  | nil => cases member
  | cons first others ih =>
    rw [Node.preorders]
    rcases List.mem_cons.mp member with rfl | later
    · exact List.mem_append_left _ (mem_preorder _)
    · exact List.mem_append_right _ (ih later)

/-- The sections that are not inside another one have titles among the elements. -/
theorem exists_title_of_mem_depths {elements : List Element} (untitled : Untitled elements)
    {depth : UInt32} (member : depth ∈ depths (sections elements)) :
    ∃ content, .title depth content ∈ elements := by
  obtain ⟨title, body, present⟩ := exists_of_mem_depths member
  have shown : (depth, title) ∈ titlesIn (sections elements) := mem_titlesIn (mem_preorders present)
  rw [titlesIn_sections untitled] at shown
  obtain ⟨element, within, same⟩ := List.mem_filterMap.mp shown
  cases element with
  | body => cases same
  | title =>
    cases same
    exact ⟨title, within⟩

theorem inOrder_sections {elements : List Element} (untitled : Untitled elements) :
    InOrder (sections elements) := by
  fun_induction sections elements with
  | case1 => exact ⟨⟨[], [], rfl, List.forall_mem_nil _, List.forall_mem_nil _⟩, .nil⟩
  | case2 node elements ih =>
    have here : titled? node = none := titled?_of_titlesOf (untitled _ List.mem_cons_self)
    obtain ⟨⟨bodies, subsections, same, plain, titled⟩, descending⟩ := ih untitled.tail
    refine ⟨⟨node :: bodies, subsections, by rw [same]; rfl, fun other member => ?_, titled⟩, ?_⟩
    · rcases List.mem_cons.mp member with rfl | later
      · exact here
      · exact plain other later
    · rw [depths_cons_body here]
      exact descending
  | case3 depth content elements inside after =>
    have behind : ∀ node ∈ sections (elements.dropWhile (Element.isBelow depth)),
        ∃ other title body, node = .titled other title body ∧ other ≤ depth :=
      sections_of_head fun first => isBelow_of_head_dropWhile
    have later := after (untitled.tail.sublist (List.dropWhile_sublist _))
    refine ⟨⟨[], _, rfl, List.forall_mem_nil _, fun node member => ?_⟩,
      .cons (fun other member => ?_) later.descending⟩
    · rcases List.mem_cons.mp member with rfl | follows
      · rfl
      · obtain ⟨other, title, body, rfl, _⟩ := behind node follows
        rfl
    · obtain ⟨title, body, present⟩ := exists_of_mem_depths member
      obtain ⟨_, _, _, same, lower⟩ := behind _ present
      cases same
      exact lower

/-- The elements that go into a section are below it, and so are the sections that they make. -/
theorem lt_of_mem_depths_inside {elements : List Element} (untitled : Untitled elements)
    {depth inner : UInt32}
    (member : inner ∈ depths (sections (elements.takeWhile (Element.isBelow depth)))) :
    depth < inner := by
  obtain ⟨content, within⟩ :=
    exists_title_of_mem_depths (untitled.sublist (List.takeWhile_sublist _)) member
  simpa [Element.isBelow] using List.mem_takeWhile_imp within

/-- What holds of the body of each section, wherever it stands. -/
theorem body_of_mem_sections {elements : List Element} (untitled : Untitled elements)
    {depth : UInt32} {title body : List Node}
    (member : .titled depth title body ∈ Node.preorders (sections elements)) :
    InOrder body ∧ ∀ inner ∈ depths body, depth < inner := by
  fun_induction sections elements with
  | case1 => cases member
  | case2 node elements ih =>
    have here : titlesOf node = [] := untitled _ List.mem_cons_self
    rcases List.mem_append.mp member with first | later
    · have shown := mem_titlesOf first
      rw [here] at shown
      cases shown
    · exact ih untitled.tail later
  | case3 top content elements inside after =>
    have here : titlesIn content = [] := untitled _ List.mem_cons_self
    have within := untitled.tail.sublist (List.takeWhile_sublist (Element.isBelow top))
    rcases List.mem_append.mp member with first | later
    · rcases List.mem_cons.mp first with same | below
      · cases same
        exact ⟨inOrder_sections within, fun inner => lt_of_mem_depths_inside untitled.tail⟩
      · rcases List.mem_append.mp below with inTitle | inBody
        · have shown := mem_titlesIn inTitle
          rw [here] at shown
          cases shown
        · exact inside within inBody
    · exact after (untitled.tail.sublist (List.dropWhile_sublist _)) later

/-- Nesting loses nothing, and it is ordered. The sections of a document flatten to its elements. In
the document and in every section of the tree the body nodes come before the sections, and these
become no deeper from left to right; the sections in a section are deeper than it. -/
theorem parse_nests (options : ReadOptions) (source : String) :
    ∃ children,
      parse { options with strict := false } source = .ok (.composite .document children) ∧
      flattenAll children =
        (readElements options.tabWidth source : Reading (List Element)).value ∧
      InOrder children ∧
      ∀ depth title body,
        .titled depth title body ∈ (Node.composite .document children).preorder →
          InOrder body ∧ ∀ inner ∈ depths body, depth < inner := by
  have untitled := untitled_elementsOf [] 0 (outline (lines options.tabWidth source.toList))
  refine ⟨_, parse_of_lenient _ rfl source, flattenAll_sections_elementsOf [] 0 _,
    inOrder_sections untitled, fun depth title body member => ?_⟩
  rcases List.mem_cons.mp member with root | below
  · cases root
  · exact body_of_mem_sections untitled below

end RstPress.Document
