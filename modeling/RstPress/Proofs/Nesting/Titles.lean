import RstPress.Proofs.Sections

/-!
The section titles of a tree, wherever in it the sections stand. Inline nodes and blocks have none:
titles in nested bodies are read as something else. So the titles of a document are those of its
elements, and nesting the elements keeps their order.
-/

namespace RstPress.Document
open Layout RstPress.Tree

/-- The depth and the title of a section. -/
def titled? : Node → Option (UInt32 × List Node)
  | .titled depth title _ => some (depth, title)
  | _ => none

def titlesOf (node : Node) : List (UInt32 × List Node) := node.preorder.filterMap titled?

/-- Depth and title of every section among the nodes and below them, in preorder. -/
def titlesIn (nodes : List Node) : List (UInt32 × List Node) :=
  (Node.preorders nodes).filterMap titled?

@[simp] theorem titlesIn_nil : titlesIn [] = [] := rfl

@[simp] theorem titlesIn_cons (node : Node) (nodes : List Node) :
    titlesIn (node :: nodes) = titlesOf node ++ titlesIn nodes := List.filterMap_append

@[simp] theorem titlesIn_append (front back : List Node) :
    titlesIn (front ++ back) = titlesIn front ++ titlesIn back := by
  induction front with
  | nil => rfl
  | cons node front ih => rw [List.cons_append, titlesIn_cons, titlesIn_cons, ih, List.append_assoc]

@[simp] theorem titlesOf_composite (kind : Kind) (children : List Node) :
    titlesOf (.composite kind children) = titlesIn children := rfl

@[simp] theorem titlesOf_unknown (kind : UnknownKind) (children : List Node) :
    titlesOf (.unknown kind children) = titlesIn children := rfl

@[simp] theorem titlesOf_titled (depth : UInt32) (title body : List Node) :
    titlesOf (.titled depth title body) = (depth, title) :: (titlesIn title ++ titlesIn body) :=
  congrArg ((depth, title) :: ·) List.filterMap_append

/-- A node without titles below it is no section. -/
theorem titled?_of_titlesOf {node : Node} (untitled : titlesOf node = []) : titled? node = none := by
  cases node with
  | titled => cases untitled
  | text | transition | interpreted | composite | unknown | unknownLeaf => rfl

theorem titlesOf_of_mem {node : Node} {nodes : List Node} (untitled : titlesIn nodes = [])
    (member : node ∈ nodes) : titlesOf node = [] := by
  induction nodes with
  | nil => cases member
  | cons first others ih =>
    rw [titlesIn_cons, List.append_eq_nil_iff] at untitled
    rcases List.mem_cons.mp member with rfl | later
    · exact untitled.1
    · exact ih untitled.2 later

/-- A section is found by its title. -/
theorem mem_titlesOf {depth : UInt32} {title body : List Node} {node : Node}
    (member : .titled depth title body ∈ node.preorder) : (depth, title) ∈ titlesOf node :=
  List.mem_filterMap.mpr ⟨_, member, rfl⟩

theorem mem_titlesIn {depth : UInt32} {title body nodes : List Node}
    (member : .titled depth title body ∈ Node.preorders nodes) : (depth, title) ∈ titlesIn nodes :=
  List.mem_filterMap.mpr ⟨_, member, rfl⟩

end RstPress.Document

namespace RstPress.Inline
open RstPress.Tree Document

theorem titlesOf_span {markup : Markup} {content rest after : List Char} {node : Node} {last : Char}
    (found : markup.span content rest = .span node last after) : titlesOf node = [] := by
  unfold Markup.span at found
  split at found
  case h_4 =>
    split at found
    all_goals
      cases found
      rfl
  all_goals
    cases found
    rfl

theorem titlesOf_trySpan {before : Option Char} {text rest : List Char} {node : Node} {last : Char}
    (found : trySpan before text = .span node last rest) : titlesOf node = [] := by
  rcases trySpan_cases found with ⟨name, content, inner, _, _, rfl, _⟩ | ⟨_, _, _, _, _, _, found⟩
  · rfl
  · exact titlesOf_span found

theorem titlesOf_of_mem_tokens {before : Option Char} {text : List Char} {node : Node}
    (member : .node node ∈ tokens before text) : titlesOf node = [] := by
  fun_induction tokens before text with
  | case1 => cases member
  | case2 => simp at member
  | case3 before text ih => exact ih member
  | case4 => simp at member
  | case5 before d text noSpace notLast ih =>
    rcases List.mem_cons.mp member with same | later
    · cases same
    · exact ih later
  | case6 before c text plain found ih =>
    rcases List.mem_cons.mp member with same | later
    · cases same
    · exact ih later
  | case7 before c text plain markup found ih =>
    rcases List.mem_cons.mp member with same | later
    · cases same
    · rcases List.mem_cons.mp later with same | rest
      · cases same
      · exact ih rest
  | case8 before c text plain shown last rest found ih =>
    rcases List.mem_cons.mp member with same | later
    · cases same
      exact titlesOf_trySpan found
    · exact ih later

theorem titlesIn_runNode (run : List Char) : titlesIn (runNode run) = [] := by
  unfold runNode
  split <;> rfl

theorem titlesIn_gather {found : List Token} (untitled : ∀ node, .node node ∈ found → titlesOf node = [])
    (run : List Char) : titlesIn (gather run found) = [] := by
  induction found generalizing run with
  | nil => exact titlesIn_runNode run
  | cons token found ih =>
    have rest := ih fun node member => untitled node (List.mem_cons_of_mem token member)
    cases token with
    | char | unclosed => exact rest _
    | node node =>
      rw [gather, titlesIn_append, titlesIn_runNode, titlesIn_cons, untitled node List.mem_cons_self,
        rest]
      rfl

theorem titlesIn_nodes (text : List Char) : titlesIn (nodes text) = [] :=
  titlesIn_gather (fun _ member => titlesOf_of_mem_tokens member) []

theorem titlesIn_map_textNode (texts : List (List Char)) : titlesIn (texts.map textNode) = [] := by
  induction texts with
  | nil => rfl
  | cons text texts ih =>
    rw [List.map_cons, titlesIn_cons, ih]
    rfl

theorem titlesIn_cutTexts (nodes : List Node) : titlesIn (cutTexts nodes) = titlesIn nodes := by
  induction nodes with
  | nil => rfl
  | cons node nodes ih =>
    rw [cutTexts] at ih ⊢
    rw [List.flatMap_cons, titlesIn_append, titlesIn_cons, ih]
    cases node with
    | text value => exact congrArg (· ++ titlesIn nodes) (titlesIn_map_textNode _)
    | transition | titled | interpreted | composite | unknown | unknownLeaf =>
      rw [titlesIn_cons, titlesIn_nil, List.append_nil]

end RstPress.Inline

namespace RstPress.Document
open Layout RstPress.Tree Inline

theorem titlesIn_readText (line : Nat) (text : List Char) :
    titlesIn (readText line text : Reading (List Node)).value = [] := by
  simp only [readText, Reading.value_bind, Reading.value_pure]
  exact titlesIn_nodes text

mutual

theorem titlesOf_readVerse : (verse : Verse) → titlesOf (readVerse verse : Reading Node).value = []
  | .line entry => by
    simp only [readVerse, Reading.value_bind, Reading.value_pure, titlesOf_composite,
      titlesIn_readText]
  | .block lines => by
    simp only [readVerse, Reading.value_bind, Reading.value_pure, titlesOf_composite,
      titlesIn_readVerses lines]

theorem titlesIn_readVerses :
    (verses : List Verse) → titlesIn (readVerses verses : Reading (List Node)).value = []
  | [] => rfl
  | verse :: verses => by
    simp only [readVerses, Reading.value_bind, Reading.value_pure, titlesIn_cons,
      titlesOf_readVerse verse, titlesIn_readVerses verses, List.append_nil]

end

theorem titlesIn_readParagraph (paragraph : Paragraph) :
    titlesIn (readParagraph paragraph : Reading (List Node)).value = [] := by
  have lines : titlesIn (readParagraphText paragraph : Reading (List Node)).value = [] := by
    unfold readParagraphText
    split
    · rfl
    · simp only [Reading.value_bind, Reading.value_pure, titlesIn_cons, titlesOf_composite,
        titlesIn_cutTexts, titlesIn_readText, titlesIn_nil, List.append_nil]
  have literal : titlesIn (readLiteral paragraph.literal : Reading (List Node)).value = [] := by
    cases paragraph.literal <;> rfl
  simp only [readParagraph, Reading.value_bind, Reading.value_pure, titlesIn_append, lines, literal,
    List.append_nil]

mutual

theorem titlesIn_readBlock :
    (block : Block) → titlesIn (readBlock block : Reading (List Node)).value = []
  | .transition => rfl
  | .stray heading => by simp only [readBlock, Reading.value_bind, Reading.value_pure, titlesIn_nil]
  | .quote body | .item body => by
    simp only [readBlock, Reading.value_bind, Reading.value_pure, titlesIn_cons, titlesOf_composite,
      titlesIn_readBlocks body, titlesIn_nil, List.append_nil]
  | .list _ items | .definitionList items => by
    simp only [readBlock, Reading.value_bind, Reading.value_pure, titlesIn_cons, titlesOf_composite,
      titlesIn_readBlocks items, titlesIn_nil, List.append_nil]
  | .lineBlock lines => by
    simp only [readBlock, Reading.value_bind, Reading.value_pure, titlesIn_cons, titlesOf_composite,
      titlesIn_readVerses lines, titlesIn_nil, List.append_nil]
  | .definition term body => by
    simp only [readBlock, Reading.value_bind, Reading.value_pure, titlesIn_cons, titlesOf_unknown,
      titlesIn_readText, titlesIn_readBlocks body, titlesIn_nil, List.append_nil]
  | .paragraph paragraph => by simp only [readBlock, titlesIn_readParagraph]

theorem titlesIn_readBlocks :
    (blocks : List Block) → titlesIn (readBlocks blocks : Reading (List Node)).value = []
  | [] => rfl
  | block :: blocks => by
    simp only [readBlocks, Reading.value_bind, Reading.value_pure, titlesIn_append,
      titlesIn_readBlock block, titlesIn_readBlocks blocks, List.append_nil]

end

def Element.title? : Element → Option (UInt32 × List Node)
  | .title depth content => some (depth, content)
  | .body _ => none

/-- The element holds no section below itself. -/
def Element.IsUntitled : Element → Prop
  | .title _ content => titlesIn content = []
  | .body node => titlesOf node = []

/-- Only the elements themselves give sections. -/
def Untitled (elements : List Element) : Prop := ∀ element ∈ elements, element.IsUntitled

theorem Untitled.sublist {part elements : List Element} (untitled : Untitled elements)
    (within : part.Sublist elements) : Untitled part :=
  fun element member => untitled element (within.subset member)

theorem Untitled.tail {first : Element} {elements : List Element}
    (untitled : Untitled (first :: elements)) : Untitled elements :=
  untitled.sublist (List.sublist_cons_self first elements)

theorem untitled_elementsOf (styles : List Style) (last : UInt32) (parts : List Part) :
    Untitled (elementsOf styles last parts) := by
  induction parts generalizing styles last with
  | nil => exact fun element member => (List.not_mem_nil member).elim
  | cons part parts ih =>
    intro element member
    cases part with
    | heading heading =>
      rw [elementsOf_heading] at member
      rcases List.mem_cons.mp member with rfl | later
      · exact titlesIn_nodes heading.text
      · exact ih _ _ element later
    | block block =>
      rw [elementsOf_block] at member
      rcases List.mem_append.mp member with here | later
      · obtain ⟨node, inBlock, rfl⟩ := List.mem_map.mp here
        exact titlesOf_of_mem (titlesIn_readBlock block) inBlock
      · exact ih _ _ element later

/-- The sections have the titles of the elements, in their order. -/
theorem titlesIn_sections {elements : List Element} (untitled : Untitled elements) :
    titlesIn (sections elements) = elements.filterMap Element.title? := by
  fun_induction sections elements with
  | case1 => rfl
  | case2 node elements ih =>
    have here : titlesOf node = [] := untitled _ List.mem_cons_self
    rw [titlesIn_cons, here, ih untitled.tail]
    rfl
  | case3 depth content elements inside after =>
    have here : titlesIn content = [] := untitled _ List.mem_cons_self
    have within := inside (untitled.tail.sublist (List.takeWhile_sublist _))
    have behind := after (untitled.tail.sublist (List.dropWhile_sublist _))
    calc titlesIn (_ :: _)
      _ = (depth, content) ::
            ((elements.takeWhile (Element.isBelow depth)).filterMap Element.title? ++
              (elements.dropWhile (Element.isBelow depth)).filterMap Element.title?) := by
        rw [titlesIn_cons, titlesOf_titled, here, within, behind, List.nil_append, List.cons_append]
      _ = (depth, content) :: elements.filterMap Element.title? := by
        rw [← List.filterMap_append, List.takeWhile_append_dropWhile]

end RstPress.Document
