import RstPress.Document.Source

/-!
The sections of a document are made with a stack of those that are open. The stack is ordered by depth, and
however far it has come, what it will make is known from the elements that follow: each open section takes
them up to the next title that is not below it.
-/

namespace RstPress.Document
open RstPress.Tree
variable {α : Type}

/-- Whether an element belongs to a section of the given depth in front of it. -/
def Element.isBelow (depth : UInt32) : Element → Bool
  | title other _ => depth < other
  | body _ => true

/-- The sections of some elements, each with all that is below its title. -/
def sections : List Element → List Node
  | [] => []
  | .body node :: elements => node :: sections elements
  | .title depth content :: elements =>
    .titled depth content (sections (elements.takeWhile (Element.isBelow depth))) ::
      sections (elements.dropWhile (Element.isBelow depth))
termination_by elements => elements.length
decreasing_by
  · simp
  · exact Nat.lt_succ_of_le (List.takeWhile_sublist _).length_le
  · exact Nat.lt_succ_of_le (List.dropWhile_sublist _).length_le

/-- What is below a title is below a higher one. -/
theorem Element.isBelow_mono {outer inner : UInt32} (above : outer < inner) (element : Element)
    (below : element.isBelow inner) : element.isBelow outer := by
  cases element with
  | body node => rfl
  | title depth content => exact decide_eq_true (UInt32.lt_trans above (of_decide_eq_true below))

section Runs
variable {p q : α → Bool}

/-- A run that holds a shorter one from the start is this one with the rest of the run. -/
theorem takeWhile_takeWhile_of_imp (longer : ∀ a, p a → q a) (items : List α) :
    (items.takeWhile q).takeWhile p = items.takeWhile p ∧
      (items.takeWhile q).dropWhile p = (items.dropWhile p).takeWhile q ∧
      items.dropWhile q = (items.dropWhile p).dropWhile q := by
  induction items with
  | nil => exact ⟨rfl, rfl, rfl⟩
  | cons first items ih =>
    obtain ⟨taken, left, dropped⟩ := ih
    by_cases short : p first
    · have long := longer first short
      simp only [List.takeWhile_cons_of_pos long, List.takeWhile_cons_of_pos short,
        List.dropWhile_cons_of_pos long, List.dropWhile_cons_of_pos short, taken, left, dropped, and_self]
    · rw [List.takeWhile_cons_of_neg short, List.dropWhile_cons_of_neg short]
      refine ⟨?_, ?_, rfl⟩
      · by_cases long : q first
        · rw [List.takeWhile_cons_of_pos long, List.takeWhile_cons_of_neg short]
        · rw [List.takeWhile_cons_of_neg long, List.takeWhile_nil]
      · by_cases long : q first
        · rw [List.takeWhile_cons_of_pos long, List.dropWhile_cons_of_neg short]
        · rw [List.takeWhile_cons_of_neg long, List.dropWhile_nil]

end Runs

namespace Stack

/-- What becomes of open sections, given the nodes that come into the innermost one and the elements that
follow. -/
def complete (root made : List Node) : List OpenSection → List Element → List Node
  | [], rest => root ++ made ++ sections rest
  | inner :: outer, rest =>
    complete root [((inner.add made).add (sections (rest.takeWhile (Element.isBelow inner.depth)))).node]
      outer (rest.dropWhile (Element.isBelow inner.depth))

/-- Without further elements the open sections are closed. -/
theorem complete_nil (root made : List Node) (opened : List OpenSection) :
    complete root made opened [] = (closeWhile (fun _ => true) root made opened).root := by
  induction opened generalizing made with
  | nil => rw [complete, closeWhile, sections, List.append_nil]
  | cons inner outer ih =>
    rw [complete, closeWhile, if_pos rfl, List.takeWhile_nil, List.dropWhile_nil, sections, ih]
    simp [OpenSection.add]

theorem complete_add (stack : Stack) (node : Node) (rest : List Element) :
    complete (stack.add node).root [] (stack.add node).opened rest =
      complete stack.root [] stack.opened (.body node :: rest) := by
  obtain ⟨_ | ⟨inner, outer⟩, root⟩ := stack
  · simp [add, complete, sections]
  · rw [add, complete, complete, List.takeWhile_cons_of_pos rfl, List.dropWhile_cons_of_pos rfl, sections]
    simp [OpenSection.add]

/-- A title closes the sections that it is not below, and opens its own one. -/
theorem complete_closeWhile (depth : UInt32) (title root made : List Node) (opened : List OpenSection)
    (rest : List Element) :
    complete (closeWhile (fun inner => depth ≤ inner.depth) root made opened).root []
        (⟨depth, title, []⟩ :: (closeWhile (fun inner => depth ≤ inner.depth) root made opened).opened) rest =
      complete root made opened (.title depth title :: rest) := by
  induction opened generalizing made with
  | nil => simp [closeWhile, complete, sections, OpenSection.add, OpenSection.node]
  | cons inner outer ih =>
    by_cases closes : depth ≤ inner.depth
    · have other : ¬(Element.title depth title).isBelow inner.depth := by
        simpa [Element.isBelow] using closes
      rw [closeWhile, if_pos (decide_eq_true closes), ih, complete, List.takeWhile_cons_of_neg other,
        List.dropWhile_cons_of_neg other, sections]
      simp [OpenSection.add]
    · have below : (Element.title depth title).isBelow inner.depth := by
        simpa [Element.isBelow] using closes
      obtain ⟨taken, left, dropped⟩ := takeWhile_takeWhile_of_imp
        (Element.isBelow_mono (UInt32.not_le.mp closes)) rest
      rw [closeWhile, if_neg (by simpa using closes), complete, complete, complete,
        List.takeWhile_cons_of_pos below, List.dropWhile_cons_of_pos below, sections, taken, left, dropped]
      simp [OpenSection.add, OpenSection.node]

/-- What the stack makes is known before each element. -/
theorem complete_step (stack : Stack) (element : Element) (rest : List Element) :
    complete (stack.step element).root [] (stack.step element).opened rest =
      complete stack.root [] stack.opened (element :: rest) := by
  cases element with
  | body node => exact complete_add stack node rest
  | title depth content => exact complete_closeWhile depth content stack.root [] stack.opened rest

theorem complete_foldl (stack : Stack) (elements rest : List Element) :
    complete (elements.foldl step stack).root [] (elements.foldl step stack).opened rest =
      complete stack.root [] stack.opened (elements ++ rest) := by
  induction elements generalizing stack with
  | nil => rfl
  | cons element elements ih => rw [List.foldl_cons, ih, complete_step, List.cons_append]

/-- Every open section is deeper than those around it. -/
def IsOrdered (stack : Stack) : Prop := stack.opened.Pairwise fun inner outer => outer.depth < inner.depth

theorem isOrdered_add {stack : Stack} (ordered : stack.IsOrdered) (node : Node) :
    (stack.add node).IsOrdered := by
  obtain ⟨_ | ⟨inner, outer⟩, root⟩ := stack
  · exact List.Pairwise.nil
  · exact List.pairwise_cons.mpr (List.pairwise_cons.mp ordered)

/-- The sections that stay open are above the title that closes the others. -/
theorem isOrdered_closeWhile (depth : UInt32) (root made : List Node) {opened : List OpenSection}
    (ordered : opened.Pairwise fun inner outer => outer.depth < inner.depth) :
    (closeWhile (fun inner => depth ≤ inner.depth) root made opened).IsOrdered ∧
      ∀ outer ∈ (closeWhile (fun inner => depth ≤ inner.depth) root made opened).opened,
        outer.depth < depth := by
  induction opened generalizing made with
  | nil => exact ⟨List.Pairwise.nil, List.forall_mem_nil _⟩
  | cons inner outer ih =>
    obtain ⟨above, later⟩ := List.pairwise_cons.mp ordered
    by_cases closes : depth ≤ inner.depth
    · rw [closeWhile, if_pos (decide_eq_true closes)]
      exact ih _ later
    · rw [closeWhile, if_neg (by simpa using closes)]
      have here : inner.depth < depth := UInt32.not_le.mp closes
      exact ⟨List.pairwise_cons.mpr ⟨above, later⟩,
        List.forall_mem_cons.mpr ⟨here, fun other member => UInt32.lt_trans (above other member) here⟩⟩

theorem isOrdered_step {stack : Stack} (ordered : stack.IsOrdered) (element : Element) :
    (stack.step element).IsOrdered := by
  cases element with
  | body node => exact isOrdered_add ordered node
  | title depth content =>
    obtain ⟨kept, above⟩ := isOrdered_closeWhile depth stack.root [] ordered
    exact List.pairwise_cons.mpr ⟨above, kept⟩

end Stack

/-- However many elements the stack has taken, it is ordered, and with those that follow it makes the sections
of all of them. -/
theorem stack_run (front rest : List Element) :
    (front.foldl Stack.step ⟨[], []⟩).IsOrdered ∧
      Stack.complete (front.foldl Stack.step ⟨[], []⟩).root [] (front.foldl Stack.step ⟨[], []⟩).opened rest =
        sections (front ++ rest) := by
  refine ⟨?_, Stack.complete_foldl ⟨[], []⟩ front rest⟩
  have ordered : (⟨[], []⟩ : Stack).IsOrdered := List.Pairwise.nil
  generalize (⟨[], []⟩ : Stack) = stack at ordered
  induction front generalizing stack with
  | nil => exact ordered
  | cons element front ih => exact ih _ (Stack.isOrdered_step ordered element)

theorem nestSections_eq (elements : List Element) : nestSections elements = sections elements := by
  have made := (stack_run elements []).2
  rw [Stack.complete_nil, List.append_nil] at made
  exact made

end RstPress.Document
