import RstPress.Html.Render
import RstPress.Proofs.Statistics.Visits

/-!
Statistics describe the wire form of a tree and its rendering. A rendering that keeps account of the
fallback gives the same markup, and it passes to the fallback the types that the statistics name.
-/

namespace RstPress.Html
open RstPress.Tree

/-- Markup, and the type names that were passed to the fallback on the way to it. -/
structure Traced where
  markup : String
  passed : List String

/-- The fallback for a node that holds child nodes. -/
def unknownBlock (width level : Nat) (name : String) (inner : Traced) : Traced :=
  ⟨(fallback name).wrap width level inner.markup, name :: inner.passed⟩

/-- The fallback for a node that holds a text. -/
def unknownLeaf (name value : String) : Traced := ⟨leaf "div" (fallbackClass name) value, [name]⟩

def Traced.append (front back : Traced) : Traced :=
  ⟨front.markup ++ back.markup, front.passed ++ back.passed⟩

mutual

/-- Rendering that keeps account of the fallback. -/
def trace (width level : Nat) : Node → Traced
  | .text value => ⟨leaf "span" "rst-text" value, []⟩
  | .transition => unknownLeaf "transition" ""
  | .titled depth title body =>
    let heading := traceAll width (level + 2) title
    let rest := traceSeparated width (level + 1) body
    ⟨indentation width level ++ openTag "div" "rst-section" ++ "\n" ++
      (titleElement depth).wrap width (level + 1) heading.markup ++ rest.markup ++
      indentation width level ++ closeTag "div" ++ "\n", heading.passed ++ rest.passed⟩
  | .interpreted role children =>
    let inner := traceAll width (level + 1) children
    ⟨wrapInline "span" (interpretedClass role) inner.markup, inner.passed⟩
  | .composite kind children =>
    let inner := traceAll width (level + 1) children
    match element? kind with
    | some element => ⟨element.wrap width level inner.markup, inner.passed⟩
    | none => unknownBlock width level kind.name inner
  | .unknown kind children => unknownBlock width level kind.name (traceAll width (level + 1) children)
  | .unknownLeaf kind value => unknownLeaf kind.name value

def traceAll (width level : Nat) : List Node → Traced
  | [] => ⟨"", []⟩
  | node :: nodes => (trace width level node).append (traceAll width level nodes)

def traceSeparated (width level : Nat) : List Node → Traced
  | [] => ⟨"", []⟩
  | node :: nodes =>
    ((trace width level node).append ⟨if nodes.isEmpty then "" else "\n", []⟩).append
      (traceSeparated width level nodes)

end

mutual

/-- Keeping account does not change the markup. -/
theorem markup_trace (width level : Nat) : (node : Node) →
    (trace width level node).markup = render width level node
  | .text _ | .transition | .unknownLeaf .. => rfl
  | .titled depth title body => by
    rw [trace, render, markup_traceAll, markup_traceSeparated]
  | .interpreted role children => by rw [trace, render, markup_traceAll]
  | .composite kind children => by
    rw [trace, render, elementOf, ← markup_traceAll]
    cases element? kind <;> rfl
  | .unknown kind children => by rw [trace, render, unknownBlock, markup_traceAll]

theorem markup_traceAll (width level : Nat) : (nodes : List Node) →
    (traceAll width level nodes).markup = renderAll width level nodes
  | [] => rfl
  | node :: nodes => by rw [traceAll, renderAll, Traced.append, markup_trace, markup_traceAll]

theorem markup_traceSeparated (width level : Nat) : (nodes : List Node) →
    (traceSeparated width level nodes).markup = renderSeparated width level nodes
  | [] => rfl
  | node :: nodes => by
    rw [traceSeparated, renderSeparated, Traced.append, Traced.append, markup_trace,
      markup_traceSeparated]

end

/-- Definition lists are the only kind without an element of its own. -/
theorem element?_eq_none_iff (kind : Kind) : element? kind = none ↔ kind = .definitionList := by
  cases kind <;> decide

mutual

/-- What is passed to the fallback are the names of the visits that say so, on any level. -/
theorem passed_trace (width level place : Nat) : (node : Node) →
    (trace width level node).passed = ((visits place node).filter Visit.fallback).map Visit.name
  | .text _ | .transition | .unknownLeaf .. => rfl
  | .titled depth title body => by
    rw [trace, visits, List.filter_cons_of_neg (by simp), List.filter_cons_of_neg (by simp),
      List.filter_append, List.map_append, ← passed_traceAll width (level + 2) (place + 2) title,
      ← passed_traceSeparated width (level + 1) (place + 1) body]
  | .interpreted role children => passed_traceAll width (level + 1) (place + 1) children
  | .composite kind children => by
    have inner := passed_traceAll width (level + 1) (place + 1) children
    rw [trace, visits]
    -- The renderer goes by its table of elements, the statistics by the kind.
    cases own : element? kind with
    | none =>
      rw [List.filter_cons_of_pos (by simpa using (element?_eq_none_iff kind).mp own)]
      exact congrArg (kind.name :: ·) inner
    | some element =>
      have other : kind ≠ .definitionList := by
        rintro rfl
        cases own
      rw [List.filter_cons_of_neg (by simpa using other)]
      exact inner
  | .unknown kind children =>
    congrArg (kind.name :: ·) (passed_traceAll width (level + 1) (place + 1) children)

theorem passed_traceAll (width level place : Nat) : (nodes : List Node) →
    (traceAll width level nodes).passed = ((visitsIn place nodes).filter Visit.fallback).map Visit.name
  | [] => rfl
  | node :: nodes => by
    rw [traceAll, Traced.append, visitsIn, List.filter_append, List.map_append,
      passed_trace width level place, passed_traceAll width level place]

theorem passed_traceSeparated (width level place : Nat) : (nodes : List Node) →
    (traceSeparated width level nodes).passed =
      ((visitsIn place nodes).filter Visit.fallback).map Visit.name
  | [] => rfl
  | node :: nodes => by
    rw [traceSeparated, Traced.append, Traced.append, visitsIn, List.filter_append, List.map_append,
      List.append_nil, passed_trace width level place, passed_traceSeparated width level place]

end

end RstPress.Html

namespace RstPress.Tree

/-- What statistics say of a wire node: how often each type occurs in it, how many nodes it has, and how
deep they lie. All numbers are bounded by the number of nodes. -/
structure Statistics.Describes (total : Statistics) (wire : Wire) : Prop where
  counts : ∀ name, total.counts.get? name =
    if wire.kinds.count name = 0 then none else some (wire.kinds.count name)
  nodeCount : total.nodeCount = wire.kinds.length
  sum : (total.counts.entries.map Prod.snd).sum = total.nodeCount
  maxDepth : total.maxDepth = wire.height
  bounded : wire.height < wire.kinds.length

/-- Statistics describe the wire form of the tree, and their fallbacks are the types that are passed to
the fallback while the tree is rendered, whatever the indentation. -/
theorem Statistics.ofTree_describes (tree : Node) :
    (ofTree tree).Describes (.ofNode tree) ∧
      ∀ width level, (Html.trace width level tree).markup = Html.render width level tree ∧
        ∀ name, name ∈ (ofTree tree).fallbacks.names ↔ name ∈ (Html.trace width level tree).passed := by
  have whole : ofTree tree = (visits 0 tree).foldl note empty := visit_eq_foldl 0 empty tree
  refine ⟨⟨fun name => ?_, nodeCount_ofTree tree, ?_, maxDepth_ofTree tree, Wire.height_lt _⟩,
    fun width level => ⟨Html.markup_trace width level tree, fun name => ?_⟩⟩
  · rw [whole, counts_foldl, names_visits 0 tree, empty, Table.get?_empty, Option.getD_none,
      Nat.zero_add]
  · rw [whole, sum_counts_foldl, nodeCount_foldl]
    rfl
  · rw [whole, mem_fallbacks_foldl, Html.passed_trace width level 0 tree]
    exact or_iff_left List.not_mem_nil

end RstPress.Tree
