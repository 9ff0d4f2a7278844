import Mathlib.Tactic.Ring
import RstPress.Html.Render
import RstPress.Wire.Node

/-!
Width and level only put spaces into a page, in front of the tags of the elements that stand on lines of
their own. How many there are is told by the depths of these elements in the wire form, each of which has
two tags.
-/

namespace RstPress.Wire

/-- The types of the nodes that stand in the flow of the text, although they hold nodes. -/
def flowTypes : List String := ["interpreted_text", "emphasis", "strong", "literal"]

mutual

/-- The depths of the nodes that stand on lines of their own: all that hold nodes, but for the types of
the flow. The wire node itself is as deep as given. -/
def blockDepths (depth : Nat) : Wire → List Nat
  | ⟨kind, _, _, children, _⟩ =>
    match children with
    | none => []
    | some children =>
      (if kind ∈ flowTypes then [] else [depth]) ++ blockDepthsIn (depth + 1) children

def blockDepthsIn (depth : Nat) : List Wire → List Nat
  | [] => []
  | wire :: wires => blockDepths depth wire ++ blockDepthsIn depth wires

end

mutual

theorem blockDepths_eq (depth : Nat) : (wire : Wire) →
    blockDepths depth wire = (blockDepths 0 wire).map (depth + ·)
  | ⟨_, _, _, none, _⟩ => rfl
  | ⟨kind, _, _, some children, _⟩ => by
    have inner := blockDepthsIn_eq (depth + 1) children
    have first := blockDepthsIn_eq 1 children
    rw [blockDepths, blockDepths, inner, first, List.map_append, List.map_map]
    congr 1
    · split <;> rfl
    · exact List.map_congr_left fun below _ => Nat.add_assoc depth 1 below

theorem blockDepthsIn_eq (depth : Nat) : (wires : List Wire) →
    blockDepthsIn depth wires = (blockDepthsIn 0 wires).map (depth + ·)
  | [] => rfl
  | wire :: wires => by
    rw [blockDepthsIn, blockDepthsIn, List.map_append, ← blockDepths_eq depth wire,
      ← blockDepthsIn_eq depth wires]

end

end RstPress.Wire

namespace RstPress.Html
open RstPress.Tree

/-- The second text is the first one with so many spaces put in. -/
inductive Padded : Nat → List Char → List Char → Prop where
  | nil : Padded 0 [] []
  | char (c : Char) {count : Nat} {bare padded : List Char} (rest : Padded count bare padded) :
    Padded count (c :: bare) (c :: padded)
  | space {count : Nat} {bare padded : List Char} (rest : Padded count bare padded) :
    Padded (count + 1) bare (' ' :: padded)

namespace Padded
variable {count more : Nat} {bare padded : List Char}

theorem refl (text : List Char) : Padded 0 text text := by
  induction text with
  | nil => exact .nil
  | cons c text ih => exact .char c ih

theorem append (here : Padded count bare padded) {behind after : List Char}
    (later : Padded more behind after) : Padded (count + more) (bare ++ behind) (padded ++ after) := by
  induction here with
  | nil => rwa [Nat.zero_add]
  | char c rest ih => exact .char c ih
  | @space count bare padded rest ih =>
    rw [Nat.add_right_comm]
    exact .space ih

theorem spaces (count : Nat) : Padded count [] (List.replicate count ' ') := by
  induction count with
  | zero => exact .nil
  | succ count ih => exact .space ih

theorem filter (pads : Padded count bare padded) :
    padded.filter (· ≠ ' ') = bare.filter (· ≠ ' ') := by
  induction pads with
  | nil => rfl
  | char c rest ih => rw [List.filter_cons, List.filter_cons, ih]
  | space rest ih => exact ih

end Padded

/-- The second page is the first one with so many spaces put in. -/
def Indents (count : Nat) (bare page : String) : Prop := Padded count bare.toList page.toList

namespace Indents
variable {count more : Nat} {bare page behind after : String}

theorem refl (text : String) : Indents 0 text text := Padded.refl text.toList

theorem append (here : Indents count bare page) (later : Indents more behind after) :
    Indents (count + more) (bare ++ behind) (page ++ after) := by
  rw [Indents, String.toList_append, String.toList_append]
  exact Padded.append here later

/-- Text that both pages have. -/
theorem append_same (here : Indents count bare page) (text : String) :
    Indents count (bare ++ text) (page ++ text) :=
  here.append (refl text)

theorem same_append (text : String) (here : Indents count bare page) :
    Indents count (text ++ bare) (text ++ page) := by
  have whole := (refl text).append here
  rwa [Nat.zero_add] at whole

theorem indentation (width base level : Nat) :
    Indents (width * level) (indentation 0 base) (indentation width level) := by
  rw [Indents, Html.indentation, Html.indentation, String.toList_ofList, String.toList_ofList,
    Nat.zero_mul]
  exact Padded.spaces (width * level)

/-- A block has two tags behind its indentation. -/
theorem wrapBlock (inner : Indents count bare page) (width base level : Nat) (tag className : String) :
    Indents (2 * width * level + count) (wrapBlock 0 base tag className bare)
      (wrapBlock width level tag className page) := by
  have margin := indentation width base level
  have front := ((margin.append_same (openTag tag className)).append_same "\n").append inner
  have back := (((front.append_same "\n").append margin).append_same (closeTag tag)).append_same "\n"
  have sum : width * level + count + width * level = 2 * width * level + count := by ring
  exact sum ▸ back

theorem wrapInline (inner : Indents count bare page) (tag className : String) :
    Indents count (wrapInline tag className bare) (wrapInline tag className page) :=
  (inner.same_append (openTag tag className)).append_same (closeTag tag)

/-- A section has its own two tags around its heading and its body. -/
theorem titled {bareTitle title bareBody body : String} (heading : Indents count bareTitle title)
    (rest : Indents more bareBody body) (width base level : Nat) :
    Indents (2 * width * level + count + more)
      (Html.indentation 0 base ++ openTag "div" "rst-section" ++ "\n" ++ bareTitle ++ bareBody ++
        Html.indentation 0 base ++ closeTag "div" ++ "\n")
      (Html.indentation width level ++ openTag "div" "rst-section" ++ "\n" ++ title ++ body ++
        Html.indentation width level ++ closeTag "div" ++ "\n") := by
  have margin := indentation width base level
  have front := ((margin.append_same (openTag "div" "rst-section")).append_same "\n").append heading
  have back := (((front.append rest).append margin).append_same (closeTag "div")).append_same "\n"
  have sum : width * level + count + more + width * level = 2 * width * level + count + more := by ring
  exact sum ▸ back

/-- A node that stands on lines of its own where its type says so. -/
theorem wrap (inner : Indents count bare page) (element : Element) (width base level : Nat) :
    Indents ((if element.flow = .block then 2 * width * level else 0) + count)
      (element.wrap 0 base bare) (element.wrap width level page) := by
  unfold Element.wrap
  cases element.flow with
  | block => exact inner.wrapBlock width base level _ _
  | inline =>
    rw [if_neg (by decide), Nat.zero_add]
    exact inner.wrapInline _ _

end Indents

/-- The depths that a node with children adds to those below it. -/
def ownDepths (flow : Flow) (depth : Nat) : List Nat := if flow = .block then [depth] else []

theorem blockDepths_composite (kind : Kind) (children : List Node) (depth : Nat) :
    (Wire.ofNode (.composite kind children)).blockDepths depth =
      ownDepths (elementOf kind).flow depth ++ Wire.blockDepthsIn (depth + 1) (Wire.ofNodes children) := by
  rw [Wire.ofNode, Wire.blockDepths]
  congr 1
  cases kind <;> rfl

theorem blockDepths_unknown (kind : UnknownKind) (children : List Node) (depth : Nat) :
    (Wire.ofNode (.unknown kind children)).blockDepths depth =
      depth :: Wire.blockDepthsIn (depth + 1) (Wire.ofNodes children) := by
  have builtin : Wire.flowTypes ⊆ builtinNames := by decide
  have plain : kind.name ∉ Wire.flowTypes := fun member => kind.isUnknown (builtin member)
  rw [Wire.ofNode, Wire.blockDepths, if_neg plain]
  rfl

theorem blockDepths_titled (level : UInt32) (title body : List Node) (depth : Nat) :
    (Wire.ofNode (.titled level title body)).blockDepths depth =
      depth :: (depth + 1) :: (Wire.blockDepthsIn (depth + 2) (Wire.ofNodes title) ++
        Wire.blockDepthsIn (depth + 1) (Wire.ofNodes body)) := by
  simp only [Wire.ofNode, Wire.blockDepths, Wire.blockDepthsIn]
  rfl

theorem blockDepths_interpreted (role : Option String) (children : List Node) (depth : Nat) :
    (Wire.ofNode (.interpreted role children)).blockDepths depth =
      Wire.blockDepthsIn (depth + 1) (Wire.ofNodes children) := by
  rw [Wire.ofNode, Wire.blockDepths, if_pos (by decide), List.nil_append]

theorem sum_ownDepths (width : Nat) (flow : Flow) (depth : Nat) :
    2 * width * (ownDepths flow depth).sum = if flow = .block then 2 * width * depth else 0 := by
  unfold ownDepths
  split <;> simp

mutual

/-- The spaces of a page: each block has two tags behind the indentation of its depth. -/
theorem indents_render (width base level : Nat) : (node : Node) →
    Indents (2 * width * ((Wire.ofNode node).blockDepths level).sum) (render 0 base node)
      (render width level node)
  | .text _ | .transition | .unknownLeaf .. => .refl _
  | .titled depth title body => by
    have heading := (indents_renderAll width (base + 2) (level + 2) title).wrap (titleElement depth) width
      (base + 1) (level + 1)
    have whole := heading.titled (indents_renderSeparated width (base + 1) (level + 1) body) width base level
    have own : (titleElement depth).flow = .block := rfl
    rw [blockDepths_titled, List.sum_cons, List.sum_cons, List.sum_append]
    refine cast (congrArg (Indents · _ _) ?_) whole
    rw [if_pos own]
    ring
  | .interpreted role children => by
    rw [blockDepths_interpreted]
    exact (indents_renderAll width (base + 1) (level + 1) children).wrapInline "span" (interpretedClass role)
  | .composite kind children => by
    rw [blockDepths_composite, List.sum_append, Nat.mul_add, sum_ownDepths]
    exact (indents_renderAll width (base + 1) (level + 1) children).wrap (elementOf kind) width base level
  | .unknown kind children => by
    rw [blockDepths_unknown, List.sum_cons, Nat.mul_add]
    exact (indents_renderAll width (base + 1) (level + 1) children).wrap (fallback kind.name) width base level

theorem indents_renderAll (width base level : Nat) : (nodes : List Node) →
    Indents (2 * width * (Wire.blockDepthsIn level (Wire.ofNodes nodes)).sum) (renderAll 0 base nodes)
      (renderAll width level nodes)
  | [] => .refl ""
  | node :: nodes => by
    rw [Wire.ofNodes, Wire.blockDepthsIn, List.sum_append, Nat.mul_add]
    exact (indents_render width base level node).append (indents_renderAll width base level nodes)

theorem indents_renderSeparated (width base level : Nat) : (nodes : List Node) →
    Indents (2 * width * (Wire.blockDepthsIn level (Wire.ofNodes nodes)).sum) (renderSeparated 0 base nodes)
      (renderSeparated width level nodes)
  | [] => .refl ""
  | node :: nodes => by
    rw [Wire.ofNodes, Wire.blockDepthsIn, List.sum_append, Nat.mul_add]
    exact ((indents_render width base level node).append_same _).append
      (indents_renderSeparated width base level nodes)

end

end RstPress.Html
