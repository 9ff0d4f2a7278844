import RstPress.Error

/-!
Every tree has one wire form, but a tree can be read from many wire nodes, since a type ignores the
fields that it does not use. Without these fields a wire node is canonical. A wire node makes a tree
exactly if its canonical form is the wire form of the tree.
-/

namespace RstPress.Wire
open RstPress.Tree

mutual

/-- The wire node with only the fields that its type uses, here and below. The first child of a
section holds the title, and nothing else of it is used. An unknown type uses its value only for want
of children. -/
def canonical : Wire → Wire
  | ⟨kind, depth, role, children, value⟩ =>
    match TypeName.ofName kind with
    | .text => { kind, value }
    | .transition => { kind }
    | .titled => { kind, depth, children := canonicalParts? children }
    | .interpreted => { kind, role, children := canonicals? children }
    | .composite _ => { kind, children := canonicals? children }
    | .unknown _ =>
      { kind, children := canonicals? children, value := if children.isSome then none else value }

/-- The title of a section and the nodes of its body. -/
def canonicalParts? : Option (List Wire) → Option (List Wire)
  | none => none
  | some [] => some []
  | some (⟨_, _, _, title, _⟩ :: body) =>
    some ({ kind := "title", children := canonicals? title } :: canonicals body)

def canonicals? : Option (List Wire) → Option (List Wire)
  | none => none
  | some wires => some (canonicals wires)

def canonicals : List Wire → List Wire
  | [] => []
  | wire :: wires => canonical wire :: canonicals wires

end

theorem exists_typeName (kind : String) : ∃ typeName : TypeName, kind = typeName.name :=
  ⟨TypeName.ofName kind, (TypeName.name_ofName kind).symm⟩

theorem ofName_text : TypeName.ofName "text" = .text := TypeName.ofName_name .text

theorem ofName_transition : TypeName.ofName "transition" = .transition :=
  TypeName.ofName_name .transition

theorem ofName_section : TypeName.ofName "section" = .titled := TypeName.ofName_name .titled

theorem ofName_interpreted : TypeName.ofName "interpreted_text" = .interpreted :=
  TypeName.ofName_name .interpreted

theorem ofName_unknown (kind : UnknownKind) : TypeName.ofName kind.name = .unknown kind :=
  TypeName.ofName_name (.unknown kind)

theorem kind_canonical (wire : Wire) : wire.canonical.kind = wire.kind := by
  obtain ⟨kind, depth, role, children, value⟩ := wire
  rw [canonical]
  split <;> rfl

theorem isSome_canonicals? (children : Option (List Wire)) :
    (canonicals? children).isSome = children.isSome := by
  cases children <;> rfl

theorem exists_of_canonicals? {children : Option (List Wire)} {wires : List Wire}
    (same : canonicals? children = some wires) :
    ∃ inner, children = some inner ∧ canonicals inner = wires := by
  cases children with
  | none => cases same
  | some inner => exact ⟨inner, rfl, Option.some.inj same⟩

mutual

theorem canonical_canonical : (wire : Wire) → wire.canonical.canonical = wire.canonical
  | ⟨kind, depth, role, children, value⟩ => by
    obtain ⟨typeName, rfl⟩ := exists_typeName kind
    have inner := canonicals?_canonicals? children
    cases typeName with
    | text | transition => simp only [canonical, TypeName.ofName_name]
    | titled => simp only [canonical, TypeName.ofName_name, canonicalParts?_canonicalParts? children]
    | interpreted | composite => simp only [canonical, TypeName.ofName_name, inner]
    | unknown =>
      simp only [canonical, TypeName.ofName_name, inner, isSome_canonicals?]
      split <;> rfl

theorem canonicalParts?_canonicalParts? :
    (children : Option (List Wire)) →
      canonicalParts? (canonicalParts? children) = canonicalParts? children
  | none | some [] => rfl
  | some (⟨_, _, _, title, _⟩ :: body) => by
    simp only [canonicalParts?, canonicals?_canonicals? title, canonicals_canonicals body]

theorem canonicals?_canonicals? :
    (children : Option (List Wire)) → canonicals? (canonicals? children) = canonicals? children
  | none => rfl
  | some wires => by simp only [canonicals?, canonicals_canonicals wires]

theorem canonicals_canonicals :
    (wires : List Wire) → canonicals (canonicals wires) = canonicals wires
  | [] => rfl
  | wire :: wires => by
    simp only [canonicals, canonical_canonical wire, canonicals_canonicals wires]

end

mutual

/-- A tree is written without superfluous fields. -/
theorem canonical_ofNode : (node : Node) → (ofNode node).canonical = ofNode node
  | .text value => by simp only [ofNode, canonical, ofName_text]
  | .transition => by simp only [ofNode, canonical, ofName_transition]
  | .titled depth title body => by
    simp only [ofNode, canonical, ofName_section, canonicalParts?, canonicals?,
      canonicals_ofNodes title, canonicals_ofNodes body]
  | .interpreted role children => by
    simp only [ofNode, canonical, ofName_interpreted, canonicals?, canonicals_ofNodes children]
  | .composite kind children => by
    simp only [ofNode, canonical, TypeName.ofName_composite, canonicals?,
      canonicals_ofNodes children]
  | .unknown kind children => by
    simp only [ofNode, canonical, ofName_unknown, canonicals?, canonicals_ofNodes children,
      Option.isSome_some, if_true]
  | .unknownLeaf kind value => by
    simp only [ofNode, canonical, ofName_unknown, canonicals?, Option.isSome_none,
      Bool.false_eq_true, if_false]

theorem canonicals_ofNodes : (nodes : List Node) → canonicals (ofNodes nodes) = ofNodes nodes
  | [] => rfl
  | node :: nodes => by
    simp only [ofNodes, canonicals, canonical_ofNode node, canonicals_ofNodes nodes]

end

mutual

/-- What is read from a wire node is written as its canonical form. -/
theorem ofNode_of_toNode :
    (wire : Wire) → {node : Node} → wire.toNode = .ok node → ofNode node = wire.canonical
  | ⟨kind, depth, role, children, value⟩, node, made => by
    obtain ⟨typeName, rfl⟩ := exists_typeName kind
    rw [toNode.eq_def] at made
    simp only [TypeName.ofName_name] at made
    rw [canonical]
    simp only [TypeName.ofName_name]
    cases typeName with
    | text =>
      cases value with
      | none => cases made
      | some text =>
        cases made
        rfl
    | transition =>
      cases made
      rfl
    | titled =>
      rcases depth with _ | depth
      · cases made
      rcases children with _ | _ | ⟨⟨_, _, _, _ | title, _⟩, body⟩
      · cases made
      · cases made
      · cases made
      obtain ⟨shown, fromTitle, rest⟩ := bind_eq_ok.mp made
      obtain ⟨nodes, fromBody, same⟩ := bind_eq_ok.mp rest
      cases same
      simp only [ofNode, canonicalParts?, canonicals?, ofNodes_of_toNodes title fromTitle,
        ofNodes_of_toNodes body fromBody]
      rfl
    | interpreted | composite =>
      cases children with
      | none => cases made
      | some children =>
        obtain ⟨nodes, inner, same⟩ := bind_eq_ok.mp made
        cases same
        simp only [ofNode, canonicals?, ofNodes_of_toNodes children inner]
        rfl
    | unknown =>
      rcases children with _ | children
      · cases value with
        | none => cases made
        | some text =>
          cases made
          rfl
      · obtain ⟨nodes, inner, same⟩ := bind_eq_ok.mp made
        cases same
        simp only [ofNode, canonicals?, ofNodes_of_toNodes children inner]
        rfl

theorem ofNodes_of_toNodes :
    (wires : List Wire) → {nodes : List Node} → toNodes wires = .ok nodes →
      ofNodes nodes = canonicals wires
  | [], nodes, made => by
    cases made
    rfl
  | wire :: wires, nodes, made => by
    obtain ⟨node, here, later⟩ := bind_eq_ok.mp made
    obtain ⟨others, rest, same⟩ := bind_eq_ok.mp later
    cases same
    rw [ofNodes, canonicals, ofNode_of_toNode wire here, ofNodes_of_toNodes wires rest]

end

mutual

/-- Whatever has the wire form of a tree as its canonical form is read as that tree. -/
theorem toNode_of_canonical :
    (node : Node) → {wire : Wire} → wire.canonical = ofNode node → wire.toNode = .ok node
  | node, ⟨kind, depth, role, children, value⟩, same => by
    have named : kind = (ofNode node).kind :=
      (kind_canonical _).symm.trans (congrArg Wire.kind same)
    subst named
    rw [toNode.eq_def]
    cases node with
    | text text =>
      simp only [canonical, ofName_text, ofNode, mk.injEq, true_and] at same
      simp only [ofNode, ofName_text, same]
    | transition => simp only [ofNode, ofName_transition]
    | titled depth title body =>
      simp only [canonical, ofName_section, ofNode, mk.injEq, true_and, and_true] at same
      obtain ⟨rfl, parts⟩ := same
      rcases children with _ | _ | ⟨⟨_, _, _, first, _⟩, rest⟩
      · cases parts
      · cases parts
      simp only [canonicalParts?, Option.some.injEq, List.cons.injEq, mk.injEq, true_and, and_true]
        at parts
      obtain ⟨wires, rfl, inner⟩ := exists_of_canonicals? parts.1
      simp only [ofNode, ofName_section, toNodes_of_canonicals title inner,
        toNodes_of_canonicals body parts.2]
      rfl
    | interpreted role nodes =>
      simp only [canonical, ofName_interpreted, ofNode, mk.injEq, true_and, and_true] at same
      obtain ⟨rfl, filled⟩ := same
      obtain ⟨wires, rfl, inner⟩ := exists_of_canonicals? filled
      simp only [ofNode, ofName_interpreted, toNodes_of_canonicals nodes inner]
      rfl
    | composite kind nodes =>
      simp only [canonical, TypeName.ofName_composite, ofNode, mk.injEq, true_and, and_true] at same
      obtain ⟨wires, rfl, inner⟩ := exists_of_canonicals? same
      simp only [ofNode, TypeName.ofName_composite, toNodes_of_canonicals nodes inner]
      rfl
    | unknown kind nodes =>
      simp only [canonical, ofName_unknown, ofNode, mk.injEq, true_and] at same
      obtain ⟨wires, rfl, inner⟩ := exists_of_canonicals? same.1
      simp only [ofNode, ofName_unknown, toNodes_of_canonicals nodes inner]
      rfl
    | unknownLeaf kind text =>
      simp only [canonical, ofName_unknown, ofNode, mk.injEq, true_and] at same
      rcases children with _ | children
      · simp only [Option.isSome_none, Bool.false_eq_true, if_false] at same
        simp only [ofNode, ofName_unknown, same.2]
      · cases same.1

theorem toNodes_of_canonicals :
    (nodes : List Node) → {wires : List Wire} → canonicals wires = ofNodes nodes →
      toNodes wires = .ok nodes
  | [], [], _ => rfl
  | node :: nodes, wire :: wires, same => by
    rw [canonicals, ofNodes, List.cons.injEq] at same
    rw [toNodes, toNode_of_canonical node same.1, toNodes_of_canonicals nodes same.2]
    rfl

end

theorem toNode_eq_ok_iff {wire : Wire} {node : Node} :
    wire.toNode = .ok node ↔ wire.canonical = ofNode node :=
  ⟨fun made => (ofNode_of_toNode wire made).symm, toNode_of_canonical node⟩

/-- Trees and wire nodes round-trip: a tree is read back from its wire form, and a wire node of which
a tree is made is written back in its canonical form, which is canonical itself. What is not in the
canonical form has no influence on the tree, nor on whether there is one. -/
theorem wire_round_trips (wire : Wire) (node : Node) :
    (ofNode node).toNode = .ok node ∧
      (wire.toNode = .ok node ↔ ofNode node = wire.canonical) ∧
      wire.canonical.canonical = wire.canonical ∧
      ∀ other : Wire, other.canonical = wire.canonical →
        other.toNode.toOption = wire.toNode.toOption := by
  refine ⟨toNode_of_canonical node (canonical_ofNode node), toNode_eq_ok_iff.trans eq_comm,
    canonical_canonical wire, fun other same => ?_⟩
  have alike (made : Node) : other.toNode = .ok made ↔ wire.toNode = .ok made := by
    rw [toNode_eq_ok_iff, toNode_eq_ok_iff, same]
  cases read : wire.toNode with
  | ok made => rw [(alike made).mpr read]
  | error reason =>
    cases found : other.toNode with
    | ok made => exact absurd ((alike made).mp found) (by simp [read])
    | error other => rfl

/-- A section whose title has another type, with fields that are ignored. -/
def clutteredWire : Wire :=
  { kind := "section", depth := some 2, role := some "term", value := some "lost",
    children := some
      [{ kind := "heading", depth := some 9, value := some "lost",
         children := some [{ kind := "text", role := some "term", value := some "Title" }] },
       { kind := "custom", depth := some 3, value := some "lost", children := some [] }] }

def clutteredSection : Node :=
  .titled 2 [.text "Title"] [.unknown ⟨"custom", by decide⟩ []]

theorem wire_round_trips_cluttered :
    clutteredWire.toNode = .ok clutteredSection ∧
      ofNode clutteredSection = clutteredWire.canonical ∧
      clutteredWire.canonical.canonical = clutteredWire.canonical ∧
      clutteredWire.canonical.toNode.toOption = clutteredWire.toNode.toOption := by
  obtain ⟨_, written, idempotent, alike⟩ := wire_round_trips clutteredWire clutteredSection
  have made : clutteredWire.toNode = .ok clutteredSection := by rfl
  exact ⟨made, written.mp made, idempotent, alike _ idempotent⟩

end RstPress.Wire
