import RstPress.Press
import RstPress.Proofs.Canonical
import RstPress.Proofs.Json.Written

/-!
Trees as JSON text. A node with child nodes is an object around an array, so it nests two deeper than
its children. A tree is read back from its text exactly if its nesting keeps to the limit.
-/

namespace RstPress.Tree

mutual

/-- How deep the objects and arrays of a written tree nest. A node with child nodes, the title of a
section among them, is an object around an array; all others are objects alone. -/
def Node.nesting : Node → Nat
  | .text _ | .transition | .unknownLeaf .. => 1
  | .titled _ title body => 2 + max (2 + nestings title) (nestings body)
  | .interpreted _ children | .composite _ children | .unknown _ children => 2 + nestings children

/-- The deepest nesting in a list of nodes. -/
def nestings : List Node → Nat
  | [] => 0
  | node :: nodes => max node.nesting (nestings nodes)

end

end RstPress.Tree

namespace RstPress.Wire
open RstPress.Tree

mutual

/-- How deep the objects and arrays of a written wire node nest. -/
def nesting : Wire → Nat
  | ⟨_, _, _, none, _⟩ => 1
  | ⟨_, _, _, some children, _⟩ => 2 + nestings children

def nestings : List Wire → Nat
  | [] => 0
  | wire :: wires => max wire.nesting (nestings wires)

end

mutual

theorem nesting_ofNode : (node : Node) → (ofNode node).nesting = node.nesting
  | .text _ | .transition | .unknownLeaf .. => rfl
  | .titled _ title body => by
    simp only [ofNode, nesting, nestings, Node.nesting, nestings_ofNodes title, nestings_ofNodes body]
  | .interpreted _ children | .composite _ children | .unknown _ children => by
    simp only [ofNode, nesting, Node.nesting, nestings_ofNodes children]

theorem nestings_ofNodes : (nodes : List Node) → nestings (ofNodes nodes) = Tree.nestings nodes
  | [] => rfl
  | node :: nodes => by
    simp only [ofNodes, nestings, Tree.nestings, nesting_ofNode node, nestings_ofNodes nodes]

end

theorem soundFields_append {front back : List (List Nat × Json)} :
    Json.SoundFields (front ++ back) ↔ Json.SoundFields front ∧ Json.SoundFields back := by
  induction front with
  | nil => simp [Json.SoundFields]
  | cons field front ih =>
    simp only [List.cons_append, Json.SoundFields, ih, and_assoc]

/-- A field that may be missing. -/
theorem soundFields_optional {α : Type} (value : Option α) (key : String) {toJson : α → Json}
    (sound : ∀ a, (toJson a).Sound) :
    Json.SoundFields (value.toList.map fun a => Json.member key (toJson a)) := by
  cases value with
  | none => trivial
  | some a => exact ⟨Json.lt_of_mem_points, sound a, trivial⟩

mutual

theorem sound_toJson : (wire : Wire) → wire.toJson.Sound
  | ⟨kind, depth, role, children, value⟩ => by
    rw [toJson.eq_def]
    simp only [Json.Sound, Json.SoundFields, soundFields_append]
    refine ⟨Json.lt_of_mem_points, Json.lt_of_mem_points, ⟨⟨?_, ?_⟩, ?_⟩, ?_⟩
    · exact soundFields_optional depth "depth" fun depth => Json.isNumber_toDigits depth.toNat
    · exact soundFields_optional role "role" fun role => Json.lt_of_mem_points
    · cases children with
      | none => trivial
      | some children => exact ⟨Json.lt_of_mem_points, sound_toJsons children, trivial⟩
    · exact soundFields_optional value "value" fun value => Json.lt_of_mem_points

theorem sound_toJsons : (wires : List Wire) → Json.SoundItems (toJsons wires)
  | [] => trivial
  | wire :: wires => ⟨sound_toJson wire, sound_toJsons wires⟩

end

/-- A field with a name is read into the draft. -/
theorem ofFields?_member (nesting : Nat) (draft : Draft) (field : Field) (value : Json)
    (fields : List (List Nat × Json)) :
    ofFields? nesting draft (Json.member field.name value :: fields) =
      (withField? nesting draft field value).bind fun draft => ofFields? nesting draft fields := by
  have named : Field.ofName? field.name = some field := by cases field <;> decide
  simp only [Json.member, ofFields?, Json.text?_points, Option.bind_some, named]

/-- A field that may be missing leads to one draft or the other. -/
theorem ofFields?_optional {α : Type} (nesting : Nat) {draft filled : Draft} (field : Field)
    (value : Option α) {toJson : α → Json} (fields : List (List Nat × Json))
    (missing : value = none → filled = draft)
    (given : ∀ a, value = some a → withField? nesting draft field (toJson a) = some filled) :
    ofFields? nesting draft
        ((value.toList.map fun a => Json.member field.name (toJson a)) ++ fields) =
      ofFields? nesting filled fields := by
  cases value with
  | none => rw [missing rfl]; rfl
  | some a =>
    rw [Option.toList_some, List.map_singleton, List.singleton_append, ofFields?_member,
      given a rfl, Option.bind_some]

theorem withField?_depth (nesting : Nat) {draft : Draft} (free : draft.depth = none)
    (depth : UInt32) :
    withField? nesting draft .depth (.natural depth.toNat) =
      some { draft with depth := some (some depth) } := by
  simp [Json.natural, withField?, Draft.has, free, optionalWord?, word?, depth.toNat_lt_size]

/-- A text is read into each of the fields that hold one. -/
theorem withField?_text (nesting : Nat) {draft : Draft} (text : String) :
    (draft.kind = none →
      withField? nesting draft .kind (.text text) = some { draft with kind := some text }) ∧
    (draft.role = none →
      withField? nesting draft .role (.text text) = some { draft with role := some (some text) }) ∧
    (draft.value = none →
      withField? nesting draft .value (.text text) =
        some { draft with value := some (some text) }) := by
  refine ⟨fun free => ?_, fun free => ?_, fun free => ?_⟩ <;>
    simp [Json.text, withField?, Draft.has, free, optionalText?, text?]

/-- The fields in front of the child nodes. -/
theorem ofFields?_front (limit : Nat) (kind : String) (depth : Option UInt32)
    (role : Option String) (fields : List (List Nat × Json)) :
    ofFields? limit {} (Json.member "type" (.text kind) ::
        ((depth.toList.map fun depth => Json.member "depth" (.natural depth.toNat)) ++
          ((role.toList.map fun role => Json.member "role" (.text role)) ++ fields))) =
      ofFields? limit { kind := some kind, depth := depth.map some, role := role.map some }
        fields := by
  calc
    _ = ofFields? limit { kind := some kind }
        ((depth.toList.map fun depth => Json.member "depth" (.natural depth.toNat)) ++
          ((role.toList.map fun role => Json.member "role" (.text role)) ++ fields)) := by
      rw [← Field.name, ofFields?_member, (withField?_text limit kind).1 rfl, Option.bind_some]
    _ = ofFields? limit { kind := some kind, depth := depth.map some }
        ((role.toList.map fun role => Json.member "role" (.text role)) ++ fields) := by
      refine ofFields?_optional limit .depth depth _ (fun missing => by rw [missing]; rfl) ?_
      rintro given rfl
      exact withField?_depth limit rfl given
    _ = _ := by
      refine ofFields?_optional limit .role role fields (fun missing => by rw [missing]; rfl) ?_
      rintro given rfl
      exact (withField?_text limit given).2.1 rfl

/-- The field behind the child nodes. -/
theorem ofFields?_back (limit : Nat) {draft : Draft} (free : draft.value = none)
    (value : Option String) :
    ofFields? limit draft (value.toList.map fun value => Json.member "value" (.text value)) =
      some { draft with value := value.map some } := by
  rw [← List.append_nil (value.toList.map _)]
  refine (ofFields?_optional limit .value value [] (fun missing => ?_) ?_).trans rfl
  · rw [missing, Option.map_none, ← free]
  · rintro given rfl
    exact (withField?_text limit given).2.2 free

theorem join_map_some {α : Type} (value : Option α) : (value.map some).join = value := by
  cases value <;> rfl

mutual

/-- A wire node is read back from its JSON form exactly if it may nest as deep as it does. -/
theorem ofJson?_toJson : (wire : Wire) → (limit : Nat) →
    ofJson? limit wire.toJson = if wire.nesting ≤ limit then some wire else none
  | ⟨kind, depth, role, children, value⟩, 0 => by
    have object : ¬nesting ⟨kind, depth, role, children, value⟩ ≤ 0 := by
      cases children <;> simp [nesting]
    rw [if_neg object, toJson.eq_def, ofJson?]
  | ⟨kind, depth, role, none, value⟩, limit + 1 => by
    rw [toJson, ofJson?, List.append_nil, List.append_assoc, ofFields?_front,
      ofFields?_back limit rfl, nesting, if_pos (Nat.le_add_left 1 limit)]
    simp [Draft.finish?, join_map_some]
  | ⟨kind, depth, role, some children, value⟩, limit + 1 => by
    rw [toJson, ofJson?, List.append_assoc, List.append_assoc, ofFields?_front,
      List.singleton_append, ← Field.name, ofFields?_member]
    -- The object has spent one level already, and the array in it needs another.
    cases limit with
    | zero =>
      have deep : ¬nesting ⟨kind, depth, role, some children, value⟩ ≤ 1 := by
        rw [nesting]
        omega
      rw [if_neg deep, withField?, Option.bind_none, Option.bind_none]
    | succ limit =>
      have inner := ofItems?_toJsons children limit
      have budget : nesting ⟨kind, depth, role, some children, value⟩ ≤ limit + 1 + 1 ↔
          nestings children ≤ limit := by
        rw [nesting]
        omega
      rw [withField?, inner]
      by_cases fits : nestings children ≤ limit
      · simp only [fits, if_true, Option.map_some, Draft.has, budget]
        simp [ofFields?_back, Draft.finish?, join_map_some]
      · simp [fits, budget]

theorem ofItems?_toJsons : (wires : List Wire) → (limit : Nat) →
    ofItems? limit (toJsons wires) = if nestings wires ≤ limit then some wires else none
  | [], limit => by rw [toJsons, ofItems?, nestings, if_pos (Nat.zero_le limit)]
  | wire :: wires, limit => by
    have first := ofJson?_toJson wire limit
    have others := ofItems?_toJsons wires limit
    rw [toJsons, ofItems?, first, others, nestings]
    simp only [Nat.max_le]
    by_cases here : wire.nesting ≤ limit
    · by_cases later : nestings wires ≤ limit
      · simp [here, later]
      · simp [later]
    · simp [here]

end

/-- A wire node is read back from its text, in either style, if it nests within the limit. -/
theorem parse?_print (style : Json.Style) (wire : Wire) :
    parse? (wire.print style) = if wire.nesting ≤ nestingLimit then some wire else none := by
  rw [parse?, print, Json.print, String.toList_ofList, Json.parse?_write style (sound_toJson wire),
    Option.bind_some, ofJson?_toJson]

end RstPress.Wire

namespace RstPress
open RstPress.Tree

/-- A tree is read back from its JSON text, in either style, if it nests within the limit. The text of
a tree that nests deeper is not read. -/
theorem parseTree_treeText (libraries : Libraries) (style : Json.Style) (tree : Node) :
    parseTree libraries (treeText style tree) = if tree.nesting ≤ 127 then .ok tree
      else .error (.json (libraries.jsonReason (treeText style tree))) := by
  have made := Wire.toNode_of_canonical tree (Wire.canonical_ofNode tree)
  rw [parseTree, treeText, Wire.parse?_print, Wire.nesting_ofNode, Wire.nestingLimit]
  by_cases fits : tree.nesting ≤ 127
  · simp only [if_pos fits, made]
    rfl
  · simp only [if_neg fits]

end RstPress
