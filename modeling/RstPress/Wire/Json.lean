import RstPress.Json.Read
import RstPress.Json.Write
import RstPress.Wire.Node

/-!
The JSON form of wire nodes. A node is an object whose fields are those it has; fields of other names
are skipped. It may also be an array of the five fields in their order, the last of which may be left
out. Objects and arrays of nodes nest to a fixed limit; skipped values do not count.
-/

namespace RstPress.Wire

inductive Field where
  | kind
  | depth
  | role
  | children
  | value
deriving DecidableEq, Repr

def Field.all : List Field := [kind, depth, role, children, value]

def Field.name : Field → String
  | kind => "type"
  | depth => "depth"
  | role => "role"
  | children => "children"
  | value => "value"

def Field.ofName? (name : String) : Option Field := all.find? fun field => field.name = name

/-- The fields of a node as far as they are read. A field can be present and empty. -/
structure Draft where
  kind : Option String := none
  depth : Option (Option UInt32) := none
  role : Option (Option String) := none
  children : Option (Option (List Wire)) := none
  value : Option (Option String) := none

def Draft.has (draft : Draft) : Field → Bool
  | .kind => draft.kind.isSome
  | .depth => draft.depth.isSome
  | .role => draft.role.isSome
  | .children => draft.children.isSome
  | .value => draft.value.isSome

/-- Every node has a type; its other fields may be missing. -/
def Draft.finish? (draft : Draft) : Option Wire :=
  draft.kind.map fun kind =>
    { kind, depth := draft.depth.join, role := draft.role.join, children := draft.children.join,
      value := draft.value.join }

def text? : Json → Option String
  | .string points => Json.text? points
  | _ => none

def optionalText? : Json → Option (Option String)
  | .null => some none
  | other => (text? other).map some

/-- A natural number that fits into 32 bits. -/
def word? : Json → Option UInt32
  | .number spelling =>
    (Json.natural? spelling).bind fun value => if value < UInt32.size then some (.ofNat value) else none
  | _ => none

def optionalWord? : Json → Option (Option UInt32)
  | .null => some none
  | other => (word? other).map some

/-- How deep arrays and objects of nodes may nest. -/
def nestingLimit : Nat := 127

mutual

/-- The wire node of a value that may nest as deep as given. -/
def ofJson? (nesting : Nat) : Json → Option Wire
  | .object fields =>
    match nesting with
    | 0 => none
    | nesting + 1 => (ofFields? nesting {} fields).bind Draft.finish?
  | .array items =>
    match nesting with
    | 0 => none
    | nesting + 1 => (ofPositions? nesting {} Field.all items).bind Draft.finish?
  | .null | .bool _ | .number _ | .string _ => none

/-- Adds a field that the draft does not have yet. -/
def withField? (nesting : Nat) (draft : Draft) (field : Field) : Json → Option Draft
  | .array items =>
    match nesting with
    | 0 => none
    | nesting + 1 =>
      if field = .children && !draft.has .children then
        (ofItems? nesting items).map fun children => { draft with children := some (some children) }
      else none
  | other =>
    if draft.has field then none
    else match field with
      | .kind => (text? other).map fun kind => { draft with kind := some kind }
      | .depth => (optionalWord? other).map fun depth => { draft with depth := some depth }
      | .role => (optionalText? other).map fun role => { draft with role := some role }
      | .value => (optionalText? other).map fun value => { draft with value := some value }
      | .children =>
        match other with
        | .null => some { draft with children := some none }
        | _ => none

/-- Reads the fields of an object. -/
def ofFields? (nesting : Nat) (draft : Draft) : List (List Nat × Json) → Option Draft
  | [] => some draft
  | (key, value) :: fields =>
    (Json.text? key).bind fun name =>
      match Field.ofName? name with
      | none => ofFields? nesting draft fields
      | some field => (withField? nesting draft field value).bind fun draft => ofFields? nesting draft fields

/-- Reads fields given by their places. -/
def ofPositions? (nesting : Nat) (draft : Draft) (places : List Field) : List Json → Option Draft
  | [] => some draft
  | value :: values =>
    match places with
    | [] => none
    | field :: places =>
      (withField? nesting draft field value).bind fun draft => ofPositions? nesting draft places values

def ofItems? (nesting : Nat) : List Json → Option (List Wire)
  | [] => some []
  | item :: items =>
    (ofJson? nesting item).bind fun wire => (ofItems? nesting items).map fun wires => wire :: wires

end

mutual

/-- The JSON form of a wire node: the fields it has, in their order. -/
def toJson : Wire → Json
  | ⟨kind, depth, role, children, value⟩ =>
    .object (Json.member "type" (.text kind) ::
      ((depth.toList.map fun depth => Json.member "depth" (.natural depth.toNat)) ++
        (role.toList.map fun role => Json.member "role" (.text role)) ++
        (match children with
          | none => []
          | some children => [Json.member "children" (.array (toJsons children))]) ++
        (value.toList.map fun value => Json.member "value" (.text value))))

def toJsons : List Wire → List Json
  | [] => []
  | wire :: wires => toJson wire :: toJsons wires

end

/-- Reads a wire node from JSON text. -/
def parse? (text : String) : Option Wire := (Json.parse? text.toList).bind (ofJson? nestingLimit)

def print (style : Json.Style) (wire : Wire) : String := wire.toJson.print style

end RstPress.Wire
