import RstPress.Json.Token

/-!
Tokens are read one after the other with a stack of the containers that are still open, so values may be
nested to any depth. Each token either leads to the next state or shows that the text is no value.
-/

namespace RstPress.Json

/-- A container with an item or a field still to come. The finished ones are kept in reverse. -/
inductive Frame where
  | array (items : List Json)
  | object (fields : List (List Nat × Json)) (key : List Nat)

/-- What is due next. -/
inductive State where
  | value (stack : List Frame)
  | firstItem (stack : List Frame)
  | firstKey (stack : List Frame)
  | key (fields : List (List Nat × Json)) (stack : List Frame)
  | colon (fields : List (List Nat × Json)) (key : List Nat) (stack : List Frame)
  | ended (value : Json) (stack : List Frame)

/-- The token with which a value begins. -/
def begin? (stack : List Frame) : Token → Option State
  | .null => some (.ended .null stack)
  | .bool value => some (.ended (.bool value) stack)
  | .number spelling => some (.ended (.number spelling) stack)
  | .string points => some (.ended (.string points) stack)
  | .openArray => some (.firstItem stack)
  | .openObject => some (.firstKey stack)
  | .closeArray | .closeObject | .comma | .colon => none

/-- The token after a value, in the container around it. -/
def continue? (value : Json) : List Frame → Token → Option State
  | .array items :: stack, .comma => some (.value (.array (value :: items) :: stack))
  | .array items :: stack, .closeArray => some (.ended (.array (value :: items).reverse) stack)
  | .object fields key :: stack, .comma => some (.key ((key, value) :: fields) stack)
  | .object fields key :: stack, .closeObject => some (.ended (.object ((key, value) :: fields).reverse) stack)
  | _, _ => none

def State.step : State → Token → Option State
  | .value stack, token => begin? stack token
  | .firstItem stack, .closeArray => some (.ended (.array []) stack)
  | .firstItem stack, token => begin? (.array [] :: stack) token
  | .firstKey stack, .closeObject => some (.ended (.object []) stack)
  | .firstKey stack, .string name => some (.colon [] name stack)
  | .firstKey _, _ => none
  | .key fields stack, .string name => some (.colon fields name stack)
  | .key _ _, _ => none
  | .colon fields name stack, .colon => some (.value (.object fields name :: stack))
  | .colon _ _ _, _ => none
  | .ended finished stack, token => continue? finished stack token

def State.run (state : State) : List Token → Option State
  | [] => some state
  | token :: tokens => (state.step token).bind fun next => next.run tokens

/-- The value that is complete in this state. -/
def State.result? : State → Option Json
  | .ended finished [] => some finished
  | _ => none

/-- The value of a whole text. -/
def parse? (text : List Char) : Option Json := do
  let found ← tokens text
  let state ← (State.value []).run found
  state.result?

end RstPress.Json
