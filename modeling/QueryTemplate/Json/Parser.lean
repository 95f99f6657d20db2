import QueryTemplate.Json.Token

/-! # Reading JSON

Values are built from tokens with a stack of the arrays and objects that are still open, so the
depth of a text is not limited. A text has to hold one value and nothing else.
-/

namespace QueryTemplate

/-- An array or object whose end has not been read. Its parts so far are in reverse order; the
part that is being read belongs to the last key of an object. -/
inductive OpenValue where
  | array (items : List JsonValue)
  | object (members : List (JsonText × JsonValue)) (key : JsonText)

namespace JsonValue

mutual

/-- Reads on where a value has to begin. -/
def beginValue (stack : List OpenValue) : List JsonToken → Option JsonValue
  | .null :: rest => endValue stack null rest
  | .bool b :: rest => endValue stack (bool b) rest
  | .number n :: rest => endValue stack (number n) rest
  | .string s :: rest => endValue stack (string s) rest
  | .openBracket :: .closeBracket :: rest => endValue stack (array []) rest
  | .openBracket :: rest => beginValue (.array [] :: stack) rest
  | .openBrace :: .closeBrace :: rest => endValue stack (object []) rest
  | .openBrace :: .string key :: .colon :: rest => beginValue (.object [] key :: stack) rest
  | _ => none

/-- Reads on behind a value. -/
def endValue (stack : List OpenValue) (value : JsonValue) : List JsonToken → Option JsonValue
  | [] => if stack.isEmpty then some value else none
  | .comma :: .string key :: .colon :: rest =>
    match stack with
    | .object members last :: stack =>
      beginValue (.object ((last, value) :: members) key :: stack) rest
    | _ => none
  | .comma :: rest =>
    match stack with
    | .array items :: stack => beginValue (.array (value :: items) :: stack) rest
    | _ => none
  | .closeBracket :: rest =>
    match stack with
    | .array items :: stack => endValue stack (array (value :: items).reverse) rest
    | _ => none
  | .closeBrace :: rest =>
    match stack with
    | .object members last :: stack =>
      endValue stack (object ((last, value) :: members).reverse) rest
    | _ => none
  | _ => none

end

def parse? (text : Text) : Option JsonValue := do
  beginValue [] (← JsonToken.scan? text)

end JsonValue

end QueryTemplate
