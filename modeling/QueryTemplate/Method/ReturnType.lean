import QueryTemplate.Method.Basic
import QueryTemplate.Text.Numeral

/-! # Reading return types

A return type is a name or, for a collection, a name between brackets. Three names stand for the
types that mutations return.
-/

namespace QueryTemplate

namespace ElementType

def isNameChar (c : Char) : Bool :=
  Text.isLetterOrNumeral c || c == '_' || c == '.' || c == ':' || c == '*'

def ofName (name : Text) : ElementType :=
  if name = "i64".toList ∨ name = "int64".toList then int64
  else if name = "exec_result".toList then execResult
  else named name

/-- The type that a text names, if it can be a name. -/
def parse? (name : Text) : Option ElementType :=
  if name ≠ [] ∧ name.all isNameChar then some (ofName name) else none

end ElementType

namespace ReturnType

def parse? : Text → Option ReturnType
  | '[' :: rest =>
    if rest.getLast? = some ']' then (ElementType.parse? rest.dropLast).map (⟨·, true⟩) else none
  | name => (ElementType.parse? name).map (⟨·, false⟩)

end ReturnType

end QueryTemplate
