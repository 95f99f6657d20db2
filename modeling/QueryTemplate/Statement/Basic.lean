import QueryTemplate.Text.Space

/-! # Statements

A statement is query text in which every placeholder has been replaced by a marker, together
with the names of the placeholders. A placeholder is either bound, that is sent beside the text,
or substituted, that is written into the text.
-/

namespace QueryTemplate

/-- What a placeholder stands for. -/
inductive Placeholder where
  | bind
  | substitute
deriving DecidableEq, Repr

structure Markers where
  bind : Text
  substitute : Text
deriving DecidableEq, Repr

namespace Markers

/-- A question mark for a bound value, a formatting verb for a substituted one. -/
def standard : Markers := ⟨['?'], ['%', 'v']⟩

def text (markers : Markers) : Placeholder → Text
  | .bind => markers.bind
  | .substitute => markers.substitute

end Markers

/-- Query text with markers, and the names of its placeholders of either sort in order. -/
structure Statement where
  text : Text
  bindParams : List Text
  substituteParams : List Text
deriving DecidableEq, Repr

namespace Statement

def isEmpty (s : Statement) : Bool := s.text.isEmpty

def paramCount (s : Statement) : Nat := s.bindParams.length + s.substituteParams.length

end Statement

end QueryTemplate
