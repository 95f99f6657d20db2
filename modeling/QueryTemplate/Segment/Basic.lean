import QueryTemplate.Statement.Basic

/-! # Segments

The text of a dynamic query is put together from segments when it is run: text that is always
there, text that depends on a condition, and text that is repeated for the elements of a
collection.
-/

namespace QueryTemplate

/-- A part of a dynamic query. Conditions and collections are passed on as written. -/
inductive Segment where
  | constant (body : Statement)
  | conditional (condition : Text) (body : Statement)
  | loop (element collection : Text) (separator : Option Text) (body : Statement)
deriving DecidableEq, Repr

namespace Segment

def body : Segment → Statement
  | constant body => body
  | conditional _ body => body
  | loop _ _ _ body => body

/-- Whether the segment is decided when the query is run. -/
def isDynamic : Segment → Bool
  | constant _ => false
  | _ => true

end Segment

end QueryTemplate
