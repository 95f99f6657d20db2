import QueryTemplate.Span

/-! # The shape of a query

The shape of a query is what it selects and from where: its fields in the order of the select
list, and the tables that its clauses name.
-/

namespace QueryTemplate

/-- A field of a select list. `table` is the qualifier as written until the field is bound to a
table, and the name of that table from then on. A verbatim field is not a column: its name is the
text of a literal or placeholder. -/
structure QueryField where
  table : Option Text
  name : Text
  aliasName : Option Text
  isAggregate : Bool
  isVerbatim : Bool
  span : Span
deriving DecidableEq, Repr

/-- A table that a query reads. The name of a verbatim table is the text of a placeholder. -/
structure QueryTable where
  name : Text
  aliasName : Option Text
  isVerbatim : Bool
  span : Span
deriving DecidableEq, Repr

structure QueryShape where
  fields : List QueryField
  tables : List QueryTable
deriving DecidableEq, Repr

namespace QueryField

/-- The name of a field that stands for all columns. -/
def wildcardName : Text := ['*']

def countName : Text := "count".toList

/-- A column without qualifier and alias. -/
def column (name : Text) (span : Span) : QueryField := ⟨none, name, none, false, false, span⟩

/-- A literal or placeholder. -/
def verbatim (text : Text) (span : Span) : QueryField := ⟨none, text, none, false, true, span⟩

def count (span : Span) : QueryField := ⟨none, countName, none, true, false, span⟩

/-- The name that the field has in the result: its alias, or else its own name. -/
def outputName (f : QueryField) : Text := f.aliasName.getD f.name

def isWildcard (f : QueryField) : Bool := f.name == wildcardName

end QueryField

namespace QueryShape

def empty : QueryShape := ⟨[], []⟩

end QueryShape

end QueryTemplate
