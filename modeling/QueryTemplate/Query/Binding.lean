import QueryTemplate.Fault.Template
import QueryTemplate.Query.Basic

/-! # Binding fields to tables

A field without qualifier belongs to the first table. A qualifier that is the name of a table
stays; one that is the alias of tables becomes the name of the last of them.
-/

namespace QueryTemplate

namespace QueryTable

/-- The name of the table that a qualifier means, with `first` the first of all `tables`. -/
def resolve? (first : QueryTable) (tables : List QueryTable) : Option Text → Option Text
  | none => some first.name
  | some qualifier =>
    if tables.any (·.name == qualifier) then some qualifier
    else (tables.reverse.find? (·.aliasName == some qualifier)).map (·.name)

end QueryTable

namespace QueryField

/-- The fields bound to tables from left to right, up to the first one whose qualifier means no
table, which gives the fault. -/
def bindTo (first : QueryTable) (tables : List QueryTable) :
    List QueryField → List QueryField × Option TemplateFault
  | [] => ([], none)
  | f :: rest =>
    match first.resolve? tables f.table with
    | none => (f :: rest, some ⟨.unresolvedTable f.name (f.table.getD []), f.span⟩)
    | some table =>
      let (bound, fault) := bindTo first tables rest
      ({ f with table := some table } :: bound, fault)

/-- The fields bound to `tables`; without tables there is nothing to bind them to. -/
def bindAll (tables : List QueryTable) (fields : List QueryField) :
    List QueryField × Option TemplateFault :=
  match tables with
  | [] => (fields, none)
  | first :: _ => bindTo first tables fields

end QueryField

end QueryTemplate
