import QueryTemplate.Fault.Method
import QueryTemplate.Schema.Cache

/-! # Deriving result records

The record type of a query's rows is derived from its fields and the schema: a count gives a
number, a wildcard all columns of its table, and any other field the column it names. Literals
and placeholders have no type that the schema knows. No two columns may have the same name.
-/

namespace QueryTemplate

namespace ResultRecord

/-- A derivation consults the schema through a cache, which remains when a fault ends it. -/
abbrev Derivation (α : Type) := ExceptT MethodFault (StateM SchemaCache) α

def countType : Text := "BIGINT".toList

/-- The result column that shows a column of `table` under the given name. -/
def shown (table : SchemaTable) (name : Text) (column : SchemaColumn) : ResultColumn :=
  ⟨name, column.dbType, column.comment, table.name ++ '.' :: column.name⟩

def expand (provider : Provider) (tables : List QueryTable) (field : QueryField) :
    Derivation (List ResultColumn) := do
  let fault (cause : MethodCause) : MethodFault := ⟨cause, field.span⟩
  if field.isAggregate then return [⟨field.outputName, countType, [], field.name⟩]
  if field.isVerbatim then throw (fault (.verbatimField field.name))
  let name := field.table.getD []
  if tables.any fun t => t.isVerbatim && t.name == name then throw (fault (.verbatimTable name))
  match ← (SchemaCache.describe provider name : StateM SchemaCache _) with
  | .error cause => throw (fault (.schema name cause))
  | .ok table =>
    if field.isWildcard then
      return table.columns.map fun column => shown table column.name column
    match table.column? field.name with
    | some column => return [shown table field.outputName column]
    | none => throw (fault (.missingColumn name field.name))

/-- The columns of a record so far with one more, whose name has to be new. -/
def addColumn (span : Span) (columns : List ResultColumn) (column : ResultColumn) :
    Except MethodFault (List ResultColumn) :=
  if columns.any (·.name == column.name) then .error ⟨.duplicateResultColumn column.name, span⟩
  else .ok (columns ++ [column])

def addField (provider : Provider) (tables : List QueryTable) (columns : List ResultColumn)
    (field : QueryField) : Derivation (List ResultColumn) := do
  let more ← expand provider tables field
  ExceptT.mk (pure (more.foldlM (addColumn field.span) columns))

def derive (provider : Provider) (name : Text) (fields : List QueryField)
    (tables : List QueryTable) : Derivation ResultRecord := do
  return ⟨name, ← fields.foldlM (addField provider tables) []⟩

end ResultRecord

end QueryTemplate
