import QueryTemplate.Json.Record
import QueryTemplate.Schema.Basic

/-! # Schema files

A schema can be kept in a file, as a JSON record of its tables.
-/

namespace QueryTemplate

open JsonValue

def SchemaColumn.ofJson? (v : JsonValue) : Option SchemaColumn := do
  let r ← JsonRecord.ofValue?
    ["name", "comment", "db_type", "is_primary_key", "is_auto_increment"] v
  return ⟨← r.get? "name" text?, ← r.getD? "comment" [] text?, ← r.get? "db_type" text?,
    ← r.getD? "is_primary_key" false bool?, ← r.getD? "is_auto_increment" false bool?⟩

def SchemaTable.ofJson? (v : JsonValue) : Option SchemaTable := do
  let r ← JsonRecord.ofValue? ["name", "comment", "columns"] v
  return ⟨← r.get? "name" text?, ← r.getD? "comment" [] text?,
    ← r.get? "columns" (list? SchemaColumn.ofJson?)⟩

def Schema.tablesOfJson? (v : JsonValue) : Option (List SchemaTable) := do
  let r ← JsonRecord.ofValue? ["tables"] v
  r.get? "tables" (list? SchemaTable.ofJson?)

def Schema.ofFileText (text : Text) : Except SchemaCause Schema :=
  match JsonValue.parse? text >>= tablesOfJson? with
  | some tables => .ok (ofList tables)
  | none => .error .malformed

end QueryTemplate
