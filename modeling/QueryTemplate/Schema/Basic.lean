import QueryTemplate.Text.Basic

/-! # Schemas

A schema describes tables by name. Where the descriptions come from, and how asking for them can
fail, is up to the provider.
-/

namespace QueryTemplate

structure SchemaColumn where
  name : Text
  comment : Text
  dbType : Text
  isPrimaryKey : Bool
  isAutoIncrement : Bool
deriving DecidableEq, Repr

structure SchemaTable where
  name : Text
  comment : Text
  columns : List SchemaColumn
deriving DecidableEq, Repr

def SchemaTable.column? (table : SchemaTable) (name : Text) : Option SchemaColumn :=
  table.columns.find? (·.name == name)

/-- Why a table is not described, or a schema file not loaded. -/
inductive SchemaCause where
  | tableNotFound (table : Text)
  | connection (reason : Text)
  | unreadable (reason : Text)
  | malformed
deriving DecidableEq, Repr

namespace SchemaCause

def message : SchemaCause → Text
  | tableNotFound table => "table not found: ".toList ++ table
  | connection reason => "connection error: ".toList ++ reason
  | unreadable reason => "IO error: ".toList ++ reason
  | malformed => "invalid schema file".toList

def code : SchemaCause → Text
  | tableNotFound _ => "E-SCHEMA-001".toList
  | connection _ => "E-SCHEMA-002".toList
  | unreadable _ => "E-SCHEMA-003".toList
  | malformed => "E-SCHEMA-004".toList

end SchemaCause

abbrev Provider := Text → Except SchemaCause SchemaTable

/-- A schema held in memory: its tables, no two of the same name. -/
structure Schema where
  tables : List SchemaTable
deriving DecidableEq, Repr

namespace Schema

def empty : Schema := ⟨[]⟩

/-- The schema with `table` in place of any table of its name. -/
def insert (table : SchemaTable) (schema : Schema) : Schema :=
  ⟨schema.tables.filter (·.name != table.name) ++ [table]⟩

/-- The schema of the given tables, of which the last one of each name counts. -/
def ofList (tables : List SchemaTable) : Schema :=
  tables.foldl (fun schema table => schema.insert table) empty

def size (schema : Schema) : Nat := schema.tables.length

def provider (schema : Schema) : Provider := fun name =>
  match schema.tables.find? (·.name == name) with
  | some table => .ok table
  | none => .error (.tableNotFound name)

end Schema

end QueryTemplate
