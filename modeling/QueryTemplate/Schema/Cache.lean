import QueryTemplate.Schema.Basic

/-! # Caching descriptions

A cache keeps the descriptions that a provider has given, so that a table is asked for once. A
failure is not kept. The cache also records every name that it has asked the provider for.
-/

namespace QueryTemplate

/-- The descriptions kept, by the name they were asked by, and the names asked for so far. -/
structure SchemaCache where
  entries : List (Text × SchemaTable)
  asked : List Text
deriving DecidableEq, Repr

namespace SchemaCache

def empty : SchemaCache := ⟨[], []⟩

def find? (cache : SchemaCache) (name : Text) : Option SchemaTable :=
  (cache.entries.find? (·.1 == name)).map (·.2)

def size (cache : SchemaCache) : Nat := cache.entries.length

/-- The description of a table: the one kept, or else the provider's answer, which is kept. -/
def describe (provider : Provider) (name : Text) :
    StateM SchemaCache (Except SchemaCause SchemaTable) := fun cache =>
  match cache.find? name with
  | some table => (.ok table, cache)
  | none =>
    let asked := cache.asked ++ [name]
    match provider name with
    | .ok table => (.ok table, ⟨(name, table) :: cache.entries, asked⟩)
    | .error cause => (.error cause, { cache with asked := asked })

def invalidate (name : Text) (cache : SchemaCache) : SchemaCache :=
  { cache with entries := cache.entries.filter (·.1 != name) }

def clear (cache : SchemaCache) : SchemaCache := { cache with entries := [] }

end SchemaCache

end QueryTemplate
