import QueryTemplate.Json.Record
import QueryTemplate.Method.Basic

/-! # Methods in JSON

Compiled methods and their parts have a written form in JSON, which keeps all that they hold.
-/

namespace QueryTemplate

open JsonValue

/-! ## Writing -/

def Span.toJson (s : Span) : JsonValue :=
  ofPairs [("start", ofNat s.start), ("end", ofNat s.stop)]

def Statement.jsonMembers (s : Statement) : List (String × JsonValue) :=
  [("text", ofText s.text), ("bind_params", ofList ofText s.bindParams),
   ("substitute_params", ofList ofText s.substituteParams)]

def Statement.toJson (s : Statement) : JsonValue := ofPairs s.jsonMembers

def Segment.toJson : Segment → JsonValue
  | constant body => ofPairs (("kind", ofText "constant".toList) :: body.jsonMembers)
  | conditional condition body =>
    ofPairs [("kind", ofText "if".toList), ("condition", ofText condition), ("body", body.toJson)]
  | loop element collection separator body =>
    ofPairs [("kind", ofText "for".toList), ("element", ofText element),
      ("collection", ofText collection), ("join_separator", ofOption ofText separator),
      ("body", body.toJson)]

def MethodBody.toJson : MethodBody → JsonValue
  | static statement =>
    ofPairs [("kind", ofText "static".toList), ("value", statement.toJson)]
  | dynamic segments =>
    ofPairs [("kind", ofText "dynamic".toList), ("value", ofList Segment.toJson segments)]

def QueryField.toJson (f : QueryField) : JsonValue :=
  ofPairs [("table", ofOption ofText f.table), ("name", ofText f.name),
    ("alias", ofOption ofText f.aliasName), ("is_aggregate", bool f.isAggregate),
    ("is_opaque", bool f.isVerbatim), ("span", f.span.toJson)]

def QueryTable.toJson (t : QueryTable) : JsonValue :=
  ofPairs [("name", ofText t.name), ("alias", ofOption ofText t.aliasName),
    ("is_opaque", bool t.isVerbatim), ("span", t.span.toJson)]

def QueryShape.toJson (s : QueryShape) : JsonValue :=
  ofPairs [("fields", ofList QueryField.toJson s.fields),
    ("tables", ofList QueryTable.toJson s.tables)]

def ExecKind.jsonName : ExecKind → Text
  | lastId => "last_id".toList
  | affect => "affect".toList
  | result => "result".toList

def ExecKind.toJson (e : ExecKind) : JsonValue := ofText e.jsonName

def StatementKind.toJson : StatementKind → JsonValue
  | singleRow => ofPairs [("kind", ofText "single_row".toList)]
  | multiRow => ofPairs [("kind", ofText "multi_row".toList)]
  | mutation exec => ofPairs [("kind", ofText "mutation".toList), ("exec", exec.toJson)]

def ElementType.toJson : ElementType → JsonValue
  | int64 => ofPairs [("kind", ofText "int64".toList)]
  | execResult => ofPairs [("kind", ofText "exec_result".toList)]
  | named name => ofPairs [("kind", ofText "named".toList), ("name", ofText name)]

def ReturnType.toJson (r : ReturnType) : JsonValue :=
  ofPairs [("kind", r.element.toJson), ("collection", bool r.isCollection)]

def ResultColumn.toJson (c : ResultColumn) : JsonValue :=
  ofPairs [("name", ofText c.name), ("db_type", ofText c.dbType), ("comment", ofText c.comment),
    ("source", ofText c.source)]

def ResultRecord.toJson (r : ResultRecord) : JsonValue :=
  ofPairs [("name", ofText r.name), ("fields", ofList ResultColumn.toJson r.columns)]

def Method.toJson (m : Method) : JsonValue :=
  ofPairs [("name", ofText m.name.name), ("owner_interface", ofOption ofText m.name.owner),
    ("is_mutation", bool m.isMutation), ("kind", m.kind.toJson), ("body", m.body.toJson),
    ("fields", ofList QueryField.toJson m.fields), ("tables", ofList QueryTable.toJson m.tables),
    ("declared_kind_tag", ofOption ofText m.execTag),
    ("returns", ofOption ReturnType.toJson m.returns),
    ("result_shape", ofOption ResultRecord.toJson m.resultRecord), ("span", m.span.toJson)]

/-! ## Reading -/

def Span.ofJson? (v : JsonValue) : Option Span := do
  let r ← JsonRecord.ofValue? ["start", "end"] v
  return ⟨← r.get? "start" nat?, ← r.get? "end" nat?⟩

def Statement.ofJson? (v : JsonValue) : Option Statement := do
  let r ← JsonRecord.ofValue? ["text", "bind_params", "substitute_params"] v
  return ⟨← r.get? "text" text?, ← r.get? "bind_params" (list? text?),
    ← r.get? "substitute_params" (list? text?)⟩

/-- The segment that a value with `outer` arrays and objects around it writes; `isKept` tells
whether the value has been kept until the name of a variant was known. -/
def Segment.ofJson? (isKept : Bool) (outer : Nat) (v : JsonValue) : Option Segment := do
  let variant ← JsonVariant.ofInline? "kind" ["constant", "if", "for"] isKept outer v
  if variant.name = "constant".toList then
    return constant (← variant.get? Statement.ofJson?)
  else if variant.name = "if".toList then
    let r ← variant.get? (JsonRecord.ofValue? ["condition", "body"])
    return conditional (← r.get? "condition" text?) (← r.get? "body" Statement.ofJson?)
  else if variant.name = "for".toList then
    let r ← variant.get?
      (JsonRecord.ofValue? ["element", "collection", "join_separator", "body"])
    return loop (← r.get? "element" text?) (← r.get? "collection" text?)
      (← r.getOption? "join_separator" text?) (← r.get? "body" Statement.ofJson?)
  else none

def MethodBody.ofJson? (outer : Nat) (v : JsonValue) : Option MethodBody := do
  let variant ← JsonVariant.ofValue? "kind" "value" outer v
  if variant.name = "static".toList then
    return static (← variant.get? Statement.ofJson?)
  else if variant.name = "dynamic".toList then
    return dynamic (← variant.get? (list? (Segment.ofJson? variant.isKept (outer + 2))))
  else none

def QueryField.ofJson? (v : JsonValue) : Option QueryField := do
  let r ← JsonRecord.ofValue? ["table", "name", "alias", "is_aggregate", "is_opaque", "span"] v
  return ⟨← r.getOption? "table" text?, ← r.get? "name" text?, ← r.getOption? "alias" text?,
    ← r.get? "is_aggregate" bool?, ← r.getD? "is_opaque" false bool?,
    ← r.get? "span" Span.ofJson?⟩

def QueryTable.ofJson? (v : JsonValue) : Option QueryTable := do
  let r ← JsonRecord.ofValue? ["name", "alias", "is_opaque", "span"] v
  return ⟨← r.get? "name" text?, ← r.getOption? "alias" text?,
    ← r.getD? "is_opaque" false bool?, ← r.get? "span" Span.ofJson?⟩

def QueryShape.ofJson? (v : JsonValue) : Option QueryShape := do
  let r ← JsonRecord.ofValue? ["fields", "tables"] v
  return ⟨← r.get? "fields" (list? QueryField.ofJson?),
    ← r.get? "tables" (list? QueryTable.ofJson?)⟩

/-- The kind of execution that a value writes; `isKept` tells whether the value has been kept until
the name of a variant was known. -/
def ExecKind.ofJson? (isKept : Bool) (v : JsonValue) : Option ExecKind := do
  let name ← JsonVariant.name? isKept v
  [lastId, affect, result].find? (·.jsonName == name)

def StatementKind.ofJson? (outer : Nat) (v : JsonValue) : Option StatementKind := do
  let variant ← JsonVariant.ofValue? "kind" "exec" outer v
  if variant.name = "single_row".toList then
    if variant.isEmpty then return singleRow else none
  else if variant.name = "multi_row".toList then
    if variant.isEmpty then return multiRow else none
  else if variant.name = "mutation".toList then
    return mutation (← variant.get? (ExecKind.ofJson? variant.isKept))
  else none

def ElementType.ofJson? (outer : Nat) (v : JsonValue) : Option ElementType := do
  let variant ← JsonVariant.ofValue? "kind" "name" outer v
  if variant.name = "int64".toList then
    if variant.isEmpty then return int64 else none
  else if variant.name = "exec_result".toList then
    if variant.isEmpty then return execResult else none
  else if variant.name = "named".toList then
    return named (← variant.get? text?)
  else none

def ReturnType.ofJson? (outer : Nat) (v : JsonValue) : Option ReturnType := do
  let r ← JsonRecord.ofValue? ["kind", "collection"] v
  return ⟨← r.get? "kind" (ElementType.ofJson? (outer + 1)), ← r.get? "collection" bool?⟩

def ResultColumn.ofJson? (v : JsonValue) : Option ResultColumn := do
  let r ← JsonRecord.ofValue? ["name", "db_type", "comment", "source"] v
  return ⟨← r.get? "name" text?, ← r.get? "db_type" text?, ← r.get? "comment" text?,
    ← r.get? "source" text?⟩

def ResultRecord.ofJson? (v : JsonValue) : Option ResultRecord := do
  let r ← JsonRecord.ofValue? ["name", "fields"] v
  return ⟨← r.get? "name" text?, ← r.get? "fields" (list? ResultColumn.ofJson?)⟩

def Method.ofJson? (v : JsonValue) : Option Method := do
  let r ← JsonRecord.ofValue? ["name", "owner_interface", "is_mutation", "kind", "body", "fields",
    "tables", "declared_kind_tag", "returns", "result_shape", "span"] v
  return {
    name := ⟨← r.getOption? "owner_interface" text?, ← r.get? "name" text?⟩
    isMutation := ← r.get? "is_mutation" bool?
    kind := ← r.get? "kind" (StatementKind.ofJson? 1)
    body := ← r.get? "body" (MethodBody.ofJson? 1)
    fields := ← r.get? "fields" (list? QueryField.ofJson?)
    tables := ← r.get? "tables" (list? QueryTable.ofJson?)
    execTag := ← r.getOption? "declared_kind_tag" text?
    returns := ← r.getOption? "returns" (ReturnType.ofJson? 1)
    resultRecord := ← r.getOption? "result_shape" ResultRecord.ofJson?
    span := ← r.get? "span" Span.ofJson? }

end QueryTemplate
