import QueryTemplate.Query.Basic
import QueryTemplate.Segment.Basic

/-! # Methods

A method is a named query or mutation of a template file, compiled to what is needed to emit
code for it.
-/

namespace QueryTemplate

/-- What a mutation returns: the last inserted id, the number of rows affected, or the result of
the execution as the driver gives it. -/
inductive ExecKind where
  | lastId
  | affect
  | result
deriving DecidableEq, Repr

/-- What the statement of a method yields. -/
inductive StatementKind where
  | singleRow
  | multiRow
  | mutation (exec : ExecKind)
deriving DecidableEq, Repr

def StatementKind.isMutation : StatementKind → Bool
  | mutation _ => true
  | _ => false

/-- What a returned value, or each of a collection of returned values, is. -/
inductive ElementType where
  | int64
  | execResult
  | named (name : Text)
deriving DecidableEq, Repr

structure ReturnType where
  element : ElementType
  isCollection : Bool
deriving DecidableEq, Repr

/-- A column of a result record: its name in the result, its database type and comment, and the
column it comes from. -/
structure ResultColumn where
  name : Text
  dbType : Text
  comment : Text
  source : Text
deriving DecidableEq, Repr

structure ResultRecord where
  name : Text
  columns : List ResultColumn
deriving DecidableEq, Repr

/-- The text of a method: one statement, or the segments it is put together from. -/
inductive MethodBody where
  | static (statement : Statement)
  | dynamic (segments : List Segment)
deriving DecidableEq, Repr

def MethodBody.statements : MethodBody → List Statement
  | static statement => [statement]
  | dynamic segments => segments.map Segment.body

structure MethodName where
  owner : Option Text
  name : Text
deriving DecidableEq, Repr

/-- The owner, a dot and the name, or the name alone. -/
def MethodName.qualified (n : MethodName) : Text :=
  match n.owner with
  | some owner => owner ++ '.' :: n.name
  | none => n.name

/-- A compiled method. Fields and tables are those of a query; a mutation has none. `execTag` is
the kind of result asked for as it was written. -/
structure Method where
  name : MethodName
  isMutation : Bool
  kind : StatementKind
  body : MethodBody
  fields : List QueryField
  tables : List QueryTable
  execTag : Option Text
  returns : Option ReturnType
  resultRecord : Option ResultRecord
  span : Span
deriving DecidableEq, Repr

namespace ExecKind

def tag : ExecKind → Text
  | lastId => "lastid".toList
  | affect => "affect".toList
  | result => "result".toList

def ofTag? (tag : Text) : Option ExecKind :=
  [lastId, affect, result].find? (·.tag == tag)

/-- The type that a mutation of the kind has to return. -/
def element : ExecKind → ElementType
  | lastId | affect => .int64
  | result => .execResult

end ExecKind

namespace ElementType

def text : ElementType → Text
  | int64 => "i64".toList
  | execResult => "exec_result".toList
  | named name => name

end ElementType

namespace ReturnType

/-- The type as it is written, a collection between brackets. -/
def text (r : ReturnType) : Text :=
  if r.isCollection then '[' :: r.element.text ++ [']'] else r.element.text

end ReturnType

end QueryTemplate
