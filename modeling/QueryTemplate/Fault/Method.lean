import QueryTemplate.Fault.Template
import QueryTemplate.Method.Basic
import QueryTemplate.Schema.Basic

/-! # Method faults

What can be wrong with a method of a template file: the file's division into methods, the header
of a method, its template, and what its result is declared and known to be.
-/

namespace QueryTemplate

inductive OptionKey where
  | exec
  | returns
  | dynamic
  | auto
deriving DecidableEq, Repr

namespace OptionKey

def text : OptionKey → Text
  | exec => "exec".toList
  | returns => "returns".toList
  | dynamic => "dynamic".toList
  | auto => "auto".toList

def ofText? (word : Text) : Option OptionKey :=
  [exec, returns, dynamic, auto].find? (·.text == word)

end OptionKey

inductive OptionFlaw where
  | repeated
  | execMissing
  | execUnknown (tag : Text)
  | returnsMissing
  | returnsMalformed (text : Text)
  | valueOnFlag
deriving DecidableEq, Repr

def OptionFlaw.describe : OptionFlaw → Text
  | repeated => "given more than once".toList
  | execMissing => "expected `exec=lastid|affect|result`".toList
  | execUnknown tag =>
    "unknown exec kind `".toList ++ tag ++ "`; expected lastid, affect or result".toList
  | returnsMissing => "expected `returns=<type>`".toList
  | returnsMalformed text => "malformed return type `".toList ++ text ++ ['`']
  | valueOnFlag => "flag takes no value".toList

/-- What a statement asks of the declared return type. -/
inductive ReturnDemand where
  | ofMutation (exec : ExecKind)
  | ofQuery
deriving DecidableEq, Repr

def ReturnDemand.describe : ReturnDemand → Text
  | ofMutation exec => exec.element.text ++ " for exec=".toList ++ exec.tag
  | ofQuery => "a record or scalar type for a SELECT".toList

/-- Why a template file is refused. -/
inductive MethodCause where
  | template (cause : TemplateCause)
  | textOutsideMethod
  | missingName
  | invalidName (name : Text)
  | emptyBody (method : Text)
  | duplicateMethod (method : Text) (first : Span)
  | unknownOption (key : Text)
  | invalidOption (key : OptionKey) (flaw : OptionFlaw)
  | missingReturnType
  | returnTypeMismatch (expected : ReturnDemand) (found : ReturnType)
  | autoOnMutation
  | autoNeedsRecord (found : ReturnType)
  | noSchema
  | schema (table : Text) (cause : SchemaCause)
  | missingColumn (table column : Text)
  | duplicateResultColumn (name : Text)
  | verbatimField (name : Text)
  | verbatimTable (table : Text)
deriving DecidableEq, Repr

abbrev MethodFault := Located MethodCause

def TemplateFault.inMethod (fault : TemplateFault) : MethodFault := fault.map .template

namespace MethodCause

def message : MethodCause → Text
  | template cause => cause.message
  | textOutsideMethod =>
    "text outside of a method block; start methods with `-- name: <Method>`".toList
  | missingName => "invalid method header: missing method name".toList
  | invalidName name =>
    "invalid method header: `".toList ++ name ++ "` is not a valid method name".toList
  | emptyBody method => "method `".toList ++ method ++ "` has an empty template".toList
  | duplicateMethod method _ => "duplicate method `".toList ++ method ++ ['`']
  | unknownOption key => "unknown option `".toList ++ key ++ ['`']
  | invalidOption key flaw =>
    "invalid option `".toList ++ key.text ++ "`: ".toList ++ flaw.describe
  | missingReturnType => "method returns nothing; declare `returns=<type>`".toList
  | returnTypeMismatch expected found =>
    "declared return shape mismatch: expected ".toList ++ expected.describe ++
      ", found ".toList ++ found.text
  | autoOnMutation => "`auto` only applies to queries".toList
  | autoNeedsRecord found => "`auto` needs a named record return type, found ".toList ++ found.text
  | noSchema => "`auto` needs table metadata but no schema is configured".toList
  | schema table cause =>
    "schema lookup for table `".toList ++ table ++ "` failed: ".toList ++ cause.message
  | missingColumn table column =>
    "column `".toList ++ column ++ "` not found in table `".toList ++ table ++ ['`']
  | duplicateResultColumn name =>
    "result field `".toList ++ name ++ "` appears more than once".toList
  | verbatimField name =>
    "`auto` cannot type field `".toList ++ name ++ "`: it is not a column reference".toList
  | verbatimTable table =>
    "`auto` cannot describe table `".toList ++ table ++
      "`: its name is substituted at run time".toList

def faultClass : MethodCause → FaultClass
  | template cause => cause.faultClass
  | textOutsideMethod | missingName | invalidName _ | emptyBody _ | duplicateMethod _ _ =>
    .structural
  | _ => .semantic

def code : MethodCause → Text
  | template cause => cause.code
  | textOutsideMethod => "E-STRUCT-101".toList
  | missingName | invalidName _ => "E-STRUCT-102".toList
  | emptyBody _ => "E-STRUCT-103".toList
  | duplicateMethod _ _ => "E-STRUCT-104".toList
  | unknownOption _ => "E-SEM-101".toList
  | invalidOption _ _ => "E-SEM-102".toList
  | missingReturnType => "E-SEM-103".toList
  | returnTypeMismatch _ _ => "E-SEM-104".toList
  | autoOnMutation => "E-SEM-105".toList
  | autoNeedsRecord _ => "E-SEM-106".toList
  | noSchema => "E-SEM-107".toList
  | schema _ _ => "E-SEM-108".toList
  | missingColumn _ _ => "E-SEM-109".toList
  | duplicateResultColumn _ => "E-SEM-110".toList
  | verbatimField _ => "E-SEM-111".toList
  | verbatimTable _ => "E-SEM-112".toList

end MethodCause

end QueryTemplate
