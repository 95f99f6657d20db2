import QueryTemplate.Directive.Header
import QueryTemplate.Fault.Lexical
import QueryTemplate.Token.Basic

/-! # Template faults

What can be wrong with the text of a template or a query: lexical faults, a structure that does
not hold together, and fields of unknown tables.
-/

namespace QueryTemplate

/-- How deep a fault lies: in the characters, in the structure, or in the meaning. -/
inductive FaultClass where
  | lexical
  | structural
  | semantic
deriving DecidableEq, Repr

def FaultClass.text : FaultClass → Text
  | lexical => "lexical".toList
  | structural => "structural".toList
  | semantic => "semantic".toList

/-- What a place in a template calls for. -/
inductive Expectation where
  | symbol (s : Symbol)
  | statement
  | select
  | field
  | columnName
  | columnReference
  | tableName
deriving DecidableEq, Repr

def Expectation.describe : Expectation → Text
  | symbol s => (TokenKind.symbol s).describe
  | statement => "SELECT, INSERT, UPDATE or DELETE".toList
  | select => "SELECT".toList
  | field => "field".toList
  | columnName => "column name".toList
  | columnReference => "column reference".toList
  | tableName => "table name".toList

/-- What stands in a place that calls for something else. -/
inductive Finding where
  | token (kind : TokenKind)
  | headerToken (kind : HeaderKind)
  | callWithoutColumn (function : Text)
deriving DecidableEq, Repr

def Finding.describe : Finding → Text
  | token kind => kind.describe
  | headerToken kind => kind.describe
  | callWithoutColumn function => '`' :: function ++ "(...)` without one".toList

/-- The parts of the clause of a loop behind its opening word. -/
inductive LoopPart where
  | element
  | inWord
  | collection
  | joinWord
  | separator
deriving DecidableEq, Repr

def LoopPart.describe : LoopPart → Text
  | element => "loop element name".toList
  | inWord => "`in`".toList
  | collection => "collection".toList
  | joinWord => "`join`".toList
  | separator => "quoted join separator".toList

inductive LoopFlaw where
  | missing (part : LoopPart)
  | mistaken (part : LoopPart) (found : HeaderKind)
  | surplus (found : HeaderKind)
deriving DecidableEq, Repr

def LoopFlaw.describe : LoopFlaw → Text
  | missing part => "expected ".toList ++ part.describe
  | mistaken part found =>
    "expected ".toList ++ part.describe ++ ", found ".toList ++ found.describe
  | surplus found =>
    "unexpected ".toList ++ found.describe ++
      " after join separator; a `for` clause has at most three parts".toList

/-- Why a template or a query is refused. -/
inductive TemplateCause where
  | lexical (cause : LexicalCause)
  | missingFrom
  | emptySelect
  | noTables
  | unexpectedToken (expected : Expectation) (found : Finding)
  | unexpectedEnd (expected : Expectation)
  | unsupportedStatement (found : TokenKind)
  | strayBlockEnd (block : BlockKind)
  | unclosedBlock (block : BlockKind)
  | mismatchedBlockEnd (block found : BlockKind)
  | unknownDirective (header : Text)
  | nestedDirective
  | emptyCondition
  | malformedLoop (flaw : LoopFlaw)
  | noDynamicSegment
  | directiveNotAllowed
  | unresolvedTable (field table : Text)
deriving DecidableEq, Repr

abbrev TemplateFault := Located TemplateCause

/-- A result that depends on the text of a template being in order. -/
abbrev Checked := Except TemplateFault

namespace TemplateCause

/-- A mark that does not pair: what it should be and what it is. -/
def unmatched (expected found : Text) : Text :=
  "unmatched directive: expected ".toList ++ expected ++ ", found ".toList ++ found

def message : TemplateCause → Text
  | lexical cause => cause.message
  | missingFrom => "missing FROM clause".toList
  | emptySelect => "empty SELECT clause".toList
  | noTables => "FROM clause names no table".toList
  | unexpectedToken expected found =>
    "unexpected token: expected ".toList ++ expected.describe ++ ", found ".toList ++
      found.describe
  | unexpectedEnd expected => "unexpected end of template: expected ".toList ++ expected.describe
  | unsupportedStatement found =>
    "unsupported statement: expected SELECT, INSERT, UPDATE or DELETE, found ".toList ++
      found.describe
  | strayBlockEnd block =>
    unmatched "`if` or `for`".toList (HeaderKind.closing block).describe
  | unclosedBlock block =>
    unmatched (HeaderKind.closing block).describe "end of template".toList
  | mismatchedBlockEnd block found =>
    unmatched (HeaderKind.closing block).describe (HeaderKind.closing found).describe
  | unknownDirective header => "unknown directive `".toList ++ header ++ ['`']
  | nestedDirective => "nested directives are not supported".toList
  | emptyCondition => "`if` directive has no condition".toList
  | malformedLoop flaw => "malformed `for` clause: ".toList ++ flaw.describe
  | noDynamicSegment => "template declared dynamic but contains no dynamic directive".toList
  | directiveNotAllowed => "directive in a template not declared dynamic".toList
  | unresolvedTable field table =>
    "field `".toList ++ field ++ "` refers to unknown table `".toList ++ table ++ ['`']

def faultClass : TemplateCause → FaultClass
  | lexical _ => .lexical
  | unresolvedTable _ _ => .semantic
  | _ => .structural

def code : TemplateCause → Text
  | lexical cause => cause.code
  | missingFrom => "E-STRUCT-001".toList
  | emptySelect => "E-STRUCT-002".toList
  | noTables => "E-STRUCT-003".toList
  | unexpectedToken _ _ => "E-STRUCT-004".toList
  | unexpectedEnd _ => "E-STRUCT-005".toList
  | unsupportedStatement _ => "E-STRUCT-006".toList
  | strayBlockEnd _ | unclosedBlock _ | mismatchedBlockEnd _ _ => "E-STRUCT-007".toList
  | unknownDirective _ => "E-STRUCT-008".toList
  | nestedDirective => "E-STRUCT-009".toList
  | emptyCondition => "E-STRUCT-010".toList
  | malformedLoop _ => "E-STRUCT-011".toList
  | noDynamicSegment => "E-STRUCT-012".toList
  | directiveNotAllowed => "E-STRUCT-013".toList
  | unresolvedTable _ _ => "E-SEM-001".toList

end TemplateCause

def LexicalFault.inTemplate (fault : LexicalFault) : TemplateFault := fault.map .lexical

end QueryTemplate
