import QueryTemplate.Method.Classification
import QueryTemplate.Method.ResultRecord
import QueryTemplate.Method.Source
import QueryTemplate.Query.Analysis
import QueryTemplate.Segment.Division
import QueryTemplate.Text.Path
import QueryTemplate.Text.Position

/-! # Compiling methods

A method is compiled by decoding its options, classifying its statement, resolving its template
and, for a query, analysing what it selects. A session goes from method to method: it knows the
names that have been taken, keeps the schema cache, and collects warnings. All of it remains when
a method is refused.
-/

namespace QueryTemplate

structure Compiler where
  markers : Markers
  provider : Option Provider

/-- Something odd that does not keep a method from being compiled. -/
inductive Warning where
  | execIgnored (exec : ExecKind)
deriving DecidableEq, Repr

/-- The methods named so far, each with the place of its name, the schema cache, and the warnings
given so far. -/
structure Session where
  names : List (Text × Span)
  cache : SchemaCache
  warnings : List Warning
deriving DecidableEq, Repr

def Session.empty : Session := ⟨[], .empty, []⟩

structure CompiledFile where
  location : Path
  methods : List Method
deriving DecidableEq, Repr

def CompiledFile.path (file : CompiledFile) : Text := file.location.shown

/-- Why a file is refused, and where in the file that shows. -/
structure FileFault where
  location : Path
  position : Position
  offset : Nat
  fault : MethodFault
deriving DecidableEq, Repr

namespace FileFault

def path (f : FileFault) : Text := f.location.shown

def locate (path : Path) (text : Text) (fault : MethodFault) : FileFault :=
  let offset := min fault.span.start (Text.size text)
  ⟨path, .ofOffset text offset, offset, fault⟩

def summary (f : FileFault) : Text :=
  f.fault.value.faultClass.text ++ " error: ".toList ++ f.fault.value.message

/-- The fault in words, with the file, the position and the code. -/
def message (f : FileFault) : Text :=
  f.path ++ ':' :: (Nat.toDigits 10 f.position.line) ++ ':' ::
    (Nat.toDigits 10 f.position.column) ++ ": ".toList ++ f.fault.value.faultClass.text ++
    " error [".toList ++ f.fault.value.code ++ "]: ".toList ++ f.fault.value.message

end FileFault

/-- A step of a session, which can meet a fault and still leaves a session behind. -/
abbrev Compile (α : Type) := ExceptT MethodFault (StateM Session) α

namespace Compiler

/-- The settings without schema and with the standard markers. -/
def standard : Compiler := ⟨.standard, none⟩

/-- Takes the name of a method, which has to be new. -/
def takeName (source : MethodSource) : Compile Unit := do
  let name := source.name.qualified
  match (← get).names.find? (·.1 == name) with
  | some (_, first) => throw ⟨.duplicateMethod name first, source.nameSpan⟩
  | none => modify fun s => { s with names := (name, source.nameSpan) :: s.names }

/-- Gives a warning if an option asks for a kind of execution that the statement does not have. -/
def warnExec (options : MethodOptions) (keyword : Keyword) : Compile Unit :=
  match options.exec with
  | some exec =>
    if keyword.isMutation then pure ()
    else modify fun s => { s with warnings := s.warnings ++ [.execIgnored exec.value] }
  | none => pure ()

/-- The body of a method: segments if it is declared dynamic, else one statement, in which no
directive is allowed. -/
def methodBody (markers : Markers) (isDynamic : Bool) (source : Fragment) : Checked MethodBody :=
  if isDynamic then (Segment.divide markers source).map .dynamic
  else
    match Directive.find? source.text with
    | some found =>
      let start := source.offset + found
      .error ⟨.directiveNotAllowed, ⟨start, start + Text.size Directive.opener⟩⟩
    | none => (Segment.resolve markers source).map .static

/-- The shape of a statement: that of a query, and an empty one for a mutation. -/
def statementShape (kind : StatementKind) (source : Fragment) : Checked QueryShape :=
  if kind.isMutation then .ok .empty else Query.shape .sql source

/-- The result record of a method, if it is declared automatic. -/
def resultRecord (compiler : Compiler) (auto : Option Span) (returns : ReturnType)
    (shape : QueryShape) : Compile (Option ResultRecord) :=
  match auto, compiler.provider with
  | none, _ => pure none
  | some span, none => throw ⟨.noSchema, span⟩
  | some _, some provider => fun session =>
    let (outcome, cache) :=
      (ResultRecord.derive provider returns.element.text shape.fields shape.tables).run.run
        session.cache
    (outcome.map some, { session with cache := cache })

/-- A step that depends on the template of a method only. -/
def inTemplate {α : Type} (x : Checked α) : Compile α :=
  ExceptT.mk (pure (x.mapError TemplateFault.inMethod))

def compileMethod (compiler : Compiler) (source : MethodSource) : Compile Method := do
  let options ← ExceptT.mk (pure (MethodOptions.decode source.options))
  takeName source
  if Text.isBlank source.body.text then
    throw ⟨.emptyBody source.name.qualified, source.headerSpan⟩
  let keyword ← inTemplate (Query.leadingKeyword .sql source.body)
  warnExec options keyword.value
  let (kind, returns) ← ExceptT.mk (pure (options.classify keyword))
  let body ← inTemplate (methodBody compiler.markers options.dynamic.isSome source.body)
  let shape ← inTemplate (statementShape kind source.body)
  let record ← compiler.resultRecord options.auto returns shape
  return {
    name := source.name
    isMutation := kind.isMutation
    kind := kind
    body := body
    fields := shape.fields
    tables := shape.tables
    execTag := options.exec.map (·.value.tag)
    returns := some returns
    resultRecord := record
    span := source.span }

/-- Compiles the methods of a file text. No name is taken beforehand. -/
def compileText (compiler : Compiler) (text : Text) : Compile (List Method) := do
  modify fun s => { s with names := [] }
  let sources ← ExceptT.mk (pure (MethodSource.split text))
  sources.mapM compiler.compileMethod

/-- Compiles a file. The first fault refuses all of it. -/
def compileFile (compiler : Compiler) (path : Path) (text : Text) :
    StateM Session (Except FileFault CompiledFile) := do
  match ← (compiler.compileText text).run with
  | .ok methods => return .ok ⟨path, methods⟩
  | .error fault => return .error (.locate path text fault)

end Compiler

end QueryTemplate
