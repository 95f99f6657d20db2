import QueryTemplate.CommandLine.Arguments
import QueryTemplate.CommandLine.Files
import QueryTemplate.CommandLine.Report
import QueryTemplate.Json.Printer
import QueryTemplate.Method.Compilation
import QueryTemplate.Method.Json
import QueryTemplate.Schema.File

/-! # Running commands

A run reads files, writes to standard output, and gives notices. Compiling writes the methods of
all files or, at the first fault, nothing. Checking goes through all files, each of which is as
good as if it were the only one.
-/

namespace QueryTemplate

/-- Something the user is told beside the output. -/
inductive Notice where
  | line (text : Text)
  | report (report : Report)
  | warning (warning : Warning)
deriving DecidableEq, Repr

structure Outcome where
  status : Nat
  output : Text
  notices : List Notice
deriving DecidableEq, Repr

namespace Command

def readText (files : Files) (path : Path) : Except Text Text :=
  match files path with
  | .error refusal => .error refusal.message
  | .ok bytes =>
    match String.fromUTF8? bytes with
    | some text => .ok text.toList
    | none => .error "stream did not contain valid UTF-8".toList

def loadSchema (files : Files) : Option Path → Except Notice (Option Provider)
  | none => .ok none
  | some path =>
    let loaded : Except SchemaCause Schema :=
      match readText files path with
      | .error reason => .error (.unreadable reason)
      | .ok text => Schema.ofFileText text
    match loaded with
    | .ok schema => .ok (some schema.provider)
    | .error cause =>
      .error (.line ("Error loading schema ".toList ++ path.shown ++ ": ".toList ++ cause.message))

/-- What becomes of a file: it is compiled or refused, with notices in any case. -/
structure FileOutcome where
  compiled : Option CompiledFile
  notices : List Notice

def unreadable (path : Path) (reason : Text) : Notice :=
  .line ("Error reading ".toList ++ path.shown ++ ": ".toList ++ reason)

def fileReport (text : Text) (f : FileFault) : Notice :=
  .report (.ofFault f.fault.value.code f.summary f.path text f.fault.span.start)

/-- Compiles a file. A session is carried on from file to file; `announce` makes a refusal known
in a line of its own. -/
def compilePath (compiler : Compiler) (files : Files) (announce : Bool) (path : Path) :
    StateM Session FileOutcome := do
  match readText files path with
  | .error reason => return ⟨none, [unreadable path reason]⟩
  | .ok text =>
    modify fun s => { s with warnings := [] }
    let outcome ← compiler.compileFile path text
    let warnings := (← get).warnings.map Notice.warning
    match outcome with
    | .ok compiled => return ⟨some compiled, warnings⟩
    | .error fault =>
      let line := if announce then [Notice.line ("✗ ".toList ++ fault.message)] else []
      return ⟨none, warnings ++ line ++ [fileReport text fault]⟩

/-- A compiled file in JSON, or the reason why there is none. -/
def fileJson (file : CompiledFile) : Except Text JsonValue :=
  match file.location.text? with
  | some path =>
    .ok (.ofPairs [("path", .ofText path), ("methods", .ofList Method.toJson file.methods)])
  | none => .error "path contains invalid UTF-8 characters".toList

/-- Ends a run, which has given `notices`, with a value as output. Without a value there is no
output, and the run fails. -/
def print (isPretty : Bool) (notices : List Notice) : Except Text JsonValue → Outcome
  | .ok value => ⟨0, (if isPretty then value.pretty 0 else value.compact) ++ ['\n'], notices⟩
  | .error reason => ⟨1, [], notices ++ [.line ("Error serializing output: ".toList ++ reason)]⟩

/-- Compiles files up to the first that is refused: the compiled files, unless one is refused, and
the notices. -/
def compileAll (compiler : Compiler) (files : Files) :
    List Path → StateM Session (Option (List CompiledFile) × List Notice)
  | [] => return (some [], [])
  | path :: rest => do
    let first ← compilePath compiler files false path
    match first.compiled with
    | none => return (none, first.notices)
    | some file =>
      let (later, notices) ← compileAll compiler files rest
      return (later.map (file :: ·), first.notices ++ notices)

/-- The line that tells that a file is in order. -/
def approval (file : CompiledFile) : Text :=
  let count (n : Nat) : Text := Nat.toDigits 10 n
  "✓ ".toList ++ file.path ++ " - ".toList ++ count file.methods.length ++ " methods (".toList ++
    count (file.methods.countP (·.isMutation)) ++ " mutations)\n".toList

def runCompile (files : Files) (paths : List Path) (schema : Option Path) (isPretty : Bool)
    (markers : Markers) : Outcome :=
  match loadSchema files schema with
  | .error notice => ⟨1, [], [notice]⟩
  | .ok provider =>
    match ((compileAll ⟨markers, provider⟩ files paths).run .empty).1 with
    | (some compiled, notices) => print isPretty notices ((compiled.mapM fileJson).map .array)
    | (none, notices) => ⟨1, [], notices⟩

def runCheck (files : Files) (paths : List Path) (schema : Option Path) : Outcome :=
  match loadSchema files schema with
  | .error notice => ⟨1, [], [notice]⟩
  | .ok provider =>
    let outcomes := ((paths.mapM (compilePath ⟨.standard, provider⟩ files true)).run .empty).1
    ⟨if outcomes.all (·.compiled.isSome) then 0 else 1,
      (outcomes.filterMap (·.compiled)).flatMap approval, outcomes.flatMap (·.notices)⟩

def runShape (query : Text) (isPretty : Bool) : Outcome :=
  match Query.shape .sql (.ofText query) with
  | .ok found => print isPretty [] (.ok found.toJson)
  | .error fault =>
    let cause := fault.value
    let summary := cause.faultClass.text ++ " error: ".toList ++ cause.message
    ⟨1, [], [.report (.ofFault cause.code summary "<query>".toList query fault.span.start)]⟩

def run (files : Files) : Command → Outcome
  | compile paths schema isPretty markers => runCompile files paths schema isPretty markers
  | check paths schema => runCheck files paths schema
  | shape query isPretty => runShape query isPretty

/-- Runs the program with the given arguments, where all paths are texts. Arguments that give no
command have a status of their own. -/
def runProgram (read : Text → Except Refusal ByteArray) (args : List Text) : Outcome :=
  match parse? args with
  | some command => command.run (.atTexts read)
  | none => ⟨2, [], []⟩

end Command

end QueryTemplate
