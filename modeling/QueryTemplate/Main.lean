import QueryTemplate.CommandLine.Run

/-! # The program

Reads its arguments and the files they name, writes the output to standard output and the notices
to standard error.
-/

namespace QueryTemplate

/-- The number that a failure has on the system; some come as their negation in 32 bits. -/
def systemNumber (code : UInt32) : Nat :=
  if code < 0x80000000 then code.toNat else (-code).toNat

def Refusal.ofFailure : IO.Error → Refusal
  | .noFileOrDirectory _ code text | .inappropriateType _ code text
  | .permissionDenied _ code text | .invalidArgument _ code text | .resourceExhausted _ code text
  | .otherError code text => .ofNumber (systemNumber code) text.toList
  | failure => .other 0 (toString failure).toList

def readFiles (paths : List Text) : IO (Text → Except Refusal ByteArray) := do
  let contents ← paths.mapM fun path => do
    let content : Except Refusal ByteArray ←
      try pure (.ok (← IO.FS.readBinFile (String.ofList path)))
      catch failure => pure (.error (.ofFailure failure))
    return (path, content)
  return fun path => (contents.lookup path).getD (.error .absent)

def Command.paths : Command → List Path
  | compile files schema _ _ => schema.toList ++ files
  | check files schema => schema.toList ++ files
  | shape _ _ => []

def Notice.render : Notice → Text
  | line text => text
  | report r =>
    let head := '[' :: r.code ++ "] Error: ".toList ++ r.summary
    match r.place with
    | none => head
    | some p =>
      head ++ "\n  at ".toList ++ r.source ++ ':' :: Nat.toDigits 10 p.line ++
        ':' :: Nat.toDigits 10 p.column
  | warning (.execIgnored exec) =>
    "WARN option exec=".toList ++ exec.tag ++ " has no effect on a SELECT; ignored".toList

end QueryTemplate

open QueryTemplate in
def main (args : List String) : IO UInt32 := do
  let args := args.map String.toList
  let paths := (Command.parse? args).elim [] Command.paths
  let files ← readFiles (paths.filterMap Path.text?)
  let outcome := Command.runProgram files args
  for notice in outcome.notices do
    IO.eprintln (String.ofList notice.render)
  if outcome.status = 2 then
    IO.eprintln "usage: compile|check [FILE...] [-s SCHEMA] | shape QUERY"
  IO.print (String.ofList outcome.output)
  return outcome.status.toUInt32
