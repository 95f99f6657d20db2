import QueryTemplate.Method.Options

/-! # Template files

A template file is divided into methods by header lines. A header line is a comment that starts
with a fixed tag, which the name of the method and its options follow; the lines behind it up to
the next header line are its template. In front of the first header line there may only be blank
lines and comments.
-/

namespace QueryTemplate

/-- A method as it is written in a file. Comments in the body are blanked out. -/
structure MethodSource where
  name : MethodName
  options : List WrittenOption
  headerSpan : Span
  nameSpan : Span
  body : Fragment
deriving DecidableEq, Repr

namespace MethodSource

/-- The place of the whole method. -/
def span (m : MethodSource) : Span := m.headerSpan.merge m.body.span

/-! ## Header lines -/

def commentMark : Text := ['-', '-']

/-- What the comment in a header line starts with. -/
def headerTag : Text := "name:".toList

def isComment (line : Text) : Bool :=
  commentMark.isPrefixOf (Text.trimStart line)

def headerRest? (line : Text) : Option Text := do
  let comment ← Text.dropLead? commentMark (Text.trimStart line)
  Text.dropLead? headerTag (Text.trimStart comment)

/-- Whether `name` is a letter or underscore followed by letters, numerals and underscores. -/
def isIdentifier : Text → Bool
  | [] => false
  | c :: rest =>
    (Text.isLetter c || c == '_') && rest.all fun d => Text.isLetterOrNumeral d || d == '_'

/-- The name that a word of a header gives; the last dot separates it from its owner. -/
def parseName? (word : Text) : Option MethodName :=
  let name : MethodName :=
    match Text.splitLast? '.' word with
    | some (owner, name) => ⟨some owner, name⟩
    | none => ⟨none, word⟩
  if isIdentifier name.name && name.owner.all isIdentifier then some name else none

/-- The method whose header line, with `rest` behind its tag, and whose body are given. -/
def ofHeader (line : Fragment) (rest : Text) (body : Text) : Except MethodFault MethodSource :=
  let headerSpan : Span := ⟨line.offset, line.offset + Text.size (Text.trimEnd line.text)⟩
  match Text.words (line.stop - Text.size rest) rest with
  | [] => .error ⟨.missingName, headerSpan⟩
  | word :: options =>
    match parseName? word.value with
    | none => .error ⟨.invalidName word.value, word.span⟩
    | some name =>
      .ok ⟨name, options.map WrittenOption.ofWord, headerSpan, word.span, ⟨line.stop, body⟩⟩

/-! ## Comments -/

/-- What a place in a template lies in. -/
inductive Region where
  | code
  | quoted (quote : Char)
  | comment
deriving DecidableEq, Repr

def isQuote (c : Char) : Bool := c == '\'' || c == '"' || c == '`'

/-- The template with every comment blanked out, byte by byte, up to the end of its line. Two
dashes inside quotes start no comment, on whatever line the quotes are opened. -/
def blankComments : Region → Text → Text
  | _, [] => []
  | .code, c :: rest =>
    if c = '-' ∧ rest.head? = some '-' then ' ' :: blankComments .comment rest
    else c :: blankComments (if isQuote c then .quoted c else .code) rest
  | .quoted quote, c :: rest =>
    c :: blankComments (if c = quote then .code else .quoted quote) rest
  | .comment, c :: rest =>
    if c = '\n' then c :: blankComments .code rest
    else if c = '\r' then c :: blankComments .comment rest
    else List.replicate c.utf8Size ' ' ++ blankComments .comment rest

/-! ## Division of a file -/

/-- A header line, what follows its tag, and the lines up to the next header line. -/
structure Block where
  header : Fragment
  rest : Text
  body : List Fragment
deriving DecidableEq, Repr

/-- The lines in front of the first header line, and the blocks from there on. -/
def group : List Fragment → List Fragment × List Block
  | [] => ([], [])
  | line :: later =>
    let (lead, blocks) := group later
    match headerRest? line.text with
    | some rest => ([], ⟨line, rest, lead⟩ :: blocks)
    | none => (line :: lead, blocks)

def locate (offset : Nat) : List Text → List Fragment
  | [] => []
  | line :: later => ⟨offset, line⟩ :: locate (offset + Text.size line) later

def checkLead (line : Fragment) : Except MethodFault Unit :=
  if Text.isBlank line.text || isComment line.text then .ok ()
  else
    let indent := Text.size line.text - Text.size (Text.trimStart line.text)
    .error ⟨.textOutsideMethod,
      ⟨line.offset + indent, line.offset + Text.size (Text.trimEnd line.text)⟩⟩

def ofBlock (block : Block) : Except MethodFault MethodSource :=
  ofHeader block.header block.rest
    (blankComments .code (block.body.flatMap Fragment.text))

def split (file : Text) : Except MethodFault (List MethodSource) := do
  let (lead, blocks) := group (locate 0 (Text.lines file))
  lead.forM checkLead
  blocks.mapM ofBlock

end MethodSource

end QueryTemplate
