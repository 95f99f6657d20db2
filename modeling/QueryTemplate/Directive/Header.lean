import QueryTemplate.Span

/-! # Directive headers

A directive is written between an opener and the next closing brace outside quotes; the text in
between is its header. Unlike queries, headers have words of ASCII letters, digits, underscores
and dots only, and their keywords are case-sensitive.
-/

namespace QueryTemplate

/-- What a directive opens or closes: a part that depends on a condition, or a repeated part. -/
inductive BlockKind where
  | conditional
  | loop
deriving DecidableEq, Repr

namespace BlockKind

def openWord : BlockKind → Text
  | conditional => "if".toList
  | loop => "for".toList

def closeWord : BlockKind → Text
  | conditional => "endif".toList
  | loop => "endfor".toList

end BlockKind

inductive HeaderKind where
  | opening (block : BlockKind)
  | closing (block : BlockKind)
  | inWord
  | joinWord
  | name
  | quoted
  | invalid
deriving DecidableEq, Repr

structure HeaderToken where
  kind : HeaderKind
  text : Text
  span : Span
deriving DecidableEq, Repr

namespace HeaderKind

def describe : HeaderKind → Text
  | opening block => '`' :: block.openWord ++ ['`']
  | closing block => '`' :: block.closeWord ++ ['`']
  | inWord => "`in`".toList
  | joinWord => "`join`".toList
  | name => "identifier".toList
  | quoted => "quoted string".toList
  | invalid => "invalid input".toList

/-- The kind of a word: a keyword if it is spelled exactly like one, else a name. -/
def ofWord (word : Text) : HeaderKind :=
  if word = BlockKind.conditional.openWord then opening .conditional
  else if word = BlockKind.conditional.closeWord then closing .conditional
  else if word = BlockKind.loop.openWord then opening .loop
  else if word = BlockKind.loop.closeWord then closing .loop
  else if word = "in".toList then inWord
  else if word = "join".toList then joinWord
  else name

end HeaderKind

namespace HeaderToken

/-- Space, tab, carriage return, line feed and form feed separate the tokens of a header. -/
def isSeparator (c : Char) : Bool :=
  c = ' ' || c = '\t' || c = '\r' || c = '\n' || c = '\x0c'

def startsWord (c : Char) : Bool := c.isAlpha || c = '_'

def continuesWord (c : Char) : Bool := c.isAlphanum || c = '_' || c = '.'

def isQuote (c : Char) : Bool := c = '\'' || c = '"'

def covering (kind : HeaderKind) (offset : Nat) (text : Text) : HeaderToken :=
  ⟨kind, text, ⟨offset, offset + Text.size text⟩⟩

/-- The tokens of a header that starts at `offset`. A quote that is not closed makes all that is
left one invalid token, and any other character out of place is an invalid token of its own. -/
def scan (offset : Nat) : Text → List HeaderToken
  | [] => []
  | c :: rest =>
    if isSeparator c then scan (offset + c.utf8Size) rest
    else if startsWord c then
      let word := c :: rest.takeWhile continuesWord
      covering (.ofWord word) offset word ::
        scan (offset + Text.size word) (rest.dropWhile continuesWord)
    else if isQuote c then
      match _ : Text.splitFirst? c rest with
      | some (inner, after) =>
        let quoted := c :: inner ++ [c]
        covering .quoted offset quoted :: scan (offset + Text.size quoted) after
      | none => [covering .invalid offset (c :: rest)]
    else covering .invalid offset [c] :: scan (offset + c.utf8Size) rest
termination_by header => header.length
decreasing_by
  · simp
  · have := (List.dropWhile_sublist continuesWord (l := rest)).length_le
    simp
    omega
  · simp [(Text.splitFirst?_eq_some (by assumption)).1]
    omega
  · simp

end HeaderToken

end QueryTemplate
