import QueryTemplate.Token.Basic

/-! # Lexicons

A lexicon says which words are keywords, which symbols stand for themselves and which
characters quote. No symbol is the beginning of another, so at most one fits at any place.
-/

namespace QueryTemplate

/-- What the lexer knows: keywords, symbols and quote characters. -/
structure Lexicon where
  keywords : List Keyword
  symbols : List Symbol
  quotes : List Char
deriving DecidableEq, Repr

namespace Lexicon

/-- The lexicon that knows nothing: all text is words. -/
def empty : Lexicon := ⟨[], [], []⟩

def addKeyword (lexicon : Lexicon) (k : Keyword) : Lexicon :=
  if k ∈ lexicon.keywords then lexicon else { lexicon with keywords := lexicon.keywords ++ [k] }

def addSymbol (lexicon : Lexicon) (s : Symbol) : Lexicon :=
  if s ∈ lexicon.symbols then lexicon else { lexicon with symbols := lexicon.symbols ++ [s] }

def addQuote (lexicon : Lexicon) (c : Char) : Lexicon :=
  if c ∈ lexicon.quotes then lexicon else { lexicon with quotes := lexicon.quotes ++ [c] }

/-- The lexicon of queries: all keywords and symbols, and three quote characters. -/
def sql : Lexicon := ⟨Keyword.all, Symbol.all, ['\'', '"', '`']⟩

def ofLists (keywords : List Keyword) (symbols : List Symbol) (quotes : List Char) : Lexicon :=
  quotes.foldl addQuote (symbols.foldl addSymbol (keywords.foldl addKeyword empty))

theorem sql_eq_ofLists : sql = ofLists Keyword.all Symbol.all ['\'', '"', '`'] := by decide

def keyword? (lexicon : Lexicon) (word : Text) : Option Keyword :=
  lexicon.keywords.find? (·.isSpelledBy word)

def symbol? (lexicon : Lexicon) (text : Text) : Option Symbol :=
  lexicon.symbols.find? (·.text.isPrefixOf text)

def isQuote (lexicon : Lexicon) (c : Char) : Bool := c ∈ lexicon.quotes

/-- Whether a word cannot go on at the beginning of `text`. -/
def endsWord (lexicon : Lexicon) : Text → Bool
  | [] => true
  | c :: rest =>
    Text.isSpace c || lexicon.isQuote c || (lexicon.symbol? (c :: rest)).isSome

end Lexicon

end QueryTemplate
