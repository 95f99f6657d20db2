import QueryTemplate.Span

/-! # Tokens

Query text is read as a sequence of tokens: keywords, symbols, quoted texts and words. A token
keeps the text it was read from, so a keyword keeps the case it was written in.
-/

namespace QueryTemplate

inductive Keyword where
  | SELECT | FROM | INNER | LEFT | RIGHT | JOIN | ON | WHERE | ORDER | BY | AS | GROUP | IFNULL
  | LIMIT | COUNT | UPDATE | DELETE | INSERT
deriving DecidableEq, Repr

namespace Keyword

def all : List Keyword :=
  [SELECT, FROM, INNER, LEFT, RIGHT, JOIN, ON, WHERE, ORDER, BY, AS, GROUP, IFNULL, LIMIT, COUNT,
   UPDATE, DELETE, INSERT]

/-- The keyword in upper case. -/
def text : Keyword → Text
  | SELECT => "SELECT".toList
  | FROM => "FROM".toList
  | INNER => "INNER".toList
  | LEFT => "LEFT".toList
  | RIGHT => "RIGHT".toList
  | JOIN => "JOIN".toList
  | ON => "ON".toList
  | WHERE => "WHERE".toList
  | ORDER => "ORDER".toList
  | BY => "BY".toList
  | AS => "AS".toList
  | GROUP => "GROUP".toList
  | IFNULL => "IFNULL".toList
  | LIMIT => "LIMIT".toList
  | COUNT => "COUNT".toList
  | UPDATE => "UPDATE".toList
  | DELETE => "DELETE".toList
  | INSERT => "INSERT".toList

theorem mem_all (k : Keyword) : k ∈ all := by cases k <;> decide

theorem eq_of_text_eq {k k' : Keyword} (h : k.text = k'.text) : k = k' := by
  revert h
  cases k <;> cases k' <;> decide

/-- Whether `word` spells the keyword in any mixture of upper and lower case ASCII. -/
def isSpelledBy (k : Keyword) (word : Text) : Bool :=
  k.text == word.map Char.toUpper

/-- Whether a statement that starts with the keyword changes data. -/
def isMutation : Keyword → Bool
  | INSERT | UPDATE | DELETE => true
  | _ => false

end Keyword

/-- Punctuation, and the openers and the closer of placeholders and directives. -/
inductive Symbol where
  | openParen | closeParen | comma | dot | star | semicolon
  | openDirective | openBind | openSubstitute | closeBrace
deriving DecidableEq, Repr

namespace Symbol

def all : List Symbol :=
  [openDirective, openBind, openSubstitute, closeBrace, openParen, closeParen, comma, dot, star,
   semicolon]

def text : Symbol → Text
  | openParen => ['(']
  | closeParen => [')']
  | comma => [',']
  | dot => ['.']
  | star => ['*']
  | semicolon => [';']
  | openDirective => ['%', '\x7b']
  | openBind => ['$', '\x7b']
  | openSubstitute => ['#', '\x7b']
  | closeBrace => ['\x7d']

theorem mem_all (s : Symbol) : s ∈ all := by cases s <;> decide

/-- Whether the symbol opens a stretch that the next closing brace ends. -/
def opensBrace : Symbol → Bool
  | openDirective | openBind | openSubstitute => true
  | _ => false

end Symbol

inductive TokenKind where
  | keyword (k : Keyword)
  | symbol (s : Symbol)
  | quoted (quote : Char)
  | word
deriving DecidableEq, Repr

def TokenKind.describe : TokenKind → Text
  | .keyword k => "keyword `".toList ++ k.text ++ ['`']
  | .symbol s => '`' :: s.text ++ ['`']
  | .quoted _ => "quoted literal".toList
  | .word => "identifier".toList

/-- A token: its kind, its text with any quotes around it, and its place. -/
structure Token where
  kind : TokenKind
  lexeme : Text
  span : Span
deriving DecidableEq, Repr

namespace Token

def shift (base : Nat) (t : Token) : Token := ⟨t.kind, t.lexeme, t.span.shift base⟩

def isKeyword (k : Keyword) (t : Token) : Bool := t.kind == .keyword k

def isSymbol (s : Symbol) (t : Token) : Bool := t.kind == .symbol s

/-- The text between a quote character at both ends of `lexeme`. -/
def unquote? (quote : Char) : Text → Option Text
  | [] => none
  | c :: rest => if c = quote ∧ rest.getLast? = some quote then some rest.dropLast else none

def word? (t : Token) : Option Text :=
  match t.kind with
  | .word => some t.lexeme
  | _ => none

/-- The name that a word or a quoted text gives; the quotes do not belong to it. -/
def name? (t : Token) : Option Text :=
  match t.kind with
  | .word => some t.lexeme
  | .quoted quote => some ((unquote? quote t.lexeme).getD t.lexeme)
  | _ => none

/-- The name that the token gives, or else its text. -/
def label (t : Token) : Text := t.name?.getD t.lexeme

end Token

end QueryTemplate
