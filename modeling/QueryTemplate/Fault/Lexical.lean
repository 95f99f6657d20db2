import QueryTemplate.Span

/-! # Lexical faults

Text that cannot be divided into tokens, placeholders and directives, because something opened
is not closed or names nothing.
-/

namespace QueryTemplate

/-- Why text cannot be divided. -/
inductive LexicalCause where
  | unterminatedQuote (quote : Char)
  | unterminatedPlaceholder
  | emptyPlaceholder
  | unterminatedDirective
deriving DecidableEq, Repr

abbrev LexicalFault := Located LexicalCause

namespace LexicalCause

def message : LexicalCause → Text
  | unterminatedQuote quote => "unterminated quoted literal starting with ".toList ++ [quote]
  | unterminatedPlaceholder => "unterminated placeholder: missing closing `\x7d`".toList
  | emptyPlaceholder => "empty placeholder name".toList
  | unterminatedDirective => "unterminated directive: missing closing `\x7d`".toList

def code : LexicalCause → Text
  | unterminatedQuote _ => "E-LEX-001".toList
  | unterminatedPlaceholder => "E-LEX-002".toList
  | emptyPlaceholder => "E-LEX-003".toList
  | unterminatedDirective => "E-LEX-004".toList

end LexicalCause

end QueryTemplate
