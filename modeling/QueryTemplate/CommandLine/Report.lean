import QueryTemplate.Text.Position

/-! # Reports

A fault is reported with its code, in words, and with the place where it shows. In a report, every
line separator of Unicode ends a line, a carriage return and a line feed together end one, and the
end of a text belongs to its last line even when that line is ended.
-/

namespace QueryTemplate

/-- A fault shown to the user. An empty text has no place to point at. -/
structure Report where
  code : Text
  summary : Text
  source : Text
  place : Option Position
deriving DecidableEq, Repr

namespace Report

def isLineSeparator (c : Char) : Bool :=
  c == '\n' || c == '\r' || c == '\x0b' || c == '\x0c' || c == '\u0085' || c == '\u2028' ||
    c == '\u2029'

/-- Whether a line ends with `c` and another one begins with `rest`. -/
def startsLine (c : Char) (rest : Text) : Bool :=
  isLineSeparator c && !rest.isEmpty && !(c == '\r' && rest.head? == some '\n')

/-- The position `offset` bytes on from `p`, where the text goes on from. -/
def advance (p : Position) (offset : Nat) : Text → Position
  | [] => p
  | c :: rest =>
    if offset < c.utf8Size then p
    else
      let next : Position := if startsLine c rest then ⟨p.line + 1, 1⟩ else ⟨p.line, p.column + 1⟩
      advance next (offset - c.utf8Size) rest

def ofFault (code summary source text : Text) (offset : Nat) : Report :=
  ⟨code, summary, source, if text.isEmpty then none else some (advance ⟨1, 1⟩ offset text)⟩

end Report

end QueryTemplate
