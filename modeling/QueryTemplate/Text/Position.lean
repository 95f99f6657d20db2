import QueryTemplate.Text.Basic

/-! # Lines and columns

A reader finds a place in a text by its line and its column, both counted from 1. A column counts
characters.
-/

namespace QueryTemplate

structure Position where
  line : Nat
  column : Nat
deriving DecidableEq, Repr

namespace Position

/-- The position behind `c`, which stands at `p`. -/
def step (p : Position) (c : Char) : Position :=
  if c = '\n' then ⟨p.line + 1, 1⟩ else ⟨p.line, p.column + 1⟩

def behind (text : Text) : Position := text.foldl step ⟨1, 1⟩

/-- The position of a byte offset in a text. An offset inside a character means the beginning of
the character, and one past the end means the end. -/
def ofOffset (text : Text) (offset : Nat) : Position := behind (Text.takeBytes offset text)

end Position

end QueryTemplate
