import QueryTemplate.Text.Basic

/-! # Paths

The system takes nearly any bytes for a path, so a path need not be a text. Whatever it is, it can
be shown; where a text is asked for, a path that is none has nothing to give.
-/

namespace QueryTemplate

/-- A part of a path: a character, or bytes that are the encoding of none. -/
inductive PathPart where
  | char (c : Char)
  | stray (bytes : List UInt8)
deriving DecidableEq, Repr

structure Path where
  parts : List PathPart
deriving DecidableEq, Repr

namespace Path

def ofText (t : Text) : Path := ⟨t.map .char⟩

instance : Coe Text Path := ⟨ofText⟩

def text? (path : Path) : Option Text :=
  path.parts.mapM fun
    | .char c => some c
    | .stray _ => none

/-- The path as a text for people to read, with `U+FFFD` for bytes that encode no character. -/
def shown (path : Path) : Text :=
  path.parts.map fun
    | .char c => c
    | .stray _ => '\ufffd'

end Path

end QueryTemplate
