import QueryTemplate.Text.Basic
import QueryTemplate.Text.Range

/-! # White space

White space is a character with the Unicode property `White_Space`. A text is trimmed by
removing the white space at its ends, and its words are the stretches without white space.
-/

namespace QueryTemplate.Text

/-- The ranges of code points with the property `White_Space`, in ascending order. -/
def spaceRanges : List CodeRange :=
  [(0x9, 0xD), (0x20, 0x20), (0x85, 0x85), (0xA0, 0xA0), (0x1680, 0x1680), (0x2000, 0x200A),
   (0x2028, 0x2029), (0x202F, 0x202F), (0x205F, 0x205F), (0x3000, 0x3000)]

def isSpace (c : Char) : Bool :=
  inRanges spaceRanges c

def trimStart (t : Text) : Text :=
  t.dropWhile isSpace

def trimEnd : Text → Text
  | [] => []
  | c :: rest =>
    match trimEnd rest with
    | [] => if isSpace c then [] else [c]
    | d :: kept => c :: d :: kept

def trim (t : Text) : Text :=
  trimEnd (trimStart t)

def isBlank (t : Text) : Bool :=
  t.all isSpace

end QueryTemplate.Text
