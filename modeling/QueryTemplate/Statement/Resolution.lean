import QueryTemplate.Fault.Lexical
import QueryTemplate.Statement.Basic

/-! # Resolving placeholders

Text with placeholders is read as a list of pieces: single characters and whole placeholders.
Resolving writes the pieces out with markers for the placeholders and one space for each run of
white space between two pieces that have left text behind.
-/

namespace QueryTemplate

/-- A character outside placeholders, or a placeholder. -/
inductive Piece where
  | literal (c : Char)
  | placeholder (sort : Placeholder) (name : Text)
deriving DecidableEq, Repr

namespace Piece

/-- The sort of placeholder that two characters open, if they open one. -/
def opened? : Char → Char → Option Placeholder
  | '$', '\x7b' => some .bind
  | '#', '\x7b' => some .substitute
  | _, _ => none

/-- The pieces of a text that starts at `offset`. A placeholder runs to the next closing brace
and is named by what is in between, without the white space around it. -/
def scan (offset : Nat) : Text → Except LexicalFault (List Piece)
  | [] => .ok []
  | [c] => .ok [literal c]
  | c :: d :: rest =>
    match opened? c d with
    | none => (scan (offset + c.utf8Size) (d :: rest)).map (literal c :: ·)
    | some sort =>
      match _ : Text.splitFirst? '\x7d' rest with
      | none => .error ⟨.unterminatedPlaceholder, ⟨offset, offset + Text.size (c :: d :: rest)⟩⟩
      | some (name, after) =>
        let stop := offset + Text.size (c :: d :: name) + 1
        if Text.isBlank name then .error ⟨.emptyPlaceholder, ⟨offset, stop⟩⟩
        else (scan stop after).map (placeholder sort (Text.trim name) :: ·)
termination_by text => text.length
decreasing_by
  · simp
  · simp [(Text.splitFirst?_eq_some (by assumption)).1]
    omega

/-- The pieces written out. `spaced` tells whether white space has been passed since the last
piece, and `started` whether any text has been written; a space is written only between texts. -/
def write (markers : Markers) (spaced started : Bool) : List Piece → Text
  | [] => []
  | literal c :: rest =>
    if Text.isSpace c then write markers true started rest
    else (if spaced && started then [' ', c] else [c]) ++ write markers false true rest
  | placeholder sort _ :: rest =>
    let marker := markers.text sort
    (if spaced && started then ' ' :: marker else marker) ++
      write markers false (started || !marker.isEmpty) rest

def name? (sort : Placeholder) : Piece → Option Text
  | placeholder s name => if s = sort then some name else none
  | literal _ => none

end Piece

namespace Statement

def ofPieces (markers : Markers) (pieces : List Piece) : Statement :=
  ⟨Piece.write markers false false pieces, pieces.filterMap (Piece.name? .bind),
    pieces.filterMap (Piece.name? .substitute)⟩

def resolve (markers : Markers) (source : Fragment) : Except LexicalFault Statement :=
  (Piece.scan source.offset source.text).map (ofPieces markers)

end Statement

end QueryTemplate
