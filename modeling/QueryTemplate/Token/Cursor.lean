import QueryTemplate.Token.Lexer

/-! # Cursors

A cursor walks over the tokens of a text and looks ahead and back. It reads a token from the
text only when one is asked for, keeps every token it has read, and remembers the fault that
ended reading. Looking never moves it; a fault never moves it and hides no token in front of it.
-/

namespace QueryTemplate

/-- A position among the tokens of a text that is being read. -/
structure Cursor where
  lexicon : Lexicon
  unread : Fragment
  buffer : List Token
  fault : Option LexicalFault
  position : Nat
deriving DecidableEq, Repr

namespace Cursor

/-- A step of a cursor, which can meet a lexical fault and still leaves a cursor behind. -/
abbrev Step (α : Type) := ExceptT LexicalFault (StateM Cursor) α

/-- In front of the first token of `text`. -/
def start (lexicon : Lexicon) (text : Text) : Cursor :=
  ⟨lexicon, .ofText text, [], none, 0⟩

/-- Reads `n` more tokens, or as many as there are. -/
def pull : Nat → Cursor → Except LexicalFault Unit × Cursor
  | 0, cursor => (.ok (), cursor)
  | n + 1, cursor =>
    match cursor.fault with
    | some fault => (.error fault, cursor)
    | none =>
      match cursor.lexicon.next? cursor.unread with
      | none => (.ok (), cursor)
      | some (.error fault, after) =>
        (.error fault, { cursor with unread := after, fault := some fault })
      | some (.ok token, after) =>
        pull n { cursor with unread := after, buffer := cursor.buffer ++ [token] }

/-- The token `k` places ahead, if there is one; 0 is the current token. -/
def peek (k : Nat) : Step (Option Token) := fun cursor =>
  let index := cursor.position + k
  let (outcome, filled) := cursor.pull (index + 1 - cursor.buffer.length)
  (outcome.map fun _ => filled.buffer[index]?, filled)

def next : Step (Option Token) := do
  match ← peek 0 with
  | some token =>
    modify fun cursor => { cursor with position := cursor.position + 1 }
    return some token
  | none => return none

/-- The token passed `k` steps ago; 1 is the last one. -/
def previous (cursor : Cursor) (k : Nat) : Option Token :=
  if k = 0 ∨ cursor.position < k then none else cursor.buffer[cursor.position - k]?

def reset (cursor : Cursor) : Cursor := { cursor with position := 0 }

def atEnd : Step Bool := return (← peek 0).isNone

def isAt (p : Token → Bool) : Step Bool := return (← peek 0).any p

def eat (p : Token → Bool) : Step Bool := do
  if ← isAt p then
    let _ ← next
    return true
  else return false

end Cursor

end QueryTemplate
