import QueryTemplate.Json.Basic

/-! # Writing JSON

A value is written either without any white space or, for people to read, with one item or member
on a line and each level indented by two spaces. Strings are written as they are, except for
quotes, backslashes and control characters.
-/

namespace QueryTemplate

namespace JsonNumber

def print : JsonNumber → Text
  | whole n => Nat.toDigits 10 n
  | decimal negative digits exponent =>
    (if negative then ['-'] else []) ++ Nat.toDigits 10 digits ++
      'e' :: match exponent with
        | .ofNat e => Nat.toDigits 10 e
        | .negSucc e => '-' :: Nat.toDigits 10 (e + 1)

end JsonNumber

namespace JsonText

def hexDigit (n : Nat) : Char := Nat.digitChar n

def escape (c : Char) : Text :=
  if c = '"' then ['\\', '"']
  else if c = '\\' then ['\\', '\\']
  else if c = '\n' then ['\\', 'n']
  else if c = '\r' then ['\\', 'r']
  else if c = '\t' then ['\\', 't']
  else if c.toNat = 8 then ['\\', 'b']
  else if c.toNat = 12 then ['\\', 'f']
  else if c.toNat < 0x20 then
    ['\\', 'u', '0', '0', hexDigit (c.toNat / 16), hexDigit (c.toNat % 16)]
  else [c]

/-- A text between quotes; what stands for no text is written as half of a surrogate pair. -/
def print : JsonText → Text
  | some t => '"' :: t.flatMap escape ++ ['"']
  | none => "\"\\ud800\"".toList

end JsonText

namespace JsonValue

def separate : List Text → Text
  | [] => []
  | [t] => t
  | t :: u :: rest => t ++ ',' :: separate (u :: rest)

mutual

def compact : JsonValue → Text
  | null => "null".toList
  | bool b => if b then "true".toList else "false".toList
  | number n => n.print
  | string s => JsonText.print s
  | array items => '[' :: separate (compactItems items) ++ [']']
  | object members => '\x7b' :: separate (compactMembers members) ++ ['\x7d']

def compactItems : List JsonValue → List Text
  | [] => []
  | item :: rest => compact item :: compactItems rest

def compactMembers : List (JsonText × JsonValue) → List Text
  | [] => []
  | (key, value) :: rest => (JsonText.print key ++ ':' :: compact value) :: compactMembers rest

end

/-- A new line, indented by `level` levels. -/
def newLine (level : Nat) : Text := '\n' :: List.replicate (2 * level) ' '

/-- The parts of an array or object at the given level, each on a line of its own. -/
def enclose (level : Nat) (opening closing : Char) (parts : List Text) : Text :=
  if parts.isEmpty then [opening, closing]
  else
    opening :: separate (parts.map (newLine (level + 1) ++ ·)) ++ newLine level ++ [closing]

mutual

/-- The value on several lines, where it stands at the given level. -/
def pretty (level : Nat) : JsonValue → Text
  | null => "null".toList
  | bool b => if b then "true".toList else "false".toList
  | number n => n.print
  | string s => JsonText.print s
  | array items => enclose level '[' ']' (prettyItems level items)
  | object members => enclose level '\x7b' '\x7d' (prettyMembers level members)

def prettyItems (level : Nat) : List JsonValue → List Text
  | [] => []
  | item :: rest => pretty (level + 1) item :: prettyItems level rest

def prettyMembers (level : Nat) : List (JsonText × JsonValue) → List Text
  | [] => []
  | (key, value) :: rest =>
    (JsonText.print key ++ ':' :: ' ' :: pretty (level + 1) value) :: prettyMembers level rest

end

end JsonValue

end QueryTemplate
