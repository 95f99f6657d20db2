import QueryTemplate.Json.Precision

/-! # JSON values

The values that JSON texts stand for. A string or key may have an escape that gives half of a
surrogate pair; such a string stands for no text.
-/

namespace QueryTemplate

/-- A number: a whole number without sign, or a decimal, which stands for its digits, negated or
not, times a power of ten. -/
inductive JsonNumber where
  | whole (n : Nat)
  | decimal (negative : Bool) (digits : Nat) (exponent : Int)
deriving DecidableEq, Repr

/-- What a string stands for, if it is a text. -/
abbrev JsonText := Option Text

/-- A JSON value. The members of an object are in the order in which they are written. -/
inductive JsonValue where
  | null
  | bool (b : Bool)
  | number (n : JsonNumber)
  | string (s : JsonText)
  | array (items : List JsonValue)
  | object (members : List (JsonText × JsonValue))
deriving Repr

namespace JsonNumber

/-- The least size that is too large for a 64-bit floating-point number. -/
def floatBound : Nat := 1 <<< 1024 - 1 <<< 970

/-- The digits of the number that are kept, and the power of ten they are multiplied by. -/
def scaled : JsonNumber → Nat × Int
  | whole n => ((Precision.leading n).1, (Precision.leading n).2)
  | decimal _ digits exponent =>
    ((Precision.leading digits).1, exponent + (Precision.leading digits).2)

/-- Whether the number is read as a finite 64-bit floating-point number: the product of its digits
and its power of ten, each of them rounded, has to be small enough. A power of ten above the
greatest that is finite itself is too large for all digits but zero. -/
def isFinite (n : JsonNumber) : Bool :=
  n.scaled.1 = 0 ||
    match n.scaled.2 with
    | .ofNat e =>
      e ≤ 308 && Precision.nearest n.scaled.1 * Precision.nearest (Nat.pow 10 e) < floatBound
    | .negSucc _ => true

end JsonNumber

namespace JsonValue

def ofText (t : Text) : JsonValue := string (some t)

def ofNat (n : Nat) : JsonValue := number (.whole n)

def ofPairs (pairs : List (String × JsonValue)) : JsonValue :=
  object (pairs.map fun (key, value) => (some key.toList, value))

def ofOption {α : Type} (f : α → JsonValue) : Option α → JsonValue
  | none => null
  | some x => f x

def ofList {α : Type} (f : α → JsonValue) (xs : List α) : JsonValue := array (xs.map f)

mutual

/-- How many arrays and objects lie around the deepest part of the value. -/
def depth : JsonValue → Nat
  | null | bool _ | number _ | string _ => 0
  | array items => itemsDepth items + 1
  | object members => membersDepth members + 1

def itemsDepth : List JsonValue → Nat
  | [] => 0
  | item :: rest => max (depth item) (itemsDepth rest)

def membersDepth : List (JsonText × JsonValue) → Nat
  | [] => 0
  | (_, value) :: rest => max (depth value) (membersDepth rest)

end

mutual

/-- Whether every string in the value stands for a text and every number is finite. -/
def isSound : JsonValue → Bool
  | null | bool _ => true
  | number n => n.isFinite
  | string s => s.isSome
  | array items => itemsSound items
  | object members => membersSound members

def itemsSound : List JsonValue → Bool
  | [] => true
  | item :: rest => isSound item && itemsSound rest

/-- Whether every member is sound and has a text as its key. -/
def membersSound : List (JsonText × JsonValue) → Bool
  | [] => true
  | (key, value) :: rest => key.isSome && isSound value && membersSound rest

end

end JsonValue

end QueryTemplate
