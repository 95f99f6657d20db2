import QueryTemplate.Json.Basic

/-! # Tokens of JSON texts

A JSON text is first divided into tokens. White space between tokens is space, tab, line feed and
carriage return. Two tokens need nothing between them; that two values do is for the grammar to
say.
-/

namespace QueryTemplate

inductive JsonToken where
  | openBracket | closeBracket | openBrace | closeBrace | comma | colon
  | null
  | bool (b : Bool)
  | number (n : JsonNumber)
  | string (s : JsonText)
deriving DecidableEq, Repr

namespace JsonToken

/-! ## Numbers -/

/-- The number that decimal digits write, continuing `n`. -/
def digitsValue (n : Nat) (digits : Text) : Nat :=
  digits.foldl (fun n c => 10 * n + (c.toNat - '0'.toNat)) n

/-- The digits at the beginning of a text, of which there has to be one, and the text behind. -/
def digits? (t : Text) : Option (Text × Text) :=
  if t.head?.any Char.isDigit then some (t.takeWhile Char.isDigit, t.dropWhile Char.isDigit)
  else none

/-- The digits of the fraction at the beginning of a text, none if there is no fraction, and the
text behind it. -/
def fraction? : Text → Option (Text × Text)
  | '.' :: rest => digits? rest
  | rest => some ([], rest)

/-- Whether a text begins with a minus sign, and the text behind its sign, if it has one. -/
def splitSign : Text → Bool × Text
  | '-' :: rest => (true, rest)
  | '+' :: rest => (false, rest)
  | rest => (false, rest)

/-- The exponent at the beginning of a text, if there is one, and the text behind it. -/
def exponent? : Text → Option (Option Int × Text)
  | [] => some (none, [])
  | c :: rest =>
    if c = 'e' ∨ c = 'E' then
      (digits? (splitSign rest).2).map fun (digits, after) =>
        let size : Int := digitsValue 0 digits
        (some (if (splitSign rest).1 then -size else size), after)
    else some (none, c :: rest)

/-- The number whose sign and whole digits have been read, and the text behind it. -/
def numberTail? (negative : Bool) (whole : Nat) (rest : Text) : Option (JsonNumber × Text) := do
  let (fraction, rest) ← fraction? rest
  let (exponent, rest) ← exponent? rest
  if !negative && fraction.isEmpty && exponent.isNone then return (.whole whole, rest)
  let shift : Int := exponent.getD 0 - fraction.length
  return (.decimal negative (digitsValue whole fraction) shift, rest)

/-- The number at the beginning of a text, without its sign. A zero ends the whole digits. -/
def number? (negative : Bool) : Text → Option (JsonNumber × Text)
  | [] => none
  | c :: rest =>
    if c = '0' then numberTail? negative 0 rest
    else if c.isDigit then
      numberTail? negative (digitsValue 0 (c :: rest.takeWhile Char.isDigit))
        (rest.dropWhile Char.isDigit)
    else none

/-! ## Strings -/

/-- A part of a string: a character, or an escape for half of a surrogate pair. -/
inductive Part where
  | char (c : Char)
  | surrogate (n : Nat)
deriving DecidableEq, Repr

/-- The text that the parts make, if every half of a surrogate pair meets its other half. -/
def join? : List Part → Option Text
  | [] => some []
  | .char c :: rest => (join? rest).map (c :: ·)
  | .surrogate high :: .surrogate low :: rest =>
    if high < 0xDC00 ∧ 0xDC00 ≤ low then
      (join? rest).map (Char.ofNat (0x10000 + (high - 0xD800) * 0x400 + (low - 0xDC00)) :: ·)
    else none
  | .surrogate _ :: _ => none

def hexValue? (c : Char) : Option Nat :=
  if c.isDigit then some (c.toNat - '0'.toNat)
  else if 'a' ≤ c ∧ c ≤ 'f' then some (c.toNat - 'a'.toNat + 10)
  else if 'A' ≤ c ∧ c ≤ 'F' then some (c.toNat - 'A'.toNat + 10)
  else none

def unitPart (n : Nat) : Part :=
  if 0xD800 ≤ n ∧ n ≤ 0xDFFF then .surrogate n else .char (Char.ofNat n)

/-- The character that a letter behind a backslash stands for. -/
def escaped? (c : Char) : Option Char :=
  if c = '"' ∨ c = '\\' ∨ c = '/' then some c
  else if c = 'b' then some (Char.ofNat 8)
  else if c = 'f' then some (Char.ofNat 12)
  else if c = 'n' then some '\n'
  else if c = 'r' then some '\r'
  else if c = 't' then some '\t'
  else none

/-- The parts of a string up to its closing quote, and the text behind it. Control characters
have to be escaped. -/
def parts? : Text → Option (List Part × Text)
  | [] => none
  | '"' :: rest => some ([], rest)
  | '\\' :: 'u' :: a :: b :: c :: d :: rest => do
    let unit := (((← hexValue? a) * 16 + (← hexValue? b)) * 16 + (← hexValue? c)) * 16
      + (← hexValue? d)
    let (parts, after) ← parts? rest
    return (unitPart unit :: parts, after)
  | '\\' :: c :: rest => do
    let e ← escaped? c
    let (parts, after) ← parts? rest
    return (.char e :: parts, after)
  | c :: rest =>
    if c = '\\' ∨ c.toNat < 0x20 then none
    else (parts? rest).map fun (parts, after) => (.char c :: parts, after)

/-! ## All tokens -/

def isBlank (c : Char) : Bool := c = ' ' || c = '\t' || c = '\n' || c = '\r'

def tokenAt? (c : Char) (rest : Text) : Option (JsonToken × Text) :=
  match c with
  | '[' => some (openBracket, rest)
  | ']' => some (closeBracket, rest)
  | '\x7b' => some (openBrace, rest)
  | '\x7d' => some (closeBrace, rest)
  | ',' => some (comma, rest)
  | ':' => some (colon, rest)
  | '"' => (parts? rest).map fun (parts, after) => (string (join? parts), after)
  | '-' => (number? true rest).map fun (n, after) => (number n, after)
  | 'n' => (Text.dropLead? "ull".toList rest).map fun after => (null, after)
  | 't' => (Text.dropLead? "rue".toList rest).map fun after => (bool true, after)
  | 'f' => (Text.dropLead? "alse".toList rest).map fun after => (bool false, after)
  | _ => (number? false (c :: rest)).map fun (n, after) => (number n, after)

/-! What is behind a token is an end part of the text. -/

theorem digits?_suffix {t digits after : Text} (h : digits? t = some (digits, after)) :
    after <:+ t := by
  unfold digits? at h
  split at h
  · obtain ⟨-, rfl⟩ := Prod.mk.inj (Option.some.inj h)
    exact List.dropWhile_suffix _
  · cases h

theorem fraction?_suffix {t digits after : Text} (h : fraction? t = some (digits, after)) :
    after <:+ t := by
  unfold fraction? at h
  split at h
  · exact (digits?_suffix h).trans (List.suffix_cons ..)
  · obtain ⟨-, rfl⟩ := Prod.mk.inj (Option.some.inj h)
    exact List.suffix_rfl

theorem splitSign_suffix (t : Text) : (splitSign t).2 <:+ t := by
  unfold splitSign
  split
  · exact List.suffix_cons ..
  · exact List.suffix_cons ..
  · exact List.suffix_rfl

theorem exponent?_suffix {t after : Text} {e : Option Int}
    (h : exponent? t = some (e, after)) : after <:+ t := by
  unfold exponent? at h
  split at h
  · obtain ⟨-, rfl⟩ := Prod.mk.inj (Option.some.inj h)
    exact List.suffix_rfl
  · split at h
    · obtain ⟨⟨_, _⟩, hd, hx⟩ := Option.map_eq_some_iff.1 h
      obtain ⟨-, rfl⟩ := Prod.mk.inj hx
      exact ((digits?_suffix hd).trans (splitSign_suffix _)).trans (List.suffix_cons ..)
    · obtain ⟨-, rfl⟩ := Prod.mk.inj (Option.some.inj h)
      exact List.suffix_rfl

theorem numberTail?_suffix {negative : Bool} {whole : Nat} {t after : Text} {n : JsonNumber}
    (h : numberTail? negative whole t = some (n, after)) : after <:+ t := by
  obtain ⟨⟨fraction, us⟩, hf, h⟩ := Option.bind_eq_some_iff.1 h
  obtain ⟨⟨e, vs⟩, he, h⟩ := Option.bind_eq_some_iff.1 h
  have hvs := (exponent?_suffix he).trans (fraction?_suffix hf)
  dsimp only at h
  split at h
  · obtain ⟨-, rfl⟩ := Prod.mk.inj (Option.some.inj h)
    exact hvs
  · obtain ⟨-, rfl⟩ := Prod.mk.inj (Option.some.inj h)
    exact hvs

theorem number?_length {negative : Bool} {t after : Text} {n : JsonNumber}
    (h : number? negative t = some (n, after)) : after.length < t.length := by
  cases t with
  | nil => cases h
  | cons c rest =>
    refine Nat.lt_succ_of_le ?_
    simp only [number?] at h
    split at h
    · exact (numberTail?_suffix h).length_le
    · split at h
      · exact ((numberTail?_suffix h).trans (List.dropWhile_suffix _)).length_le
      · cases h

theorem parts?_suffix {t after : Text} {parts : List Part}
    (h : parts? t = some (parts, after)) : after <:+ t := by
  fun_induction parts? t generalizing parts after with
  | case1 => cases h
  | case2 rest =>
    obtain ⟨-, rfl⟩ := Prod.mk.inj (Option.some.inj h)
    exact List.suffix_cons ..
  | case3 a b c d rest ih =>
    obtain ⟨_, -, h⟩ := Option.bind_eq_some_iff.1 h
    obtain ⟨_, -, h⟩ := Option.bind_eq_some_iff.1 h
    obtain ⟨_, -, h⟩ := Option.bind_eq_some_iff.1 h
    obtain ⟨_, -, h⟩ := Option.bind_eq_some_iff.1 h
    obtain ⟨⟨us, vs⟩, hp, h⟩ := Option.bind_eq_some_iff.1 h
    obtain ⟨-, rfl⟩ := Prod.mk.inj (Option.some.inj h)
    exact (ih hp).trans ⟨['\\', 'u', a, b, c, d], rfl⟩
  | case4 c rest _ ih =>
    obtain ⟨_, -, h⟩ := Option.bind_eq_some_iff.1 h
    obtain ⟨⟨us, vs⟩, hp, h⟩ := Option.bind_eq_some_iff.1 h
    obtain ⟨-, rfl⟩ := Prod.mk.inj (Option.some.inj h)
    exact (ih hp).trans ⟨['\\', c], rfl⟩
  | case5 => cases h
  | case6 c rest _ _ _ _ ih =>
    obtain ⟨⟨us, vs⟩, hp, hx⟩ := Option.map_eq_some_iff.1 h
    obtain ⟨-, rfl⟩ := Prod.mk.inj hx
    exact (ih hp).trans (List.suffix_cons ..)

theorem tokenAt?_length {c : Char} {rest after : Text} {token : JsonToken}
    (h : tokenAt? c rest = some (token, after)) : after.length < (c :: rest).length := by
  unfold tokenAt? at h
  split at h
  case h_7 =>
    obtain ⟨⟨_, _⟩, hp, hx⟩ := Option.map_eq_some_iff.1 h
    obtain ⟨-, rfl⟩ := Prod.mk.inj hx
    exact Nat.lt_succ_of_le (parts?_suffix hp).length_le
  case h_8 =>
    obtain ⟨⟨_, _⟩, hp, hx⟩ := Option.map_eq_some_iff.1 h
    obtain ⟨-, rfl⟩ := Prod.mk.inj hx
    exact Nat.lt_succ_of_lt (number?_length hp)
  case h_12 =>
    obtain ⟨⟨_, _⟩, hp, hx⟩ := Option.map_eq_some_iff.1 h
    obtain ⟨-, rfl⟩ := Prod.mk.inj hx
    exact number?_length hp
  case h_9 | h_10 | h_11 =>
    obtain ⟨_, hp, hx⟩ := Option.map_eq_some_iff.1 h
    obtain ⟨-, rfl⟩ := Prod.mk.inj hx
    rw [Text.dropLead?_eq_some_iff] at hp
    simp [hp]
    omega
  all_goals
    obtain ⟨-, rfl⟩ := Prod.mk.inj (Option.some.inj h)
    exact Nat.lt_succ_self _

def scan? : Text → Option (List JsonToken)
  | [] => some []
  | c :: rest =>
    if isBlank c then scan? rest
    else
      match _ : tokenAt? c rest with
      | none => none
      | some (token, after) => (scan? after).map (token :: ·)
termination_by t => t.length
decreasing_by
  · simp
  · exact tokenAt?_length (by assumption)

end JsonToken

end QueryTemplate
