import QueryTemplate.Json.Parser
import QueryTemplate.Json.Printer
import Mathlib.Data.List.Forall2

/-! # The tokens of written values

What is written for a value is divided into the tokens of that value again, whether it is written
without white space or on several lines. Only a number has to be followed by something that it
could not go on with, and in a value it is followed by a comma or a closing bracket, if not by
white space.
-/

namespace QueryTemplate

namespace JsonToken

/-! ## Numbers -/

def EndsNumber (rest : Text) : Prop :=
  ∀ c ∈ rest.head?, c.isDigit = false ∧ c ≠ '.' ∧ c ≠ 'e' ∧ c ≠ 'E'

def EndsDigits (rest : Text) : Prop := ∀ c ∈ rest.head?, c.isDigit = false

theorem EndsNumber.endsDigits {rest : Text} (h : EndsNumber rest) : EndsDigits rest :=
  fun c hc => (h c hc).1

@[simp] theorem endsNumber_nil : EndsNumber [] := by simp [EndsNumber]

@[simp] theorem endsNumber_cons (c : Char) (rest : Text) :
    EndsNumber (c :: rest) ↔ c.isDigit = false ∧ c ≠ '.' ∧ c ≠ 'e' ∧ c ≠ 'E' := by
  simp [EndsNumber]

theorem EndsNumber.append {t rest : Text} (ht : EndsNumber t) (hrest : EndsNumber rest) :
    EndsNumber (t ++ rest) := by
  cases t with
  | nil => exact hrest
  | cons c t => exact (endsNumber_cons c _).2 ((endsNumber_cons c t).1 ht)

theorem isDigit_toDigits {n : Nat} {c : Char} (h : c ∈ Nat.toDigits 10 n) : c.isDigit = true :=
  Nat.isDigit_of_mem_toDigits (by decide) (by decide) h

theorem exists_toDigits (n : Nat) :
    ∃ c digits, Nat.toDigits 10 n = c :: digits ∧ c.isDigit = true := by
  obtain ⟨c, digits, hdigits⟩ := List.exists_cons_of_ne_nil (Nat.toDigits_ne_nil (n := n) (b := 10))
  exact ⟨c, digits, hdigits, isDigit_toDigits (n := n) (hdigits ▸ List.mem_cons_self ..)⟩

theorem digitsValue_toDigits (n : Nat) : digitsValue 0 (Nat.toDigits 10 n) = n :=
  Nat.ofDigitChars_toDigits (by decide) (by decide)

/-- The digits at the beginning of a text are those in front of a character that is none. -/
theorem span_digits {digits rest : Text} (hdigits : ∀ c ∈ digits, c.isDigit = true)
    (hrest : EndsDigits rest) :
    (digits ++ rest).takeWhile Char.isDigit = digits ∧
      (digits ++ rest).dropWhile Char.isDigit = rest := by
  rw [List.takeWhile_append_of_pos hdigits, List.dropWhile_append_of_pos hdigits]
  cases rest with
  | nil => simp
  | cons c rest =>
    have hc : c.isDigit = false := hrest c rfl
    simp [hc]

theorem digits?_toDigits (n : Nat) {rest : Text} (hrest : EndsDigits rest) :
    digits? (Nat.toDigits 10 n ++ rest) = some (Nat.toDigits 10 n, rest) := by
  obtain ⟨htake, hdrop⟩ := span_digits (fun _ => isDigit_toDigits (n := n)) hrest
  have hhead : (Nat.toDigits 10 n ++ rest).head?.any Char.isDigit = true := by
    obtain ⟨c, digits, hdigits, hc⟩ := exists_toDigits n
    simp [hdigits, hc]
  rw [digits?, if_pos hhead, htake, hdrop]

/-- The digits of a number begin with a zero only if there is no other. -/
theorem toDigits_cases (n : Nat) :
    n = 0 ∧ Nat.toDigits 10 n = ['0'] ∨
      ∃ c digits, Nat.toDigits 10 n = c :: digits ∧ c ≠ '0' := by
  induction n using Nat.strongRecOn with
  | ind n ih =>
    by_cases hn : n < 10
    · rw [Nat.toDigits_of_lt_base hn]
      have hdigit : ∀ n < 10, n = 0 ∧ [n.digitChar] = ['0'] ∨ n.digitChar ≠ '0' := by decide
      exact (hdigit n hn).imp_right fun h => ⟨_, [], rfl, h⟩
    · rw [Nat.toDigits_of_base_le (by decide) (Nat.le_of_not_lt hn)]
      rcases ih (n / 10) (by omega) with ⟨hzero, -⟩ | ⟨c, digits, hdigits, hc⟩
      · omega
      · exact .inr ⟨c, digits ++ [(n % 10).digitChar], by rw [hdigits]; rfl, hc⟩

theorem number?_toDigits (negative : Bool) (n : Nat) {rest : Text}
    (hrest : EndsDigits rest) :
    number? negative (Nat.toDigits 10 n ++ rest) = numberTail? negative n rest := by
  rcases toDigits_cases n with ⟨rfl, hdigits⟩ | ⟨c, digits, hdigits, hc⟩
  · rw [hdigits]
    rfl
  · have hvalue := digitsValue_toDigits n
    have hall := fun c => isDigit_toDigits (n := n) (c := c)
    rw [hdigits] at hvalue hall ⊢
    obtain ⟨htake, hdrop⟩ := span_digits (fun c hc => hall c (List.mem_cons_of_mem _ hc)) hrest
    simp only [List.cons_append, number?, if_neg hc, hall c (List.mem_cons_self ..), htake, hdrop,
      hvalue, if_true]

theorem numberTail?_whole (n : Nat) {rest : Text} (hrest : EndsNumber rest) :
    numberTail? false n rest = some (.whole n, rest) := by
  cases rest with
  | nil => rfl
  | cons c rest =>
    obtain ⟨-, hpoint, he, hE⟩ := (endsNumber_cons c rest).1 hrest
    simp [numberTail?, fraction?, exponent?, hpoint, he, hE]

theorem splitSign_toDigits (n : Nat) (rest : Text) :
    splitSign (Nat.toDigits 10 n ++ rest) = (false, Nat.toDigits 10 n ++ rest) := by
  obtain ⟨c, digits, hdigits, hc⟩ := exists_toDigits n
  have hminus : c ≠ '-' := by
    rintro rfl
    cases hc
  have hplus : c ≠ '+' := by
    rintro rfl
    cases hc
  simp [hdigits, splitSign, hminus, hplus]

/-- The power of ten of a decimal number as it is written. -/
def writtenExponent : Int → Text
  | .ofNat e => Nat.toDigits 10 e
  | .negSucc e => '-' :: Nat.toDigits 10 (e + 1)

theorem exponent?_writtenExponent (exponent : Int) {rest : Text}
    (hrest : EndsDigits rest) :
    exponent? ('e' :: writtenExponent exponent ++ rest) = some (some exponent, rest) := by
  cases exponent with
  | ofNat e =>
    simp only [writtenExponent, List.cons_append, exponent?, true_or, if_true,
      splitSign_toDigits, digits?_toDigits e hrest, digitsValue_toDigits, Option.map_some,
      Bool.false_eq_true, if_false]
    rfl
  | negSucc e =>
    simp only [writtenExponent, List.cons_append, exponent?, true_or, if_true, splitSign,
      digits?_toDigits (e + 1) hrest, digitsValue_toDigits, Option.map_some]
    rfl

theorem numberTail?_writtenExponent (negative : Bool) (digits : Nat) (exponent : Int)
    {rest : Text} (hrest : EndsDigits rest) :
    numberTail? negative digits ('e' :: writtenExponent exponent ++ rest) =
      some (.decimal negative digits exponent, rest) := by
  have hexponent := exponent?_writtenExponent exponent hrest
  rw [List.cons_append] at hexponent
  simp [numberTail?, fraction?, hexponent, digitsValue]

/-! ## Strings -/

theorem hexValue?_hexDigit : ∀ n < 16, hexValue? (JsonText.hexDigit n) = some n := by decide

theorem unitPart_toNat {c : Char} (h : c.toNat < 0x20) : unitPart c.toNat = .char c := by
  rw [unitPart, if_neg (by omega), Char.ofNat_toNat]

def withPart (part : Part) (found : List Part × Text) : List Part × Text :=
  (part :: found.1, found.2)

theorem parts?_escaped {letter c : Char} (hu : letter ≠ 'u') (hc : escaped? letter = some c)
    (rest : Text) :
    parts? ('\\' :: letter :: rest) = (parts? rest).map (withPart (.char c)) := by
  rw [parts?, hc]
  · cases parts? rest <;> rfl
  · rintro _ _ _ _ _ rfl -
    exact hu rfl

theorem parts?_unit {c : Char} (hc : c.toNat < 0x20) (rest : Text) :
    parts? ('\\' :: 'u' :: '0' :: '0' :: JsonText.hexDigit (c.toNat / 16) ::
      JsonText.hexDigit (c.toNat % 16) :: rest) = (parts? rest).map (withPart (.char c)) := by
  have hzero : hexValue? '0' = some 0 := by decide
  have hhigh := hexValue?_hexDigit (c.toNat / 16) (by omega)
  have hlow := hexValue?_hexDigit (c.toNat % 16) (by omega)
  have hunit : unitPart (((0 * 16 + 0) * 16 + c.toNat / 16) * 16 + c.toNat % 16) = .char c := by
    rw [← unitPart_toNat hc]
    congr 1
    omega
  rw [parts?, hzero, hhigh, hlow]
  simp only [Option.bind_eq_bind, Option.bind_some, hunit]
  cases parts? rest <;> rfl

theorem parts?_plain {c : Char} (hquote : c ≠ '"') (hbackslash : c ≠ '\\')
    (hc : ¬c.toNat < 0x20) (rest : Text) :
    parts? (c :: rest) = (parts? rest).map (withPart (.char c)) := by
  rw [parts?, if_neg (by simp [hbackslash, hc])]
  · rfl
  all_goals simp [hquote, hbackslash]

/-- An escaped character is read back, whatever follows. -/
theorem parts?_escape (c : Char) (rest : Text) :
    parts? (JsonText.escape c ++ rest) = (parts? rest).map (withPart (.char c)) := by
  have hcode {n : Nat} (h : c.toNat = n) : Char.ofNat n = c := h ▸ Char.ofNat_toNat c
  unfold JsonText.escape
  split_ifs with hquote hbackslash hline hreturn htab hback hfeed hcontrol
  · exact parts?_escaped (by decide) (by rw [hquote]; rfl) rest
  · exact parts?_escaped (by decide) (by rw [hbackslash]; rfl) rest
  · exact parts?_escaped (by decide) (hline ▸ rfl) rest
  · exact parts?_escaped (by decide) (hreturn ▸ rfl) rest
  · exact parts?_escaped (by decide) (htab ▸ rfl) rest
  · have hletter : escaped? 'b' = some c := congrArg some (hcode hback)
    exact parts?_escaped (by decide) hletter rest
  · have hletter : escaped? 'f' = some c := congrArg some (hcode hfeed)
    exact parts?_escaped (by decide) hletter rest
  · exact parts?_unit hcontrol rest
  · exact parts?_plain hquote hbackslash hcontrol rest

theorem parts?_print (t rest : Text) :
    parts? (t.flatMap JsonText.escape ++ '"' :: rest) = some (t.map .char, rest) := by
  induction t with
  | nil => rw [List.flatMap_nil, List.nil_append, parts?, List.map_nil]
  | cons c t ih =>
    rw [List.flatMap_cons, List.append_assoc, parts?_escape, ih]
    rfl

theorem join?_map_char (t : Text) : join? (t.map .char) = some t := by
  induction t with
  | nil => rfl
  | cons c t ih => rw [List.map_cons, join?, ih, Option.map_some]

/-! ## Tokens -/

/-- Whether a text is divided into the tokens, whatever follows that ends a number. -/
def Scans (t : Text) (tokens : List JsonToken) : Prop :=
  ∀ rest, EndsNumber rest → scan? (t ++ rest) = (scan? rest).map (tokens ++ ·)

theorem Scans.append {t u : Text} {ts us : List JsonToken} (ht : Scans t ts) (hu : Scans u us)
    (h : EndsNumber u) : Scans (t ++ u) (ts ++ us) := by
  intro rest hrest
  rw [List.append_assoc, ht (u ++ rest) (h.append hrest), hu rest hrest, Option.map_map]
  simp only [Function.comp_def, List.append_assoc]

theorem Scans.scan?_eq {t : Text} {tokens : List JsonToken} (h : Scans t tokens) :
    scan? t = some tokens := by
  have hrun := h [] endsNumber_nil
  rw [List.append_nil, scan?, Option.map_some, List.append_nil] at hrun
  exact hrun

theorem scan?_of_tokenAt? {c : Char} {t after : Text} {token : JsonToken}
    (hc : isBlank c = false) (h : tokenAt? c t = some (token, after)) :
    scan? (c :: t) = (scan? after).map (token :: ·) := by
  rw [scan?, hc]
  simp only [Bool.false_eq_true, if_false]
  split
  · next hnone =>
    rw [h] at hnone
    cases hnone
  · next token' after' hsome =>
    rw [h] at hsome
    cases hsome
    rfl

theorem scans_of_tokenAt? {c : Char} {t : Text} {token : JsonToken} (hc : isBlank c = false)
    (h : ∀ rest, EndsNumber rest → tokenAt? c (t ++ rest) = some (token, rest)) :
    Scans (c :: t) [token] :=
  fun rest hrest => scan?_of_tokenAt? hc (h rest hrest)

/-- White space in front of a text has no tokens. -/
theorem Scans.behind_blank {t u : Text} {tokens : List JsonToken} (hu : Scans u tokens)
    (ht : ∀ c ∈ t, isBlank c = true) : Scans (t ++ u) tokens := by
  induction t with
  | nil => exact hu
  | cons c t ih =>
    intro rest hrest
    have hc : isBlank c = true := ht c (List.mem_cons_self ..)
    rw [List.cons_append, List.cons_append, scan?, if_pos hc]
    exact ih (fun c hc => ht c (List.mem_cons_of_mem _ hc)) rest hrest

theorem scans_nil : Scans [] [] := by
  intro rest _
  simp

/-- Whether the character is a token by itself, whatever follows, and ends a number. -/
structure IsSymbol (c : Char) (token : JsonToken) : Prop where
  isBlank : isBlank c = false
  endsNumber : EndsNumber [c]
  tokenAt? : ∀ rest, tokenAt? c rest = some (token, rest)

theorem isSymbol_openBracket : IsSymbol '[' .openBracket := ⟨rfl, by simp, fun _ => rfl⟩

theorem isSymbol_closeBracket : IsSymbol ']' .closeBracket := ⟨rfl, by simp, fun _ => rfl⟩

theorem isSymbol_openBrace : IsSymbol '\x7b' .openBrace := ⟨rfl, by simp, fun _ => rfl⟩

theorem isSymbol_closeBrace : IsSymbol '\x7d' .closeBrace := ⟨rfl, by simp, fun _ => rfl⟩

theorem isSymbol_comma : IsSymbol ',' .comma := ⟨rfl, by simp, fun _ => rfl⟩

theorem isSymbol_colon : IsSymbol ':' .colon := ⟨rfl, by simp, fun _ => rfl⟩

theorem IsSymbol.endsNumber_cons {c : Char} {token : JsonToken} (h : IsSymbol c token)
    (rest : Text) : EndsNumber (c :: rest) :=
  h.endsNumber

theorem Scans.behind_symbol {c : Char} {t : Text} {token : JsonToken} {tokens : List JsonToken}
    (ht : Scans t tokens) (h : IsSymbol c token) : Scans (c :: t) (token :: tokens) := by
  intro rest hrest
  rw [List.cons_append, scan?_of_tokenAt? h.isBlank (h.tokenAt? (t ++ rest)), ht rest hrest,
    Option.map_map]
  rfl

theorem scans_null : Scans "null".toList [.null] :=
  scans_of_tokenAt? rfl fun _ _ => rfl

theorem scans_bool (b : Bool) : Scans (if b then "true".toList else "false".toList) [.bool b] := by
  cases b <;> exact scans_of_tokenAt? rfl fun _ _ => rfl

theorem scans_string (s : JsonText) : Scans s.print [.string s] := by
  cases s with
  | none => exact scans_of_tokenAt? rfl fun _ _ => rfl
  | some t =>
    refine scans_of_tokenAt? rfl fun rest _ => ?_
    have hparts := parts?_print t rest
    simp [tokenAt?, hparts, join?_map_char]

theorem tokenAt?_of_isDigit {c : Char} (hc : c.isDigit = true) (rest : Text) :
    tokenAt? c rest = (number? false (c :: rest)).map fun (n, after) => (number n, after) := by
  unfold tokenAt?
  split <;> first | rfl | cases hc

/-- A text that begins with the digits of a number is one token if they are read as one. -/
theorem scans_of_number? {n : Nat} {t : Text} {number : JsonNumber}
    (h : ∀ rest, EndsNumber rest →
      number? false (Nat.toDigits 10 n ++ (t ++ rest)) = some (number, rest)) :
    Scans (Nat.toDigits 10 n ++ t) [.number number] := by
  obtain ⟨c, digits, hdigits, hc⟩ := exists_toDigits n
  have hblank : isBlank c = false := by
    rw [← Bool.not_eq_true]
    intro hblank
    simp only [isBlank, Bool.or_eq_true, decide_eq_true_eq] at hblank
    rcases hblank with ((rfl | rfl) | rfl) | rfl <;> cases hc
  rw [hdigits, List.cons_append]
  refine scans_of_tokenAt? hblank fun rest hrest => ?_
  have hnumber := h rest hrest
  rw [hdigits] at hnumber
  rw [tokenAt?_of_isDigit hc, List.append_assoc, ← List.cons_append, hnumber, Option.map_some]

theorem number?_decimal (negative : Bool) (digits : Nat) (exponent : Int) {rest : Text}
    (hrest : EndsNumber rest) :
    number? negative (Nat.toDigits 10 digits ++ ('e' :: writtenExponent exponent ++ rest)) =
      some (.decimal negative digits exponent, rest) := by
  have hletter : EndsDigits ('e' :: writtenExponent exponent ++ rest) := by simp [EndsDigits]
  rw [number?_toDigits negative digits hletter,
    numberTail?_writtenExponent negative digits exponent hrest.endsDigits]

theorem print_decimal (negative : Bool) (digits : Nat) (exponent : Int) :
    (JsonNumber.decimal negative digits exponent).print =
      (if negative then ['-'] else []) ++
        (Nat.toDigits 10 digits ++ 'e' :: writtenExponent exponent) := by
  cases negative <;> cases exponent <;> simp [JsonNumber.print, writtenExponent]

theorem scans_number (n : JsonNumber) : Scans n.print [.number n] := by
  cases n with
  | whole n =>
    rw [JsonNumber.print, ← List.append_nil (Nat.toDigits 10 n)]
    refine scans_of_number? fun rest hrest => ?_
    rw [List.nil_append, number?_toDigits false n hrest.endsDigits, numberTail?_whole n hrest]
  | decimal negative digits exponent =>
    rw [print_decimal]
    cases negative with
    | false => exact scans_of_number? fun rest hrest => number?_decimal false digits exponent hrest
    | true =>
      rw [if_pos rfl, List.singleton_append]
      refine scans_of_tokenAt? rfl fun rest hrest => ?_
      have hnumber := number?_decimal true digits exponent hrest
      rw [← List.append_assoc] at hnumber
      change (number? true _).map _ = _
      rw [hnumber, Option.map_some]

end JsonToken

/-! ## Values -/

namespace JsonValue

open JsonToken (Scans IsSymbol)

mutual

def tokens : JsonValue → List JsonToken
  | null => [.null]
  | bool b => [.bool b]
  | number n => [.number n]
  | string s => [.string s]
  | array items => .openBracket :: List.intercalate [.comma] (itemsTokens items) ++ [.closeBracket]
  | object members =>
    .openBrace :: List.intercalate [.comma] (membersTokens members) ++ [.closeBrace]

def itemsTokens : List JsonValue → List (List JsonToken)
  | [] => []
  | item :: rest => tokens item :: itemsTokens rest

def membersTokens : List (JsonText × JsonValue) → List (List JsonToken)
  | [] => []
  | (key, value) :: rest => (.string key :: .colon :: tokens value) :: membersTokens rest

end

theorem scans_separate {parts : List Text} {tokens : List (List JsonToken)}
    (h : List.Forall₂ Scans parts tokens) :
    Scans (separate parts) (List.intercalate [.comma] tokens) := by
  induction h with
  | nil => exact JsonToken.scans_nil
  | @cons t ts parts tokens ht hlater ih =>
    cases hlater with
    | nil => simpa [separate] using ht
    | cons hu hlater =>
      rw [separate, List.intercalate_cons_cons, List.append_assoc]
      exact ht.append (ih.behind_symbol JsonToken.isSymbol_comma)
        (JsonToken.isSymbol_comma.endsNumber_cons _)

theorem scans_bracketed {opening closing : Char} {first last : JsonToken} {t : Text}
    {tokens : List JsonToken} (hopening : IsSymbol opening first)
    (hclosing : IsSymbol closing last) (ht : Scans t tokens) :
    Scans (opening :: t ++ [closing]) (first :: tokens ++ [last]) :=
  (ht.append (JsonToken.scans_nil.behind_symbol hclosing) hclosing.endsNumber).behind_symbol
    hopening

theorem scans_member (key : JsonText) {t : Text} {tokens : List JsonToken} (ht : Scans t tokens) :
    Scans (key.print ++ ':' :: t) (.string key :: .colon :: tokens) :=
  (JsonToken.scans_string key).append (ht.behind_symbol JsonToken.isSymbol_colon)
    (JsonToken.isSymbol_colon.endsNumber_cons t)

theorem blank_newLine (level : Nat) : ∀ c ∈ newLine level, JsonToken.isBlank c = true := by
  intro c hc
  rcases List.mem_cons.1 hc with rfl | hc
  · rfl
  · rw [(List.mem_replicate.1 hc).2]
    rfl

theorem scans_enclose {opening closing : Char} {first last : JsonToken} {parts : List Text}
    {tokens : List (List JsonToken)} (hopening : IsSymbol opening first)
    (hclosing : IsSymbol closing last) (h : List.Forall₂ Scans parts tokens) (level : Nat) :
    Scans (enclose level opening closing parts)
      (first :: List.intercalate [.comma] tokens ++ [last]) := by
  have hlast : Scans [closing] [last] := JsonToken.scans_nil.behind_symbol hclosing
  unfold enclose
  cases h with
  | nil => exact hlast.behind_symbol hopening
  | cons hpart hlater =>
    have hlines := List.forall₂_map_left_iff.2 ((List.Forall₂.cons hpart hlater).imp
      fun _ _ ht => ht.behind_blank (blank_newLine (level + 1)))
    have hend : Scans (newLine level ++ [closing]) [last] :=
      hlast.behind_blank (blank_newLine level)
    have hnewLine : JsonToken.EndsNumber (newLine level ++ [closing]) := by simp [newLine]
    rw [List.isEmpty_cons, if_neg Bool.false_ne_true, List.append_assoc, List.cons_append]
    exact ((scans_separate hlines).append hend hnewLine).behind_symbol hopening

mutual

/-- A value without white space is divided into the tokens of the value. -/
theorem scans_compact : ∀ v : JsonValue, Scans v.compact v.tokens
  | null => JsonToken.scans_null
  | bool b => JsonToken.scans_bool b
  | number n => JsonToken.scans_number n
  | string s => JsonToken.scans_string s
  | array items => scans_bracketed JsonToken.isSymbol_openBracket JsonToken.isSymbol_closeBracket
      (scans_separate (scans_compactItems items))
  | object members => scans_bracketed JsonToken.isSymbol_openBrace JsonToken.isSymbol_closeBrace
      (scans_separate (scans_compactMembers members))

theorem scans_compactItems :
    ∀ items : List JsonValue, List.Forall₂ Scans (compactItems items) (itemsTokens items)
  | [] => .nil
  | item :: rest => .cons (scans_compact item) (scans_compactItems rest)

theorem scans_compactMembers : ∀ members : List (JsonText × JsonValue),
    List.Forall₂ Scans (compactMembers members) (membersTokens members)
  | [] => .nil
  | (key, value) :: rest =>
    .cons (scans_member key (scans_compact value)) (scans_compactMembers rest)

end

mutual

/-- A value on several lines is divided into the same tokens. -/
theorem scans_pretty (level : Nat) : ∀ v : JsonValue, Scans (v.pretty level) v.tokens
  | null => JsonToken.scans_null
  | bool b => JsonToken.scans_bool b
  | number n => JsonToken.scans_number n
  | string s => JsonToken.scans_string s
  | array items => scans_enclose JsonToken.isSymbol_openBracket JsonToken.isSymbol_closeBracket
      (scans_prettyItems level items) level
  | object members => scans_enclose JsonToken.isSymbol_openBrace JsonToken.isSymbol_closeBrace
      (scans_prettyMembers level members) level

theorem scans_prettyItems (level : Nat) :
    ∀ items : List JsonValue, List.Forall₂ Scans (prettyItems level items) (itemsTokens items)
  | [] => .nil
  | item :: rest => .cons (scans_pretty (level + 1) item) (scans_prettyItems level rest)

theorem scans_prettyMembers (level : Nat) : ∀ members : List (JsonText × JsonValue),
    List.Forall₂ Scans (prettyMembers level members) (membersTokens members)
  | [] => .nil
  | (key, value) :: rest => by
    have hvalue := scans_pretty (level + 1) value
    refine .cons (scans_member key ?_) (scans_prettyMembers level rest)
    exact JsonToken.Scans.behind_blank hvalue (t := [' ']) (by simp [JsonToken.isBlank])

end

end JsonValue

end QueryTemplate
