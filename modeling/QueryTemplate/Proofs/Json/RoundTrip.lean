import QueryTemplate.Proofs.Json.Scanning

/-! # Reading back written values

The tokens of a value, whatever stands behind them, take the reader from where a value has to begin
to where it has ended. So a value is read back from either way of writing it.
-/

namespace QueryTemplate

namespace JsonValue

/-- In an array, a comma goes in front of the next item; only a string with a colon behind it would
be taken for a key. -/
theorem endValue_item (stack : List OpenValue) (items : List JsonValue) (v next : JsonValue)
    {rest : List JsonToken} (hrest : rest.head? ≠ some .colon) :
    endValue (.array items :: stack) v (.comma :: (next.tokens ++ rest)) =
      beginValue (.array (v :: items) :: stack) (next.tokens ++ rest) := by
  rw [endValue]
  intro key later heq
  cases next with
  | string s =>
    obtain ⟨-, rfl⟩ := List.cons.inj heq
    exact hrest rfl
  | null | bool | number | array | object => cases heq

theorem beginValue_openBracket (stack : List OpenValue) (v : JsonValue) (rest : List JsonToken) :
    beginValue stack (.openBracket :: (v.tokens ++ rest)) =
      beginValue (.array [] :: stack) (v.tokens ++ rest) := by
  rw [beginValue]
  intro later heq
  cases v <;> cases heq

/-- The tokens of parts that have others in front of them. -/
def laterTokens (parts : List (List JsonToken)) : List JsonToken :=
  parts.flatMap (JsonToken.comma :: ·)

theorem laterTokens_nil : laterTokens [] = [] := rfl

theorem laterTokens_cons (part : List JsonToken) (parts : List (List JsonToken)) :
    laterTokens (part :: parts) = .comma :: (part ++ laterTokens parts) := rfl

theorem intercalate_cons (part : List JsonToken) (parts : List (List JsonToken)) :
    List.intercalate [.comma] (part :: parts) = part ++ laterTokens parts := by
  induction parts generalizing part with
  | nil => rw [List.intercalate_singleton, laterTokens_nil, List.append_nil]
  | cons next parts ih =>
    rw [List.intercalate_cons_cons, ih next, laterTokens_cons, List.append_assoc]
    rfl

theorem head?_laterTokens (parts : List (List JsonToken)) (rest : List JsonToken) :
    (laterTokens parts ++ .closeBracket :: rest).head? ≠ some .colon := by
  cases parts <;> simp [laterTokens]

mutual

/-- The tokens of a value are read as the value. -/
theorem beginValue_tokens (stack : List OpenValue) (rest : List JsonToken) : ∀ v : JsonValue,
    beginValue stack (v.tokens ++ rest) = endValue stack v rest
  | null | bool _ | number _ | string _ | array [] | object [] => rfl
  | array (item :: items) => by
    rw [tokens, itemsTokens, intercalate_cons, List.append_assoc, List.cons_append,
      List.append_assoc, beginValue_openBracket, beginValue_tokens _ _ item]
    exact endValue_items stack rest items [] item
  | object ((key, value) :: members) => by
    rw [tokens, membersTokens, intercalate_cons, List.append_assoc, List.cons_append,
      List.append_assoc, List.cons_append, List.cons_append, beginValue,
      beginValue_tokens _ _ value]
    exact endValue_members stack rest members [] key value

-- The part that was read last is not on the stack yet, so it stands beside those done.
/-- Behind an item of an array the items that are left are read, and the array ends. -/
theorem endValue_items (stack : List OpenValue) (rest : List JsonToken) :
    ∀ (items done : List JsonValue) (last : JsonValue),
      endValue (.array done :: stack) last
          (laterTokens (itemsTokens items) ++ .closeBracket :: rest) =
        endValue stack (array (done.reverse ++ last :: items)) rest
  | [], done, last => by
    rw [itemsTokens, laterTokens_nil, List.nil_append, endValue, List.reverse_cons]
  | item :: items, done, last => by
    have hlater := endValue_items stack rest items (last :: done) item
    rw [List.reverse_cons, List.append_assoc] at hlater
    rw [itemsTokens, laterTokens_cons, List.cons_append, List.append_assoc,
      endValue_item _ _ _ _ (head?_laterTokens _ rest), beginValue_tokens _ _ item, hlater]
    rfl

/-- Behind a member of an object the members that are left are read, and the object ends. -/
theorem endValue_members (stack : List OpenValue) (rest : List JsonToken) :
    ∀ (members done : List (JsonText × JsonValue)) (key : JsonText) (last : JsonValue),
      endValue (.object done key :: stack) last
          (laterTokens (membersTokens members) ++ .closeBrace :: rest) =
        endValue stack (object (done.reverse ++ (key, last) :: members)) rest
  | [], done, key, last => by
    rw [membersTokens, laterTokens_nil, List.nil_append, endValue, List.reverse_cons]
  | (next, value) :: members, done, key, last => by
    have hlater := endValue_members stack rest members ((key, last) :: done) next value
    rw [List.reverse_cons, List.append_assoc] at hlater
    rw [membersTokens, laterTokens_cons, List.cons_append, List.append_assoc, List.cons_append,
      List.cons_append, endValue, beginValue_tokens _ _ value, hlater]
    rfl

end

theorem parse?_of_scans {t : Text} {v : JsonValue} (h : JsonToken.Scans t v.tokens) :
    parse? t = some v := by
  rw [parse?, h.scan?_eq, Option.bind_eq_bind, Option.bind_some,
    ← List.append_nil v.tokens, beginValue_tokens]
  rfl

/-- A line break behind the text of a value does not matter. -/
theorem parse?_line_of_scans {t : Text} {v : JsonValue} (h : JsonToken.Scans t v.tokens) :
    parse? (t ++ ['\n']) = some v := by
  have hbreak : JsonToken.Scans ['\n'] [] :=
    JsonToken.scans_nil.behind_blank (t := ['\n']) (by simp [JsonToken.isBlank])
  have hline := h.append hbreak (by simp)
  rw [List.append_nil] at hline
  exact parse?_of_scans hline

/-- A value is read back from its text without white space. -/
theorem parse?_compact (v : JsonValue) : parse? v.compact = some v :=
  parse?_of_scans (scans_compact v)

/-- A value is read back from its text on several lines. -/
theorem parse?_pretty (level : Nat) (v : JsonValue) : parse? (v.pretty level) = some v :=
  parse?_of_scans (scans_pretty level v)

end JsonValue

end QueryTemplate
