import Mathlib.Tactic.SplitIfs
import QueryTemplate.Method.ReturnType

/-! # Declared return types

A return type is declared by a spelling of it. The integer has two spellings; every other type is
declared by its own text only. What a declaration can give are the types that have a spelling, and
the text of such a type is one of its spellings, so no two of them are written the same.
-/

namespace QueryTemplate

namespace ElementType

/-- Whether a name can be that of a named type: it has characters, all of them letters, numerals,
underscores, dots, colons or asterisks, and does not stand for a type that mutations return. -/
structure IsOwnName (name : Text) : Prop where
  ne_nil : name ≠ []
  chars : ∀ c ∈ name, Text.isLetterOrNumeral c ∨ c = '_' ∨ c = '.' ∨ c = ':' ∨ c = '*'
  ne_i64 : name ≠ "i64".toList
  ne_int64 : name ≠ "int64".toList
  ne_execResult : name ≠ "exec_result".toList

def IsDeclarable : ElementType → Prop
  | int64 | execResult => True
  | named name => IsOwnName name

inductive Spells : Text → ElementType → Prop where
  | i64 : Spells "i64".toList int64
  | int64 : Spells "int64".toList int64
  | execResult : Spells "exec_result".toList execResult
  | named {name : Text} : IsOwnName name → Spells name (named name)

theorem isNameChar_iff {c : Char} : isNameChar c ↔
    Text.isLetterOrNumeral c ∨ c = '_' ∨ c = '.' ∨ c = ':' ∨ c = '*' := by
  simp [isNameChar, or_assoc]

/-- The names that declare a type are made of the characters of names. -/
theorem Spells.isName {name : Text} {e : ElementType} (h : Spells name e) :
    name ≠ [] ∧ name.all isNameChar := by
  cases h with
  | i64 => decide +kernel
  | int64 => decide +kernel
  | execResult => decide +kernel
  | named hname =>
    exact ⟨hname.ne_nil, List.all_eq_true.2 fun c hc => isNameChar_iff.2 (hname.chars c hc)⟩

theorem Spells.ofName_eq {name : Text} {e : ElementType} (h : Spells name e) : ofName name = e := by
  cases h with
  | i64 => rfl
  | int64 => rfl
  | execResult => rfl
  | named hname =>
    rw [ofName, if_neg (not_or.2 ⟨hname.ne_i64, hname.ne_int64⟩), if_neg hname.ne_execResult]

theorem spells_ofName {name : Text} (hne : name ≠ []) (hall : name.all isNameChar) :
    Spells name (ofName name) := by
  rw [ofName]
  split_ifs with hint hexec
  · rcases hint with rfl | rfl
    · exact .i64
    · exact .int64
  · exact hexec ▸ .execResult
  · obtain ⟨hi64, hint64⟩ := not_or.1 hint
    exact .named ⟨hne, fun c hc => isNameChar_iff.1 (List.all_eq_true.1 hall c hc), hi64, hint64,
      hexec⟩

theorem parse?_eq_some_iff {name : Text} {e : ElementType} :
    parse? name = some e ↔ Spells name e := by
  rw [parse?]
  constructor
  · intro h
    split_ifs at h with hname
    cases h
    exact spells_ofName hname.1 hname.2
  · intro h
    rw [if_pos h.isName, h.ofName_eq]

theorem isDeclarable_iff {e : ElementType} : e.IsDeclarable ↔ ∃ name, Spells name e := by
  constructor
  · intro h
    cases e with
    | int64 => exact ⟨_, .i64⟩
    | execResult => exact ⟨_, .execResult⟩
    | named name => exact ⟨name, .named h⟩
  · rintro ⟨name, h⟩
    cases h with
    | named hname => exact hname
    | _ => trivial

/-- The text of a type is one of its spellings. -/
theorem IsDeclarable.spells_text {e : ElementType} (h : e.IsDeclarable) : Spells e.text e := by
  cases e with
  | int64 => exact .i64
  | execResult => exact .execResult
  | named name => exact .named h

end ElementType

namespace ReturnType

def IsDeclarable (r : ReturnType) : Prop := r.element.IsDeclarable

/-- The texts that declare a type: a name, or a name between brackets for a collection. -/
inductive Spells : Text → ReturnType → Prop where
  | single {name : Text} {e : ElementType} : e.Spells name → Spells name ⟨e, false⟩
  | collection {name : Text} {e : ElementType} : e.Spells name →
    Spells ('[' :: name ++ [']']) ⟨e, true⟩

/-- No name begins with a bracket. -/
theorem parse?_of_spells {name : Text} {e : ElementType} (h : e.Spells name) :
    parse? name = (ElementType.parse? name).map (⟨·, false⟩) := by
  unfold parse?
  split
  · have hbracket := List.all_eq_true.1 h.isName.2 '[' (List.mem_cons_self ..)
    exact absurd hbracket (by decide +kernel)
  · rfl

theorem parse?_brackets (name : Text) :
    parse? ('[' :: name ++ [']']) = (ElementType.parse? name).map (⟨·, true⟩) := by
  rw [List.cons_append, parse?, if_pos List.getLast?_concat, List.dropLast_concat]

theorem parse?_eq_some_iff {t : Text} {r : ReturnType} : parse? t = some r ↔ Spells t r := by
  constructor
  · intro h
    unfold parse? at h
    split at h
    · rename_i rest
      split_ifs at h with hclosed
      obtain ⟨e, he, rfl⟩ := Option.map_eq_some_iff.1 h
      obtain ⟨name, rfl⟩ := List.getLast?_eq_some_iff.1 hclosed
      rw [List.dropLast_concat] at he
      exact .collection (ElementType.parse?_eq_some_iff.1 he)
    · obtain ⟨e, he, rfl⟩ := Option.map_eq_some_iff.1 h
      exact .single (ElementType.parse?_eq_some_iff.1 he)
  · intro h
    cases h with
    | single he => rw [parse?_of_spells he, ElementType.parse?_eq_some_iff.2 he, Option.map_some]
    | collection he =>
      rw [parse?_brackets, ElementType.parse?_eq_some_iff.2 he, Option.map_some]

theorem Spells.isDeclarable {t : Text} {r : ReturnType} (h : Spells t r) : r.IsDeclarable := by
  cases h with
  | single he => exact ElementType.isDeclarable_iff.2 ⟨_, he⟩
  | collection he => exact ElementType.isDeclarable_iff.2 ⟨_, he⟩

theorem IsDeclarable.spells_text {r : ReturnType} (h : r.IsDeclarable) : Spells r.text r := by
  obtain ⟨e, isCollection⟩ := r
  have he : e.Spells e.text := ElementType.IsDeclarable.spells_text h
  cases isCollection with
  | false => exact .single he
  | true => exact .collection he

/-- **Declared return types are read back from their texts.** What a text declares is the integer,
the result of an execution or a type of its own name, or a collection of these; and each of them is
declared by its own text, so that reading, writing and reading again changes nothing and no two
types that can be declared have the same text. -/
theorem parse?_text :
    (∀ t r, parse? t = some r → r.IsDeclarable) ∧
    (∀ r : ReturnType, r.IsDeclarable → parse? r.text = some r) ∧
    (∀ t r, parse? t = some r → parse? r.text = some r) ∧
    ∀ t t' r r', parse? t = some r → parse? t' = some r' → r.text = r'.text → r = r' := by
  have haccepted (t : Text) (r : ReturnType) (h : parse? t = some r) : r.IsDeclarable :=
    (parse?_eq_some_iff.1 h).isDeclarable
  have hread (r : ReturnType) (h : r.IsDeclarable) : parse? r.text = some r :=
    parse?_eq_some_iff.2 h.spells_text
  refine ⟨haccepted, hread, fun t r h => hread r (haccepted t r h), ?_⟩
  intro t t' r r' h h' htext
  have hr := hread r (haccepted t r h)
  rw [htext, hread r' (haccepted t' r' h')] at hr
  exact (Option.some.inj hr).symm

/-- The longer spelling of the integer between brackets is written with the shorter one, and a
pointer to a qualified name with letters beyond ASCII is written as it is. -/
theorem parse?_text_spellings :
    parse? "[int64]".toList = some ⟨.int64, true⟩ ∧
    parse? (text ⟨.int64, true⟩) = some ⟨.int64, true⟩ ∧
    parse? "*m\u00F6del::T.\u0664".toList = some ⟨.named "*m\u00F6del::T.\u0664".toList, false⟩ ∧
    IsDeclarable ⟨.named "*m\u00F6del::T.\u0664".toList, false⟩ := by
  have hint : parse? "[int64]".toList = some ⟨.int64, true⟩ := by decide +kernel
  have hnamed : parse? "*m\u00F6del::T.\u0664".toList =
      some ⟨.named "*m\u00F6del::T.\u0664".toList, false⟩ := by decide +kernel
  exact ⟨hint, parse?_text.2.2.1 _ _ hint, hnamed, parse?_text.1 _ _ hnamed⟩

end ReturnType

end QueryTemplate
