import QueryTemplate.Proofs.Token.Place
import QueryTemplate.Query.Analysis
import QueryTemplate.Statement.Basic

/-! # Statements as they are written

A `SELECT` statement is written part by part: keywords, symbols, names, words, placeholders and the
arguments of calls. Any white space may stand around the parts, and has to where two of them would
run together. What a statement selects is said here from the statement and not from its text.
-/

namespace QueryTemplate

/-! ## Parts -/

/-- A name as it is written: bare, or between backquotes. -/
inductive WrittenName where
  | bare (name : Text)
  | quoted (name : Text)

structure IsPlainWord (word : Text) : Prop where
  isWord : Lexicon.sql.IsWord word
  keyword : Lexicon.sql.keyword? word = none

instance {word : Text} : Decidable (IsPlainWord word) :=
  decidable_of_iff (Lexicon.sql.IsWord word ∧ Lexicon.sql.keyword? word = none)
    ⟨fun ⟨hword, hkeyword⟩ => ⟨hword, hkeyword⟩, fun h => ⟨h.isWord, h.keyword⟩⟩

namespace WrittenName

def name : WrittenName → Text
  | bare name | quoted name => name

def text : WrittenName → Text
  | bare name => name
  | quoted name => '`' :: (name ++ ['`'])

/-- A bare name is a word that starts like a name; anything else has to be quoted. -/
def IsWellFormed : WrittenName → Prop
  | bare name => IsPlainWord name ∧ Query.isColumnName name
  | quoted name => name ≠ [] ∧ '`' ∉ name

instance : DecidablePred IsWellFormed
  | bare name => inferInstanceAs (Decidable (IsPlainWord name ∧ Query.isColumnName name))
  | quoted name => inferInstanceAs (Decidable (name ≠ [] ∧ '`' ∉ name))

def IsBare : WrittenName → Prop
  | bare _ => True
  | quoted _ => False

instance : DecidablePred IsBare
  | bare _ => inferInstanceAs (Decidable True)
  | quoted _ => inferInstanceAs (Decidable False)

end WrittenName

def Placeholder.opener : Placeholder → Symbol
  | bind => .openBind
  | substitute => .openSubstitute

/-- The placeholder of the given name, without white space in it. -/
def Placeholder.text (sort : Placeholder) (name : Text) : Text :=
  sort.opener.text ++ name ++ Symbol.closeBrace.text

/-- A part of a statement. The argument of a call is taken as it is. -/
inductive StatementPart where
  | keyword (k : Keyword)
  | symbol (s : Symbol)
  | name (n : WrittenName)
  | word (word : Text)
  | placeholder (sort : Placeholder) (name : Text)
  | argument (t : Text)

inductive Balanced : List TokenKind → Prop where
  | nil : Balanced []
  | other {k : TokenKind} {ks : List TokenKind} : k ≠ .symbol .openParen →
    k ≠ .symbol .closeParen → Balanced ks → Balanced (k :: ks)
  | group {inner ks : List TokenKind} : Balanced inner → Balanced ks →
    Balanced (.symbol .openParen :: inner ++ .symbol .closeParen :: ks)

/-- How many groups are open behind tokens of the given kinds, with `depth` open in front of them,
unless more are closed than are open. -/
def openGroups? : Nat → List TokenKind → Option Nat
  | depth, [] => some depth
  | depth, .symbol .openParen :: ks => openGroups? (depth + 1) ks
  | 0, .symbol .closeParen :: _ => none
  | depth + 1, .symbol .closeParen :: ks => openGroups? depth ks
  | depth, _ :: ks => openGroups? depth ks

theorem openGroups?_other {k : TokenKind} (hopen : k ≠ .symbol .openParen)
    (hclose : k ≠ .symbol .closeParen) (depth : Nat) (ks : List TokenKind) :
    openGroups? depth (k :: ks) = openGroups? depth ks := by
  cases depth <;> simp_all [openGroups?]

theorem Balanced.openGroups?_append {ks : List TokenKind} (h : Balanced ks) (depth : Nat)
    (later : List TokenKind) : openGroups? depth (ks ++ later) = openGroups? depth later := by
  induction h generalizing depth later with
  | nil => rfl
  | other hopen hclose _ ih => rw [List.cons_append, openGroups?_other hopen hclose, ih]
  | group _ _ ihInner ihRest =>
    rw [List.append_assoc, List.cons_append, openGroups?, ihInner, List.cons_append, openGroups?,
      ihRest]

/-- The group that is open in front of tokens is closed among them, if fewer are open behind. -/
theorem exists_of_openGroups? {depth left : Nat} {ks : List TokenKind}
    (h : openGroups? (depth + 1) ks = some left) (hleft : left ≤ depth) :
    ∃ inner later, ks = inner ++ .symbol .closeParen :: later ∧ Balanced inner ∧
      openGroups? depth later = some left := by
  induction hn : ks.length using Nat.strongRecOn generalizing depth ks with
  | ind n ih =>
    cases ks with
    | nil =>
      cases h
      omega
    | cons k ks =>
      have hlt : ks.length < n := by simp [← hn]
      by_cases hopen : k = .symbol .openParen
      · subst hopen
        have hdeeper : openGroups? (depth + 2) ks = some left := h
        rcases ih _ hlt hdeeper (by omega) rfl with ⟨group, after, rfl, hgroup, hafter⟩
        simp only [List.length_append, List.length_cons] at hlt
        rcases ih _ (by omega) hafter hleft rfl with ⟨inner, later, rfl, hinner, hlater⟩
        exact ⟨.symbol .openParen :: group ++ .symbol .closeParen :: inner, later, by simp,
          .group hgroup hinner, hlater⟩
      · by_cases hclose : k = .symbol .closeParen
        · subst hclose
          exact ⟨[], ks, rfl, .nil, h⟩
        · rw [openGroups?_other hopen hclose] at h
          rcases ih _ hlt h hleft rfl with ⟨inner, later, rfl, hinner, hlater⟩
          exact ⟨k :: inner, later, rfl, .other hopen hclose hinner, hlater⟩

/-- Parentheses pair if no beginning closes more groups than it opens, and none is left open. -/
theorem balanced_iff {ks : List TokenKind} : Balanced ks ↔ openGroups? 0 ks = some 0 := by
  constructor
  · intro h
    simpa [openGroups?] using h.openGroups?_append 0 []
  · intro h
    induction hn : ks.length using Nat.strongRecOn generalizing ks with
    | ind n ih =>
      cases ks with
      | nil => exact .nil
      | cons k ks =>
        have hlt : ks.length < n := by simp [← hn]
        by_cases hopen : k = .symbol .openParen
        · subst hopen
          rcases exists_of_openGroups? h (Nat.le_refl 0) with ⟨inner, later, rfl, hinner, hlater⟩
          simp only [List.length_append, List.length_cons] at hlt
          exact .group hinner (ih _ (by omega) hlater rfl)
        · by_cases hclose : k = .symbol .closeParen
          · subst hclose
            cases h
          · rw [openGroups?_other hopen hclose] at h
            exact .other hopen hclose (ih _ hlt h rfl)

instance (ks : List TokenKind) : Decidable (Balanced ks) := decidable_of_iff _ balanced_iff.symm

/-- Whether a text can stand as an argument: it has tokens, and its parentheses pair. -/
def IsArgument (t : Text) : Prop :=
  ∃ ts, Lexicon.sql.tokenize t = .ok ts ∧ Balanced (ts.map Token.kind)

instance (t : Text) : Decidable (IsArgument t) :=
  match h : Lexicon.sql.tokenize t with
  | .error _ => .isFalse fun ⟨_, hts, _⟩ => by simp [h] at hts
  | .ok ts => decidable_of_iff (Balanced (ts.map Token.kind))
      ⟨fun hts => ⟨ts, h, hts⟩, fun ⟨_, hus, hbalanced⟩ => by
        cases h.symm.trans hus
        exact hbalanced⟩
namespace StatementPart

/-- Whether a text writes the part. A keyword may be written in any case. -/
def IsWritten : StatementPart → Text → Prop
  | keyword k, t => k.isSpelledBy t
  | symbol s, t => t = s.text
  | name n, t => t = n.text
  | word w, t | argument w, t => t = w
  | placeholder sort n, t => t = sort.text n

def IsWellFormed : StatementPart → Prop
  | keyword _ | symbol _ => True
  | name n => n.IsWellFormed
  | word w => IsPlainWord w
  | placeholder _ n => IsPlainWord n
  | argument t => IsArgument t

/-- The part as it is written, with keywords in upper case. -/
def print : StatementPart → Text
  | keyword k => k.text
  | symbol s => s.text
  | name n => n.text
  | word w => w
  | placeholder sort n => sort.text n
  | argument t => t

end StatementPart

/-- Parts written one after the other, with white space around them. There has to be some where a
part would run on into what is behind it. -/
inductive Laid : List StatementPart → Text → Prop where
  | nil {space : Text} : Text.isBlank space → Laid [] space
  | cons {space written rest : Text} {p : StatementPart} {ps : List StatementPart} :
    Text.isBlank space → p.IsWritten written → Lexicon.sql.Apart written rest → Laid ps rest →
    Laid (p :: ps) (space ++ (written ++ rest))

/-! ## Statements -/

/-- An alias, with or without the keyword in front of it. -/
structure WrittenAlias where
  withAs : Bool
  name : WrittenName

structure WrittenColumn where
  qualifier : Option WrittenName
  name : WrittenName

/-- What a select list shows in one column of the result. A call without function is one of
`IFNULL`; its first argument is the column, and there are further ones. -/
inductive SelectExpression where
  | column (c : WrittenColumn)
  | count (argument : Text)
  | call (function : Option Text) (c : WrittenColumn) (further : Text)
  | literal (word : Text)
  | placeholder (sort : Placeholder) (name : Text)

inductive SelectItem where
  | wildcard (qualifier : Option WrittenName)
  | expression (e : SelectExpression) (aliasName : Option WrittenAlias)

structure WrittenTable where
  schema : Option WrittenName
  name : WrittenName
  aliasName : Option WrittenAlias

inductive ConditionPart where
  | word (word : Text)
  | column (qualifier name : WrittenName)

/-- The kinds of joins that are marked by a keyword. -/
inductive JoinSide where
  | left
  | right
  | inner

structure WrittenJoin where
  side : Option JoinSide
  table : WrittenTable
  condition : List ConditionPart

/-- A `SELECT` statement with at least one item and one table. -/
structure SelectStatement where
  first : SelectItem
  items : List SelectItem
  table : WrittenTable
  tables : List WrittenTable
  joins : List WrittenJoin

/-! ## The parts of a statement -/

def qualifierParts : Option WrittenName → List StatementPart
  | none => []
  | some q => [.name q, .symbol .dot]

def aliasParts : Option WrittenAlias → List StatementPart
  | none => []
  | some ⟨true, name⟩ => [.keyword .AS, .name name]
  | some ⟨false, name⟩ => [.name name]

def commaParts {α : Type} (parts : α → List StatementPart) (first : α) (xs : List α) :
    List StatementPart :=
  parts first ++ xs.flatMap fun x => .symbol .comma :: parts x

def WrittenColumn.parts (c : WrittenColumn) : List StatementPart :=
  qualifierParts c.qualifier ++ [.name c.name]

namespace SelectExpression

def functionPart : Option Text → StatementPart
  | none => .keyword .IFNULL
  | some function => .name (.bare function)

def parts : SelectExpression → List StatementPart
  | column c => c.parts
  | count t => [.keyword .COUNT, .symbol .openParen, .argument t, .symbol .closeParen]
  | call function c t => functionPart function :: .symbol .openParen ::
      (c.parts ++ [.symbol .comma, .argument t, .symbol .closeParen])
  | literal w => [.word w]
  | placeholder sort name => [.placeholder sort name]

end SelectExpression

def SelectItem.parts : SelectItem → List StatementPart
  | wildcard q => qualifierParts q ++ [.symbol .star]
  | expression e aliasName => e.parts ++ aliasParts aliasName

def WrittenTable.parts (t : WrittenTable) : List StatementPart :=
  qualifierParts t.schema ++ .name t.name :: aliasParts t.aliasName

def ConditionPart.parts : ConditionPart → List StatementPart
  | word w => [.word w]
  | column q name => [.name q, .symbol .dot, .name name]

def JoinSide.keyword : JoinSide → Keyword
  | left => .LEFT
  | right => .RIGHT
  | inner => .INNER

def WrittenJoin.parts (j : WrittenJoin) : List StatementPart :=
  j.side.toList.map (fun side => .keyword side.keyword) ++ .keyword .JOIN :: (j.table.parts ++
    .keyword .ON :: j.condition.flatMap ConditionPart.parts)

namespace SelectStatement

/-- The parts from the word `FROM` on. -/
def clauseParts (s : SelectStatement) : List StatementPart :=
  .keyword .FROM ::
    (commaParts WrittenTable.parts s.table s.tables ++ s.joins.flatMap WrittenJoin.parts)

def parts (s : SelectStatement) : List StatementPart :=
  .keyword .SELECT :: (commaParts SelectItem.parts s.first s.items ++ s.clauseParts)

/-- The statement written with single blanks in between. -/
def print (s : SelectStatement) : Text :=
  [' '].intercalate (s.parts.map StatementPart.print)

end SelectStatement

/-! ## What a statement selects -/

def QueryField.unplaced (f : QueryField) : QueryField := { f with span := .point 0 }

def QueryTable.unplaced (t : QueryTable) : QueryTable := { t with span := .point 0 }

/-- The alias of something called `own`: an alias that repeats the name is none. -/
def shownAlias (own : Text) (aliasName : Option WrittenAlias) : Option Text :=
  (aliasName.map (·.name.name)).filter (· ≠ own)

/-- The field of a column, which belongs to its qualifier. -/
def WrittenColumn.field (c : WrittenColumn) : QueryField :=
  ⟨c.qualifier.map WrittenName.name, c.name.name, none, false, false, .point 0⟩

def SelectExpression.field : SelectExpression → QueryField
  | column c | call _ c _ => c.field
  | count _ => .count (.point 0)
  | literal w => .verbatim w (.point 0)
  | placeholder sort name => .verbatim (sort.text name) (.point 0)

def SelectItem.field : SelectItem → QueryField
  | wildcard q =>
    ⟨q.map WrittenName.name, QueryField.wildcardName, none, false, false, .point 0⟩
  | expression e a => { e.field with aliasName := shownAlias e.field.name a }

/-- The table of a reference; the schema does not belong to its name. -/
def WrittenTable.table (t : WrittenTable) : QueryTable :=
  ⟨t.name.name, shownAlias t.name.name t.aliasName, false, .point 0⟩

namespace SelectStatement

def references (s : SelectStatement) : List WrittenTable :=
  s.table :: s.tables ++ s.joins.map WrittenJoin.table

/-- Whether a qualifier is the name or the alias of one of the tables. -/
def Declares (s : SelectStatement) (qualifier : Text) : Prop :=
  ∃ t ∈ s.references, t.name.name = qualifier ∨ ∃ a, t.aliasName = some a ∧ a.name.name = qualifier

/-- The name of the table that a qualifier means: the first table without qualifier, the table of
that name, or else the last table of that alias. -/
def tableNamed (s : SelectStatement) : Option Text → Text
  | none => s.table.name.name
  | some q =>
    if s.references.any (·.name.name == q) then q
    else ((s.references.filter fun t => t.aliasName.any (·.name.name == q)).getLast?.map
      (·.name.name)).getD q

/-- What the statement selects, without places. -/
def shape (s : SelectStatement) : QueryShape :=
  ⟨(s.first :: s.items).map fun i => { i.field with table := some (s.tableNamed i.field.table) },
    s.references.map WrittenTable.table⟩

end SelectStatement

/-! ## Well-formed statements -/

abbrev WrittenAlias.IsWellFormed (a : WrittenAlias) : Prop := a.name.IsWellFormed

structure WrittenColumn.IsWellFormed (c : WrittenColumn) : Prop where
  qualifier : ∀ q ∈ c.qualifier, q.IsWellFormed
  name : c.name.IsWellFormed

instance (c : WrittenColumn) : Decidable c.IsWellFormed :=
  decidable_of_iff ((∀ q ∈ c.qualifier, q.IsWellFormed) ∧ c.name.IsWellFormed)
    ⟨fun ⟨hqualifier, hname⟩ => ⟨hqualifier, hname⟩, fun h => ⟨h.qualifier, h.name⟩⟩

structure WrittenColumn.IsBare (c : WrittenColumn) : Prop where
  qualifier : ∀ q ∈ c.qualifier, q.IsBare
  name : c.name.IsBare

instance (c : WrittenColumn) : Decidable c.IsBare :=
  decidable_of_iff ((∀ q ∈ c.qualifier, q.IsBare) ∧ c.name.IsBare)
    ⟨fun ⟨hqualifier, hname⟩ => ⟨hqualifier, hname⟩, fun h => ⟨h.qualifier, h.name⟩⟩

/-- Whether the expression is well formed. The column in a call is bare, and a literal is a word
that does not start like a name. -/
def SelectExpression.IsWellFormed : SelectExpression → Prop
  | column c => c.IsWellFormed
  | count t => IsArgument t
  | call function c t => (∀ f ∈ function, (WrittenName.bare f).IsWellFormed) ∧ c.IsWellFormed ∧
      c.IsBare ∧ IsArgument t
  | literal w => IsPlainWord w ∧ ¬Query.isColumnName w
  | placeholder _ name => (WrittenName.bare name).IsWellFormed

def SelectItem.IsWellFormed : SelectItem → Prop
  | wildcard q => ∀ n ∈ q, n.IsWellFormed
  | expression e a => e.IsWellFormed ∧ ∀ x ∈ a, x.IsWellFormed

structure WrittenTable.IsWellFormed (t : WrittenTable) : Prop where
  schema : ∀ n ∈ t.schema, n.IsWellFormed
  name : t.name.IsWellFormed
  aliasName : ∀ a ∈ t.aliasName, a.IsWellFormed

instance (t : WrittenTable) : Decidable t.IsWellFormed :=
  decidable_of_iff ((∀ n ∈ t.schema, n.IsWellFormed) ∧ t.name.IsWellFormed ∧
      ∀ a ∈ t.aliasName, a.IsWellFormed)
    ⟨fun ⟨hschema, hname, halias⟩ => ⟨hschema, hname, halias⟩,
      fun h => ⟨h.schema, h.name, h.aliasName⟩⟩

def ConditionPart.IsWellFormed : ConditionPart → Prop
  | word w => IsPlainWord w
  | column q name => q.IsWellFormed ∧ name.IsWellFormed

instance : DecidablePred ConditionPart.IsWellFormed
  | .word w => inferInstanceAs (Decidable (IsPlainWord w))
  | .column q name => inferInstanceAs (Decidable (q.IsWellFormed ∧ name.IsWellFormed))

/-- Whether a part is one of the two words that may stand in front of a select list. -/
def StatementPart.IsQuantifier : StatementPart → Prop
  | name (.bare w) | word w =>
    w.map Char.toLower = "distinct".toList ∨ w.map Char.toLower = "all".toList
  | _ => False

/-- Whether the statement is well formed: its parts are, its qualifiers are declared, and it does
not start like one with a quantifier. -/
structure SelectStatement.IsWellFormed (s : SelectStatement) : Prop where
  items : ∀ i ∈ s.first :: s.items, i.IsWellFormed
  references : ∀ t ∈ s.references, t.IsWellFormed
  conditions : ∀ j ∈ s.joins, ∀ p ∈ j.condition, p.IsWellFormed
  qualifiers : ∀ i ∈ s.first :: s.items, ∀ q ∈ i.field.table, s.Declares q
  quantifier : ∀ p ∈ s.first.parts.head?, ¬p.IsQuantifier

end QueryTemplate
