import Mathlib.Logic.Relation
import QueryTemplate.Proofs.Query.Items
import QueryTemplate.Proofs.Query.Regrouping
import QueryTemplate.Proofs.Token.Edge

/-! # Another token in the place of one

Two query texts that differ in one token only have the same tokens in front of it and behind it. In
front of it the places are the same, and behind it they are moved.
-/

namespace QueryTemplate

theorem Token.kind_ne {t : Token} {s : Symbol} (h : t.isSymbol s = false) : t.kind ≠ .symbol s := by
  intro hs
  simp [Token.isSymbol, hs] at h

/-- Whether what stands behind the tokens stands behind a qualifier's dot: behind a dot that does
not stand behind such a dot itself. -/
def Query.isQualified (ts : List Token) : Bool :=
  ts.foldl (fun qualified t => !qualified && t.isSymbol .dot) false

/-- What stands behind a token that is no dot does not depend on what is in front of that. -/
theorem Query.isQualified_append_cons (ts : List Token) {t : Token} (ht : ¬t.isSymbol .dot)
    (us : List Token) : isQualified (ts ++ t :: us) = isQualified us := by
  simp [isQualified, List.foldl_append, ht]

theorem Query.exists_dot_of_isQualified {ts : List Token} (h : isQualified ts) :
    ∃ last ∈ ts.getLast?, last.isSymbol .dot := by
  rcases List.eq_nil_or_concat ts with rfl | ⟨us, last, rfl⟩
  · cases h
  · rw [List.concat_eq_append] at h ⊢
    refine ⟨last, by simp, ?_⟩
    simp only [isQualified, List.foldl_append, List.foldl_cons, List.foldl_nil,
      Bool.and_eq_true] at h
    exact h.2

/-- The select list of a query text, with the tokens behind it. -/
def Query.selected (text : Text) : Checked (List QueryField × List Token) :=
  (Query.ofText text).skipAllBraces (Lexicon.sql.read (.ofText text)).tokens >>=
    (Query.ofText text).selectList

/-- A step of the scan for tables leads from the ones to the others. -/
def Query.Scans (q : Query) (ts us : List Token) : Prop :=
  ∃ tables, q.clauseStep ts = .ok (some (tables, us))

/-- A token of a query text, with another one for its place. -/
structure Rewording where
  before : Text
  kind : TokenKind
  word : Text
  kind' : TokenKind
  word' : Text
  behind : Text

namespace Rewording

def write (R : Rewording) (w : Text) : Text := R.before ++ (w ++ R.behind)

def start (R : Rewording) : Nat := Text.size R.before

def stop (R : Rewording) (w : Text) : Nat := R.start + Text.size w

def old (R : Rewording) : Token := ⟨R.kind, R.word, ⟨R.start, R.stop R.word⟩⟩

def new (R : Rewording) : Token := ⟨R.kind', R.word', ⟨R.start, R.stop R.word'⟩⟩

/-- The tokens in front of the token. -/
def lead (R : Rewording) : List Token := (Lexicon.sql.read (.ofText R.before)).tokens

/-- The tokens behind the given text in the place of the token. -/
def tail (R : Rewording) (w : Text) : List Token := (Lexicon.sql.read ⟨R.stop w, R.behind⟩).tokens

/-- The two tokens are tokens of the two texts. -/
structure IsRead (R : Rewording) : Prop where
  fault : (Lexicon.sql.read (.ofText R.before)).fault = none
  old : Lexicon.sql.read (.ofText (R.write R.word)) =
    ⟨R.lead ++ R.old :: R.tail R.word, (Lexicon.sql.read ⟨R.stop R.word, R.behind⟩).fault⟩
  new : Lexicon.sql.read (.ofText (R.write R.word')) =
    ⟨R.lead ++ R.new :: R.tail R.word', (Lexicon.sql.read ⟨R.stop R.word', R.behind⟩).fault⟩

variable {R : Rewording}

/-! ## Matching places -/

def beyond (R : Rewording) : Alignment where
  Matches a a' := ∃ n, a = n + R.stop R.word ∧ a' = n + R.stop R.word'
  min := by
    rintro _ _ _ _ ⟨m, rfl, rfl⟩ ⟨n, rfl, rfl⟩
    exact ⟨min m n, by omega, by omega⟩
  max := by
    rintro _ _ _ _ ⟨m, rfl, rfl⟩ ⟨n, rfl, rfl⟩
    exact ⟨max m n, by omega, by omega⟩

theorem start_le_stop (R : Rewording) (w : Text) : R.start ≤ R.stop w := Nat.le_add_right ..

/-- The places in front of the token, each matched with itself, and those behind it. -/
def places (R : Rewording) : Alignment where
  Matches a a' := (a' = a ∧ a ≤ R.start) ∨ R.beyond.Matches a a'
  min := by
    have hle := R.start_le_stop R.word
    have hle' := R.start_le_stop R.word'
    rintro a b a' b' (⟨rfl, ha⟩ | ⟨m, rfl, rfl⟩) (⟨rfl, hb⟩ | ⟨n, rfl, rfl⟩)
    · exact .inl (by omega)
    · exact .inl (by omega)
    · exact .inl (by omega)
    · exact .inr ⟨min m n, by omega, by omega⟩
  max := by
    have hle := R.start_le_stop R.word
    have hle' := R.start_le_stop R.word'
    rintro a b a' b' (⟨rfl, ha⟩ | ⟨m, rfl, rfl⟩) (⟨rfl, hb⟩ | ⟨n, rfl, rfl⟩)
    · exact .inl (by omega)
    · exact .inr ⟨n, by omega, by omega⟩
    · exact .inr ⟨m, by omega, by omega⟩
    · exact .inr ⟨max m n, by omega, by omega⟩

theorem beyond_le_places (R : Rewording) : R.beyond ≤ R.places := fun _ _ h => .inr h

theorem aligned_place (R : Rewording) : Aligned R.places R.old.span R.new.span :=
  ⟨.inl ⟨rfl, Nat.le_refl _⟩, .inr ⟨0, (Nat.zero_add _).symm, (Nat.zero_add _).symm⟩⟩

theorem slice_write {s : Span} (h : s.stop ≤ R.start) (w : Text) :
    Fragment.slice (.ofText (R.write w)) s = Fragment.slice (.ofText R.before) s :=
  Text.slice_append_of_le h _

theorem slice_write_behind (R : Rewording) (w : Text) (a b : Nat) :
    Fragment.slice (.ofText (R.write w)) ⟨a + R.stop w, b + R.stop w⟩ =
      Text.slice R.behind ⟨a, b⟩ := by
  have htext : R.write w = R.before ++ w ++ R.behind := (List.append_assoc ..).symm
  have hsize : R.stop w = Text.size (R.before ++ w) := (Text.size_append ..).symm
  rw [htext, hsize]
  exact Text.slice_append_shift (R.before ++ w) R.behind ⟨a, b⟩

/-! ## Tokens -/

theorem span_of_mem_lead {t : Token} (ht : t ∈ R.lead) :
    t.span.start < t.span.stop ∧ t.span.stop ≤ R.start := by
  have hspan := Lexicon.span_of_mem_read ht
  rw [Fragment.stop, Fragment.ofText, Nat.zero_add] at hspan
  exact hspan.2

/-- Whatever lies in front of the token is at the same place in both texts. -/
theorem aligned_of_stop_le {s : Span} (hstart : s.start ≤ s.stop) (hstop : s.stop ≤ R.start) :
    Aligned R.places s s :=
  ⟨.inl ⟨rfl, Nat.le_trans hstart hstop⟩, .inl ⟨rfl, hstop⟩⟩

theorem aligned_behind (R : Rewording) : Aligned R.beyond (⟨R.stop R.word, R.behind⟩ : Fragment)
    ⟨R.stop R.word', R.behind⟩ :=
  ⟨rfl, fun before _ _ _ => ⟨Text.size before, Nat.add_comm .., Nat.add_comm ..⟩⟩

theorem aligned_tail (R : Rewording) : Aligned R.beyond (R.tail R.word) (R.tail R.word') :=
  (Lexicon.sql.aligned_read R.aligned_behind).tokens

theorem IsRead.aligned_query (hR : R.IsRead) :
    Aligned R.beyond (Query.ofText (R.write R.word)) (Query.ofText (R.write R.word')) where
  stop := by
    refine ⟨Text.size R.behind, ?_, ?_⟩ <;>
      simp only [Query.ofText, Fragment.stop, Fragment.ofText, write, stop, start,
        Text.size_append] <;> omega
  slice := by
    rintro ⟨_, _⟩ ⟨_, _⟩ ⟨⟨m, rfl, rfl⟩, ⟨n, rfl, rfl⟩⟩
    exact (R.slice_write_behind R.word m n).trans (R.slice_write_behind R.word' m n).symm
  fault := by
    rw [Query.ofText, Query.ofText, hR.old, hR.new]
    exact (Lexicon.sql.aligned_read R.aligned_behind).fault

/-! ## Tokens that match -/

/-- The tokens of the text before the change. -/
def tokens (R : Rewording) : List Token := R.lead ++ R.old :: R.tail R.word

/-- The token stands within the span. -/
def Holds (R : Rewording) (s : Span) : Prop := s.start ≤ R.start ∧ R.stop R.word ≤ s.stop

instance (R : Rewording) (s : Span) : Decidable (R.Holds s) := inferInstanceAs (Decidable (_ ∧ _))

/-- The new token is quoted and gives the same name as the old one. -/
def KeepsName (R : Rewording) : Prop :=
  (∃ quote, R.kind' = .quoted quote) ∧ R.new.label = R.old.label

/-- The spans stand in front of the token, behind it or around it, at matching places. -/
inductive Placed (R : Rewording) : Span → Span → Prop where
  | front {s : Span} : s.start ≤ s.stop → s.stop ≤ R.start → Placed R s s
  | behind {s s' : Span} : Aligned R.beyond s s' → Placed R s s'
  | around {s s' : Span} : R.Holds s → Aligned R.places s s' → Placed R s s'

/-- The tokens are the same, or they are the old one and the new one. -/
inductive Match (R : Rewording) : Token → Token → Prop where
  | alike {t t' : Token} : t ≠ R.old → t.kind = t'.kind → t.lexeme = t'.lexeme →
    R.Placed t.span t'.span → Match R t t'
  | word : Match R R.old R.new

/-- An end part of the tokens, and the tokens that match them. -/
structure Rest (R : Rewording) (ts ts' : List Token) : Prop where
  suffix : ts <:+ R.tokens
  pairs : List.Forall₂ R.Match ts ts'

def IsDotted (R : Rewording) : Prop := ∃ last ∈ R.lead.getLast?, last.isSymbol .dot

instance (R : Rewording) : Decidable R.IsDotted := inferInstanceAs (Decidable (∃ _ ∈ _, _))

/-- The token is no keyword, unless it stands behind a dot. -/
def IsPlain (R : Rewording) : Prop := R.kind = .word ∨ R.IsDotted

/-- Neither token is a keyword that tables stand behind. -/
def IsQuiet (R : Rewording) : Prop :=
  ∀ kind ∈ [R.kind, R.kind'], kind ≠ .keyword .FROM ∧ kind ≠ .keyword .JOIN

instance (R : Rewording) : Decidable R.IsQuiet := inferInstanceAs (Decidable (∀ _ ∈ _, _))

/-- The scan of the clauses for tables looks at the old token. -/
def IsScanned (R : Rewording) : Prop :=
  ∃ fields clauses ts us, Query.selected (R.write R.word) = .ok (fields, clauses) ∧
    Relation.ReflTransGen (Query.ofText (R.write R.word)).Scans clauses ts ∧
    (Query.ofText (R.write R.word)).skipAllBraces ts = .ok (R.old :: us)

/-- The scan for tables does not take the token for a keyword that tables stand behind. -/
def EludesScan (R : Rewording) : Prop := R.IsQuiet ∨ ¬R.IsScanned

/-- The token stands in a placeholder or a directive. -/
def IsBraced (R : Rewording) : Prop :=
  ∃ s braces, braces <:+: R.tokens ∧ IsBraces s braces ∧ R.old ∈ braces

/-- An end part of the tokens that does not begin behind a qualifier's dot. The scan for tables
takes the old or the new token for a keyword only behind such a dot. -/
structure Continues (R : Rewording) (ts ts' : List Token) : Prop extends R.Rest ts ts' where
  place (us vs : List Token) : ts = us ++ R.old :: vs → R.EludesScan ∨ Query.isQualified us

/-- An end part of the tokens that does not begin behind a dot. -/
structure Resumes (R : Rewording) (ts ts' : List Token) : Prop extends R.Continues ts ts' where
  start : R.old ∈ ts.head? → ¬R.IsDotted

/-- The first query has the tokens in its text. The queries are alike behind the old token, and
their texts are the same in front of it. -/
structure Queries (R : Rewording) (q q' : Query) : Prop where
  holds : q.Holds R.tokens
  beyond : Aligned R.beyond q q'
  slice : ∀ s : Span, s.stop ≤ R.start → q.source.slice s = q'.source.slice s

/-- The old token is a word or a keyword. The new one is the same name in quotes, or a keyword. A
keyword stands behind a dot, unless it is one that may name a column; one that the scan for tables
looks at does so behind a qualifier's dot. -/
structure IsFit (R : Rewording) : Prop where
  read : R.IsRead
  kind : R.kind = .word ∨ ∃ k, R.kind = .keyword k
  kind' : R.KeepsName ∨ ∃ k, R.kind' = .keyword k
  name : ¬R.IsDotted → R.KeepsName ∧ ∀ k, R.kind = .keyword k → k = .COUNT ∨ k = .IFNULL
  place : R.EludesScan ∨ Query.isQualified R.lead

/-! ## Places -/

theorem Placed.aligned {s s' : Span} (h : R.Placed s s') : Aligned R.places s s' := by
  cases h with
  | front hstart hstop => exact aligned_of_stop_le hstart hstop
  | behind h => exact Realignable.mono R.beyond_le_places h
  | around _ h => exact h

theorem Holds.merge_left {s : Span} (h : R.Holds s) (t : Span) : R.Holds (s.merge t) :=
  ⟨Nat.le_trans (Nat.min_le_left ..) h.1, Nat.le_trans h.2 (Nat.le_max_left ..)⟩

theorem Holds.merge_right {t : Span} (h : R.Holds t) (s : Span) : R.Holds (s.merge t) :=
  ⟨Nat.le_trans (Nat.min_le_right ..) h.1, Nat.le_trans h.2 (Nat.le_max_right ..)⟩

theorem Placed.merge {s s' t t' : Span} (hs : R.Placed s s') (ht : R.Placed t t') :
    R.Placed (s.merge t) (s'.merge t') := by
  have hmerge := hs.aligned.merge ht.aligned
  cases hs with
  | around hs _ => exact .around (hs.merge_left t) hmerge
  | front hstart hstop =>
    cases ht with
    | around ht _ => exact .around (ht.merge_right s) hmerge
    | front hstart' hstop' =>
      refine .front ?_ (Nat.max_le.2 ⟨hstop, hstop'⟩)
      exact Nat.le_trans (Nat.min_le_left ..) (Nat.le_trans hstart (Nat.le_max_left ..))
    | behind ht =>
      rcases ht.stop with ⟨n, hn, -⟩
      refine .around ⟨?_, ?_⟩ hmerge
      · exact Nat.le_trans (Nat.min_le_left ..) (Nat.le_trans hstart hstop)
      · exact Nat.le_trans (hn ▸ Nat.le_add_left ..) (Nat.le_max_right ..)
  | behind hs =>
    cases ht with
    | around ht _ => exact .around (ht.merge_right s) hmerge
    | front hstart' hstop' =>
      rcases hs.stop with ⟨n, hn, -⟩
      refine .around ⟨?_, ?_⟩ hmerge
      · exact Nat.le_trans (Nat.min_le_right ..) (Nat.le_trans hstart' hstop')
      · exact Nat.le_trans (hn ▸ Nat.le_add_left ..) (Nat.le_max_left ..)
    | behind ht => exact .behind (hs.merge ht)

/-- The same text is cut out, unless the token stands within it. -/
theorem Queries.slice_eq {q q' : Query} (hq : R.Queries q q') {s s' : Span} (h : R.Placed s s') :
    q.source.slice s = q'.source.slice s' ∨ R.Holds s := by
  cases h with
  | front _ hstop => exact .inl (hq.slice s hstop)
  | behind h => exact .inl (hq.beyond.slice h)
  | around h _ => exact .inr h

/-! ## Matching tokens -/

theorem IsRead.holds_tokens (hR : R.IsRead) : (Query.ofText (R.write R.word)).Holds R.tokens := by
  have hholds := Query.holds_read (.ofText (R.write R.word))
  rw [hR.old] at hholds
  rw [Query.ofText, hR.old]
  exact hholds

theorem IsRead.queries (hR : R.IsRead) :
    R.Queries (Query.ofText (R.write R.word)) (Query.ofText (R.write R.word')) :=
  ⟨hR.holds_tokens, hR.aligned_query, fun _ h => (slice_write h _).trans (slice_write h _).symm⟩

theorem IsRead.start_lt_stop (hR : R.IsRead) : R.start < R.stop R.word :=
  hR.holds_tokens.start_lt_stop (t := R.old) (by simp [tokens])

theorem IsRead.notMem_lead (hR : R.IsRead) : R.old ∉ R.lead := fun h =>
  Nat.not_lt.2 (span_of_mem_lead h).2 hR.start_lt_stop

theorem IsRead.ne_of_behind (hR : R.IsRead) {t : Token} (h : R.stop R.word ≤ t.span.start) :
    t ≠ R.old := by
  rintro rfl
  exact Nat.not_lt.2 h hR.start_lt_stop

theorem IsRead.stop_le_start (hR : R.IsRead) {t : Token} (ht : t ∈ R.tail R.word) :
    R.stop R.word ≤ t.span.start :=
  have hordered := (List.pairwise_append.1 hR.holds_tokens.ordered).2.1
  (List.pairwise_cons.1 hordered).1 t ht

theorem IsRead.notMem_tail (hR : R.IsRead) : R.old ∉ R.tail R.word := fun h =>
  hR.ne_of_behind (hR.stop_le_start h) rfl

/-- The tokens are cut in two at the old token in one way only. -/
theorem IsRead.eq_of_append (hR : R.IsRead) {ts us : List Token}
    (h : ts ++ R.old :: us = R.tokens) : ts = R.lead ∧ us = R.tail R.word := by
  obtain ⟨hlead, -, htail⟩ :=
    (List.append_cons_inj_of_notMem hR.notMem_lead hR.notMem_tail).1 h.symm
  exact ⟨hlead.symm, htail.symm⟩

theorem IsRead.eq_tail (hR : R.IsRead) {us : List Token} (h : R.old :: us <:+ R.tokens) :
    us = R.tail R.word := by
  rcases h with ⟨ts, hts⟩
  exact (hR.eq_of_append hts).2

theorem IsRead.match_of_aligned (hR : R.IsRead) {t t' : Token} (h : Aligned R.beyond t t') :
    R.Match t t' := by
  rcases h.span.start with ⟨n, hn, -⟩
  refine .alike (hR.ne_of_behind ?_) h.kind h.lexeme (.behind h.span)
  exact hn ▸ Nat.le_add_left ..

theorem IsRead.match_of_mem_lead (hR : R.IsRead) {t : Token} (h : t ∈ R.lead) : R.Match t t := by
  have hspan := span_of_mem_lead h
  refine .alike ?_ rfl rfl (.front (Nat.le_of_lt hspan.1) hspan.2)
  rintro rfl
  exact hR.notMem_lead h

/-- The tokens of the two texts match. -/
theorem IsRead.rest_tokens (hR : R.IsRead) :
    R.Rest R.tokens (R.lead ++ R.new :: R.tail R.word') := by
  refine ⟨List.suffix_rfl, List.rel_append ?_ (.cons .word ?_)⟩
  · exact List.forall₂_same.2 fun _ => hR.match_of_mem_lead
  · exact R.aligned_tail.imp fun _ _ => hR.match_of_aligned

theorem Rest.tail {t t' : Token} {ts ts' : List Token} (h : R.Rest (t :: ts) (t' :: ts')) :
    R.Match t t' ∧ R.Rest ts ts' := by
  obtain ⟨hsuffix, hpairs⟩ := h
  cases hpairs with
  | cons ht hts => exact ⟨ht, (List.suffix_cons ..).trans hsuffix, hts⟩

theorem Match.placed_span {t t' : Token} (h : R.Match t t') : R.Placed t.span t'.span := by
  cases h with
  | alike _ _ _ hspan => exact hspan
  | word => exact .around ⟨Nat.le_refl _, Nat.le_refl _⟩ R.aligned_place

/-- The same name is given by a word and by its quotes. -/
theorem Match.name?_eq {t t' : Token} (h : R.Match t t')
    (hword : t = R.old → R.KeepsName ∧ R.kind = .word) : t'.name? = t.name? := by
  cases h with
  | alike _ hkind hlexeme => rw [Token.name?, Token.name?, hkind, hlexeme]
  | word =>
    obtain ⟨⟨⟨quote, hquote⟩, hlabel⟩, hkind⟩ := hword rfl
    have hold : R.old.name? = some R.old.label := by simp [Token.label, Token.name?, old, hkind]
    rw [hold, ← hlabel]
    simp [Token.label, Token.name?, new, hquote]

namespace IsFit

variable (hR : R.IsFit)
include hR

theorem old_kind : R.old.kind = .word ∨ ∃ k, R.old.kind = .keyword k := hR.kind

theorem new_kind : (∃ quote, R.new.kind = .quoted quote) ∨ ∃ k, R.new.kind = .keyword k :=
  hR.kind'.imp (fun h => h.1) id

theorem old_isSymbol (s : Symbol) : R.old.isSymbol s = false := by
  rcases hR.old_kind with hold | ⟨k, hold⟩ <;> simp [Token.isSymbol, hold]

theorem new_isSymbol (s : Symbol) : R.new.isSymbol s = false := by
  rcases hR.new_kind with ⟨quote, hnew⟩ | ⟨k, hnew⟩ <;> simp [Token.isSymbol, hnew]

theorem isSymbol_eq {t t' : Token} (h : R.Match t t') (s : Symbol) :
    t'.isSymbol s = t.isSymbol s := by
  cases h with
  | alike _ hkind => rw [Token.isSymbol, Token.isSymbol, hkind]
  | word => rw [hR.old_isSymbol, hR.new_isSymbol]

/-- A token that does not stand behind a dot is not changed from or to a keyword that names no
column. -/
theorem isKeyword_eq {t t' : Token} (h : R.Match t t') (hdot : t = R.old → ¬R.IsDotted)
    {k : Keyword} (hcount : k ≠ .COUNT) (hifnull : k ≠ .IFNULL) :
    t'.isKeyword k = t.isKeyword k := by
  cases h with
  | alike _ hkind => rw [Token.isKeyword, Token.isKeyword, hkind]
  | word =>
    obtain ⟨⟨⟨quote, hquote⟩, -⟩, hnames⟩ := hR.name (hdot rfl)
    have hold : R.old.isKeyword k = false := by
      by_contra hold
      rw [Bool.not_eq_false] at hold
      rcases hnames k (eq_of_beq hold) with rfl | rfl
      · exact hcount rfl
      · exact hifnull rfl
    have hnew : R.new.isKeyword k = false := by simp [Token.isKeyword, new, hquote]
    rw [hold, hnew]

theorem place_of_suffix {us vs : List Token} (h : us ++ R.old :: vs <:+ R.tokens)
    (hus : ∀ ts, R.lead = ts ++ us → Query.isQualified R.lead = Query.isQualified us) :
    R.EludesScan ∨ Query.isQualified us := by
  refine hR.place.imp id fun hqualified => ?_
  rcases h with ⟨ts, hts⟩
  rw [← List.append_assoc] at hts
  have hlead := (hR.read.eq_of_append hts).1.symm
  exact hus ts hlead ▸ hqualified

/-- The tokens behind one that is no dot. -/
theorem resumes {t t' : Token} {ts ts' : List Token} (h : R.Rest (t :: ts) (t' :: ts'))
    (ht : ¬t.isSymbol .dot) : R.Resumes ts ts' := by
  rcases h.suffix with ⟨before, hbefore⟩
  refine ⟨⟨h.tail.2, fun us vs hts => ?_⟩, fun hold ⟨last, hlast, hdot⟩ => ?_⟩
  · subst hts
    refine hR.place_of_suffix ((List.suffix_cons t _).trans h.suffix) fun _ _ => ?_
    have hcut : (before ++ t :: us) ++ R.old :: vs = R.tokens := by simpa using hbefore
    rw [← (hR.read.eq_of_append hcut).1, Query.isQualified_append_cons before ht]
  · cases ts with
    | nil => cases hold
    | cons u ts =>
      obtain rfl : u = R.old := Option.some.inj hold
      have hcut : (before ++ [t]) ++ R.old :: ts = R.tokens := by simpa using hbefore
      rw [← (hR.read.eq_of_append hcut).1, List.getLast?_concat, Option.mem_some_iff] at hlast
      exact ht (hlast ▸ hdot)

/-- The tokens from one on that is no dot and the same in both texts. -/
theorem resumes_cons {t t' : Token} {ts ts' : List Token} (h : R.Rest (t :: ts) (t' :: ts'))
    (hold : t ≠ R.old) (ht : ¬t.isSymbol .dot) : R.Resumes (t :: ts) (t' :: ts') := by
  refine ⟨⟨h, fun us vs hts => ?_⟩, fun h => absurd (Option.some.inj h) hold⟩
  cases us with
  | nil => exact absurd (List.cons.inj hts).1 hold
  | cons u us =>
    obtain ⟨rfl, rfl⟩ := List.cons.inj hts
    have hplace := (hR.resumes h ht).place us vs rfl
    rwa [← Query.isQualified_append_cons [] ht us] at hplace

/-- All tokens. -/
theorem resumes_tokens : R.Resumes R.tokens (R.lead ++ R.new :: R.tail R.word') := by
  refine ⟨⟨hR.read.rest_tokens, fun us vs hts => ?_⟩, fun hold ⟨last, hlast, _⟩ => ?_⟩
  · have hsuffix : us ++ R.old :: vs <:+ R.tokens := hts ▸ List.suffix_rfl
    refine hR.place_of_suffix hsuffix fun _ _ => ?_
    rw [(hR.read.eq_of_append hts.symm).1]
  · cases hlead : R.lead with
    | nil => simp [hlead] at hlast
    | cons t ts =>
      rw [tokens, hlead] at hold
      obtain rfl : t = R.old := Option.some.inj hold
      exact absurd (by simp [hlead]) hR.read.notMem_lead

end IsFit

end Rewording

end QueryTemplate
