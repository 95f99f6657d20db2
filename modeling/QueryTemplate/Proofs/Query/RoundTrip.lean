import QueryTemplate.Proofs.Alignment.Query
import QueryTemplate.Proofs.Query.Layout

/-! # Analysing what has been written

A statement that is laid out is analysed into what it selects. Every reader takes the tokens of the
parts it is for and leaves those of the parts behind them, so the readers go on from one another as
the parts do.
-/

namespace QueryTemplate

/-! ## The tokens of a part -/

def WrittenName.ReadsAs (t : Token) : WrittenName → Prop
  | bare n => t.kind = .word ∧ t.lexeme = n
  | quoted n => t.kind = .quoted '`' ∧ t.name? = some n

namespace WrittenName.ReadsAs

variable {n : WrittenName} {t : Token}

theorem name? (h : n.ReadsAs t) : t.name? = some n.name := by
  cases n with
  | bare _ =>
    obtain ⟨hkind, rfl⟩ := h
    simp [Token.name?, hkind, WrittenName.name]
  | quoted _ => exact h.2

theorem label (h : n.ReadsAs t) : t.label = n.name := by
  rw [Token.label, h.name?]
  rfl

theorem kind (h : n.ReadsAs t) : t.kind = .word ∨ t.kind = .quoted '`' := by
  cases n with
  | bare _ => exact .inl h.1
  | quoted _ => exact .inr h.1

theorem isSymbol (h : n.ReadsAs t) (s : Symbol) : t.isSymbol s = false := by
  rcases h.kind with hkind | hkind <;> simp [Token.isSymbol, hkind]

theorem isKeyword (h : n.ReadsAs t) (k : Keyword) : t.isKeyword k = false := by
  rcases h.kind with hkind | hkind <;> simp [Token.isKeyword, hkind]

end WrittenName.ReadsAs

namespace Stands

variable {source : Fragment} {ps : List StatementPart} {ts : List Token}

theorem of_keyword {k : Keyword} (h : Stands source (.keyword k :: ps) ts) :
    ∃ t us, ts = t :: us ∧ t.kind = .keyword k ∧ Stands source ps us := by
  obtain _ | ⟨hreads, hrest⟩ := h
  cases hreads with
  | keyword hkind => exact ⟨_, _, rfl, hkind, hrest⟩

theorem of_symbol {s : Symbol} (h : Stands source (.symbol s :: ps) ts) :
    ∃ t us, ts = t :: us ∧ t.kind = .symbol s ∧ Stands source ps us := by
  obtain _ | ⟨hreads, hrest⟩ := h
  cases hreads with
  | symbol hkind => exact ⟨_, _, rfl, hkind, hrest⟩

theorem of_word {w : Text} (h : Stands source (.word w :: ps) ts) :
    ∃ t us, ts = t :: us ∧ t.kind = .word ∧ t.lexeme = w ∧ Stands source ps us := by
  obtain _ | ⟨hreads, hrest⟩ := h
  cases hreads with
  | word hkind hlexeme => exact ⟨_, _, rfl, hkind, hlexeme, hrest⟩

theorem of_name {n : WrittenName} (h : Stands source (.name n :: ps) ts) :
    ∃ t us, ts = t :: us ∧ n.ReadsAs t ∧ Stands source ps us := by
  obtain _ | ⟨hreads, hrest⟩ := h
  cases hreads with
  | bare hkind hlexeme => exact ⟨_, _, rfl, ⟨hkind, hlexeme⟩, hrest⟩
  | quoted hkind hname => exact ⟨_, _, rfl, ⟨hkind, hname⟩, hrest⟩

theorem of_placeholder {sort : Placeholder} {n : Text}
    (h : Stands source (.placeholder sort n :: ps) ts) :
    ∃ first inner last us, ts = first :: inner :: last :: us ∧
      first.kind = .symbol sort.opener ∧ inner.kind = .word ∧ last.kind = .symbol .closeBrace ∧
      source.slice (first.span.merge last.span) = sort.text n ∧ Stands source ps us := by
  obtain _ | ⟨hreads, hrest⟩ := h
  cases hreads with
  | placeholder hfirst hinner hlast hslice =>
    exact ⟨_, _, _, _, rfl, hfirst, hinner, hlast, hslice, hrest⟩

theorem of_argument {t : Text} (h : Stands source (.argument t :: ps) ts) :
    ∃ us vs, ts = us ++ vs ∧ Balanced (us.map Token.kind) ∧ Stands source ps vs := by
  obtain _ | ⟨hreads, hrest⟩ := h
  cases hreads with
  | argument hbalanced => exact ⟨_, _, rfl, hbalanced, hrest⟩

end Stands

namespace StatementPart

/-- Whether the part ends an item or a table reference and so starts no alias. -/
def Closes : StatementPart → Prop
  | keyword k => k ≠ .AS
  | symbol s => s = .comma
  | _ => False

/-- Whether a name cannot go on with the part, as a qualifier or the name of a function. -/
def EndsName : StatementPart → Prop
  | keyword _ | name _ => True
  | symbol s => s ≠ .dot ∧ s ≠ .openParen
  | _ => False

end StatementPart

namespace Query

variable {q : Query} {ps : List StatementPart} {ts : List Token}

/-! ## Groups -/

/-- The end of a group behind its last argument. -/
theorem groupEnd_of_stands {t : Text}
    (h : Stands q.source (.argument t :: .symbol .closeParen :: ps) ts) :
    ∃ stop us, q.groupEnd 0 ts = .ok (stop, us) ∧ Stands q.source ps us := by
  obtain ⟨us, vs, rfl, hbalanced, h⟩ := h.of_argument
  obtain ⟨u, vs, rfl, hu, h⟩ := h.of_symbol
  refine ⟨u.span, vs, ?_, h⟩
  rw [groupEnd, closingParen?_append hbalanced, closingParen?_cons, hu]

theorem groupEnd_of_comma {t : Text}
    (h : Stands q.source (.symbol .comma :: .argument t :: .symbol .closeParen :: ps) ts) :
    ∃ stop us, q.groupEnd 0 ts = .ok (stop, us) ∧ Stands q.source ps us := by
  obtain ⟨comma, us, rfl, hcomma, hrest⟩ := h.of_symbol
  have hpassed : q.groupEnd 0 (comma :: us) = q.groupEnd 0 us := by
    rw [groupEnd, groupEnd, closingParen?_cons, hcomma]
  rw [hpassed]
  exact groupEnd_of_stands hrest

/-! ## Aliases -/

theorem bareAlias_of_stands {n : WrittenName} (own : Text)
    (h : Stands q.source (.name n :: ps) ts) (withAs : Bool) :
    ∃ us, q.bareAlias own ts = .ok (shownAlias own (some ⟨withAs, n⟩), us) ∧
      Stands q.source ps us := by
  obtain ⟨t, us, rfl, ht, hrest⟩ := h.of_name
  refine ⟨us, ?_, hrest⟩
  rw [bareAlias, ht.name?]
  by_cases hown : n.name = own <;> simp [shownAlias, Option.filter, hown]

theorem aliasOf_of_stands (hq : q.fault = none) {a : Option WrittenAlias} (own : Text)
    (h : Stands q.source (aliasParts a ++ ps) ts) (hps : ∀ p ∈ ps.head?, p.Closes) :
    ∃ us, q.aliasOf own ts = .ok (shownAlias own a, us) ∧ Stands q.source ps us := by
  match a with
  | some ⟨true, n⟩ =>
    obtain ⟨t, us, rfl, ht, hrest⟩ := h.of_keyword
    rw [aliasOf, if_pos (by simp [Token.isKeyword, ht])]
    exact bareAlias_of_stands own hrest true
  | some ⟨false, n⟩ =>
    obtain ⟨t, us, rfl, ht, hrest⟩ := h.of_name
    rw [aliasOf, if_neg (by simp [ht.isKeyword])]
    exact bareAlias_of_stands own h false
  | none =>
    cases ps with
    | nil =>
      cases h
      exact ⟨[], by rw [aliasOf, atEnd, hq]; rfl, .nil⟩
    | cons p ps =>
      have hnone {t : Token} {us : List Token} (ht : t.name? = none)
          (has : t.isKeyword .AS = false) :
          q.aliasOf own (t :: us) = .ok (shownAlias own none, t :: us) := by
        rw [aliasOf, if_neg (by simp [has]), bareAlias, ht]
        rfl
      have hp := hps p rfl
      cases p with
      | keyword k =>
        obtain ⟨t, us, rfl, ht, hrest⟩ := h.of_keyword
        have hk : k ≠ .AS := hp
        exact ⟨_, hnone (by simp [Token.name?, ht]) (by simp [Token.isKeyword, ht, hk]), h⟩
      | symbol s =>
        obtain ⟨t, us, rfl, ht, hrest⟩ := h.of_symbol
        exact ⟨_, hnone (by simp [Token.name?, ht]) (by simp [Token.isKeyword, ht]), h⟩
      | _ => cases hp

/-! ## Columns -/

/-- Whether no token of the given kind of symbol comes first. -/
def NotAt (s : Symbol) (ts : List Token) : Prop := ∀ t ∈ ts.head?, t.isSymbol s = false

theorem notAt_of_kind {s s' : Symbol} {t : Token} (h : t.kind = .symbol s') (hs : s' ≠ s)
    (us : List Token) : NotAt s (t :: us) := by
  rintro _ ⟨⟩
  simp [Token.isSymbol, h, hs]

theorem columnAt_of_notAt (hq : q.fault = none) {first : Token} (h : NotAt .dot ts) :
    q.columnAt first ts = .ok (.column first.label first.span, ts) := by
  cases ts with
  | nil => rw [columnAt, atEnd, hq]
  | cons t ts => rw [columnAt, if_neg (by simp [h t rfl])]

theorem nextIs_of_notAt (hq : q.fault = none) {s : Symbol} (h : NotAt s ts) :
    q.nextIs s ts = .ok false := by
  cases ts with
  | nil => rw [nextIs, atEnd, hq]
  | cons t ts => rw [nextIs, h t rfl]

theorem notAt_of_stands (h : Stands q.source ps ts) (hps : ∀ p ∈ ps.head?, p.EndsName) :
    NotAt .dot ts ∧ NotAt .openParen ts := by
  cases ps with
  | nil =>
    cases h
    exact ⟨fun _ ht => (nomatch ht), fun _ ht => (nomatch ht)⟩
  | cons p ps =>
    have hp := hps p rfl
    cases p with
    | keyword k =>
      obtain ⟨t, us, rfl, ht, -⟩ := h.of_keyword
      constructor <;> rintro _ ⟨⟩ <;> simp [Token.isSymbol, ht]
    | symbol s =>
      obtain ⟨t, us, rfl, ht, -⟩ := h.of_symbol
      exact ⟨notAt_of_kind ht hp.1 us, notAt_of_kind ht hp.2 us⟩
    | name n =>
      obtain ⟨t, us, rfl, ht, -⟩ := h.of_name
      exact ⟨fun _ heq => Option.some.inj heq ▸ ht.isSymbol _,
        fun _ heq => Option.some.inj heq ▸ ht.isSymbol _⟩
    | _ => cases hp

theorem qualifiedColumn_of_readsAs {n : WrittenName} {t : Token} (h : n.ReadsAs t) (first : Token)
    (us : List Token) :
    q.qualifiedColumn first (t :: us) =
      .ok ({ QueryField.column n.name t.span with
        table := some first.label, span := first.span.merge t.span }, us) := by
  rw [← h.label, qualifiedColumn, next]
  rcases h.kind with hkind | hkind <;> simp only [bind, Except.bind, hkind] <;> rfl

/-- What holds of the qualifier and of the name of a column holds of whichever comes first. -/
theorem forall_firstName {holds : WrittenName → Prop} {c : WrittenColumn}
    (hqualifier : ∀ n ∈ c.qualifier, holds n) (hname : holds c.name) :
    holds (c.qualifier.getD c.name) := by
  cases h : c.qualifier with
  | none => exact hname
  | some n => exact hqualifier n h

/-- A column is read up to where its name cannot go on. -/
theorem columnAt_of_stands (hq : q.fault = none) {c : WrittenColumn}
    (h : Stands q.source (c.parts ++ ps) ts) (hps : ∀ p ∈ ps.head?, p.EndsName) :
    ∃ first us f vs, ts = first :: us ∧ (c.qualifier.getD c.name).ReadsAs first ∧
      NotAt .openParen us ∧ q.columnAt first us = .ok (f, vs) ∧ f.unplaced = c.field ∧
      Stands q.source ps vs := by
  obtain ⟨qualifier, name⟩ := c
  cases qualifier with
  | none =>
    obtain ⟨first, us, rfl, hfirst, hrest⟩ := h.of_name
    obtain ⟨hdot, hparen⟩ := notAt_of_stands hrest hps
    refine ⟨first, us, _, us, rfl, hfirst, hparen, columnAt_of_notAt hq hdot, ?_, hrest⟩
    rw [hfirst.label]
    rfl
  | some qualifier =>
    obtain ⟨first, us, rfl, hfirst, hrest⟩ := h.of_name
    obtain ⟨dot, us, rfl, hdot, hrest⟩ := hrest.of_symbol
    obtain ⟨last, us, rfl, hlast, hrest⟩ := hrest.of_name
    have hparen : NotAt .openParen (dot :: last :: us) := notAt_of_kind hdot (by decide) _
    have hcolumn : q.columnAt first (dot :: last :: us) = q.qualifiedColumn first (last :: us) := by
      rw [columnAt, if_pos (by simp [Token.isSymbol, hdot])]
    refine ⟨first, _, _, us, rfl, hfirst, hparen,
      hcolumn.trans (qualifiedColumn_of_readsAs hlast _ _), ?_, hrest⟩
    rw [hfirst.label]
    rfl

/-! ## Expressions -/

structure StartsItem (t : Token) : Prop where
  isFrom : t.isKeyword .FROM = false
  isComma : t.isSymbol .comma = false
  isDirective : t.isSymbol .openDirective = false

theorem startsItem_of_readsAs {n : WrittenName} {t : Token} (h : n.ReadsAs t) : StartsItem t :=
  ⟨h.isKeyword _, h.isSymbol _, h.isSymbol _⟩

theorem symbol_of_kind {s : Symbol} {t : Token} (h : t.kind = .symbol s) (us : List Token) :
    q.symbol s (t :: us) = .ok (t, us) := by
  rw [symbol, if_pos (by simp [Token.isSymbol, h])]

theorem nextIs_of_kind {s : Symbol} {t : Token} (h : t.kind = .symbol s) (us : List Token) :
    q.nextIs s (t :: us) = .ok true := by
  rw [nextIs, Token.isSymbol, h, beq_self_eq_true]

/-- A call gives the column that is its first argument. -/
theorem call_of_stands (hq : q.fault = none) (function : Token) {c : WrittenColumn} {t : Text}
    (hc : c.IsWellFormed) (hbare : c.IsBare)
    (h : Stands q.source (.symbol .openParen ::
      (c.parts ++ .symbol .comma :: .argument t :: .symbol .closeParen :: ps)) ts) :
    ∃ f us, q.call function ts = .ok (f, us) ∧ f.unplaced = c.field ∧ Stands q.source ps us := by
  obtain ⟨opening, us, rfl, hopening, hrest⟩ := h.of_symbol
  obtain ⟨first, us, f, vs, rfl, hfirst, hparen, hcolumn, hf, hrest⟩ :=
    columnAt_of_stands hq hrest (by simp [StatementPart.EndsName])
  obtain ⟨stop, vs, hend, hrest⟩ := groupEnd_of_comma hrest
  have hword : first.kind = .word ∧ isColumnName first.lexeme := by
    have hn := forall_firstName hc.qualifier hc.name
    have hbare := forall_firstName hbare.qualifier hbare.name
    generalize c.qualifier.getD c.name = n at hn hbare hfirst
    cases n with
    | bare w => exact ⟨hfirst.1, hfirst.2 ▸ hn.2⟩
    | quoted w => cases hbare
  have hopen : us.head?.any (·.isSymbol .openParen) = false := by
    cases us with
    | nil => rfl
    | cons u us => exact hparen u rfl
  refine ⟨{ f with span := function.span.merge stop }, vs, ?_, hf, hrest⟩
  rw [call, symbol_of_kind hopening]
  simp only [bind, Except.bind]
  rw [columnInCall, hword.1]
  simp [hword.2, hopen, hcolumn, hend, bind, Except.bind, pure, Except.pure]

theorem fieldAt_of_readsAs (hq : q.fault = none) {n : WrittenName} (hn : n.IsWellFormed)
    {first : Token} (hfirst : n.ReadsAs first) (hparen : NotAt .openParen ts) :
    q.fieldAt first ts = q.columnAt first ts := by
  cases n with
  | bare w =>
    obtain ⟨hkind, rfl⟩ := hfirst
    simp [fieldAt, hkind, hn.2, nextIs_of_notAt hq hparen, bind, Except.bind]
  | quoted w => rw [fieldAt, hfirst.1]

/-- Behind the function of a call, a parenthesis opens the call. -/
theorem fieldAt_of_function {function : Option Text}
    (hfunction : ∀ f ∈ function, (WrittenName.bare f).IsWellFormed)
    (h : Stands q.source (SelectExpression.functionPart function :: ps) ts) :
    ∃ first us, ts = first :: us ∧ StartsItem first ∧ Stands q.source ps us ∧
      ∀ opening vs, opening.kind = .symbol .openParen →
        q.fieldAt first (opening :: vs) = q.call first (opening :: vs) := by
  cases function with
  | none =>
    obtain ⟨first, us, rfl, hfirst, hrest⟩ := h.of_keyword
    refine ⟨first, us, rfl, ?_, hrest, fun opening vs hopening => ?_⟩
    · constructor <;> simp [Token.isKeyword, Token.isSymbol, hfirst]
    · simp [fieldAt, hfirst, nextIs_of_kind hopening, bind, Except.bind]
  | some f =>
    obtain ⟨first, us, rfl, hfirst, hrest⟩ := h.of_name
    refine ⟨first, us, rfl, startsItem_of_readsAs hfirst, hrest, fun opening vs hopening => ?_⟩
    obtain ⟨hkind, rfl⟩ := hfirst
    have hcolumn := (hfunction first.lexeme rfl).2
    simp [fieldAt, hkind, hcolumn, nextIs_of_kind hopening, bind, Except.bind]

theorem fieldAt_of_stands (hq : q.fault = none) {e : SelectExpression} (he : e.IsWellFormed)
    (h : Stands q.source (e.parts ++ ps) ts) (hps : ∀ p ∈ ps.head?, p.EndsName) :
    ∃ first us f vs, ts = first :: us ∧ StartsItem first ∧ q.fieldAt first us = .ok (f, vs) ∧
      f.unplaced = e.field ∧ Stands q.source ps vs := by
  cases e with
  | column c =>
    obtain ⟨first, us, f, vs, rfl, hfirst, hparen, hcolumn, hf, hrest⟩ :=
      columnAt_of_stands hq h hps
    have hn := forall_firstName he.qualifier he.name
    refine ⟨first, us, f, vs, rfl, startsItem_of_readsAs hfirst, ?_, hf, hrest⟩
    rw [fieldAt_of_readsAs hq hn hfirst hparen, hcolumn]
  | count t =>
    obtain ⟨first, us, rfl, hfirst, hrest⟩ := h.of_keyword
    obtain ⟨opening, us, rfl, hopening, hrest⟩ := hrest.of_symbol
    obtain ⟨stop, us, hend, hrest⟩ := groupEnd_of_stands hrest
    refine ⟨first, _, .count (first.span.merge stop), us, rfl, ?_, ?_, rfl, hrest⟩
    · constructor <;> simp [Token.isKeyword, Token.isSymbol, hfirst]
    · simp [fieldAt, hfirst, nextIs_of_kind hopening, countOf, symbol_of_kind hopening, hend, bind,
        Except.bind, pure, Except.pure]
  | call function c t =>
    obtain ⟨hfunction, hc, hbare, -⟩ := he
    rw [SelectExpression.parts, List.cons_append, List.cons_append, List.append_assoc] at h
    obtain ⟨first, us, rfl, hfirst, hrest, hcall⟩ := fieldAt_of_function hfunction h
    obtain ⟨f, vs, hfield, hf, hlast⟩ := call_of_stands hq first hc hbare hrest
    obtain ⟨opening, us, rfl, hopening, -⟩ := hrest.of_symbol
    exact ⟨first, _, f, vs, rfl, hfirst, (hcall _ _ hopening).trans hfield, hf, hlast⟩
  | literal w =>
    obtain ⟨first, us, rfl, hfirst, rfl, hrest⟩ := h.of_word
    refine ⟨first, us, .verbatim first.lexeme first.span, us, rfl, ?_, ?_, rfl, hrest⟩
    · constructor <;> simp [Token.isKeyword, Token.isSymbol, hfirst]
    · simp [fieldAt, hfirst, he.2]
  | placeholder sort n =>
    obtain ⟨first, inner, last, us, rfl, hfirst, hinner, hlast, hslice, hrest⟩ := h.of_placeholder
    refine ⟨first, _, .verbatim (sort.text n) (first.span.merge last.span), us, rfl, ?_, ?_, rfl,
      hrest⟩
    · constructor <;> cases sort <;>
        simp [Token.isKeyword, Token.isSymbol, hfirst, Placeholder.opener]
    · have hbraces : q.braces first (inner :: last :: us) =
          .ok ((sort.text n, first.span.merge last.span), us) := by
        simp [braces, closingBrace?, Token.isSymbol, hinner, hlast, hslice]
      cases sort <;>
        simp [fieldAt, hfirst, Placeholder.opener, Symbol.opensBrace, hbraces, Except.map]

/-! ## Items -/

theorem endsName_of_closes (hps : ∀ p ∈ ps.head?, p.Closes) (a : Option WrittenAlias) :
    ∀ p ∈ (aliasParts a ++ ps).head?, p.EndsName := by
  match a with
  | some ⟨true, n⟩ => simp [aliasParts, StatementPart.EndsName]
  | some ⟨false, n⟩ => simp [aliasParts, StatementPart.EndsName]
  | none =>
    intro p hp
    have hcloses := hps p hp
    cases p with
    | keyword k => exact trivial
    | symbol s =>
      obtain rfl : s = .comma := hcloses
      exact ⟨by decide, by decide⟩
    | _ => cases hcloses

/-- Whether a comma or the word `FROM` comes first, which ends an item. -/
def EndsItem (ps : List StatementPart) : Prop :=
  ∃ later, ps = .symbol .comma :: later ∨ ps = .keyword .FROM :: later

theorem EndsItem.closes (h : EndsItem ps) : ∀ p ∈ ps.head?, p.Closes := by
  obtain ⟨later, rfl | rfl⟩ := h <;> simp [StatementPart.Closes]

/-- The field of a wildcard. -/
theorem fieldAt_of_wildcard (hq : q.fault = none) {qualifier : Option WrittenName}
    (hn : ∀ n ∈ qualifier, n.IsWellFormed)
    (h : Stands q.source (qualifierParts qualifier ++ .symbol .star :: ps) ts) :
    ∃ first us f vs, ts = first :: us ∧ StartsItem first ∧ q.fieldAt first us = .ok (f, vs) ∧
      f.unplaced = (SelectItem.wildcard qualifier).field ∧ Stands q.source ps vs := by
  cases qualifier with
  | none =>
    obtain ⟨first, us, rfl, hfirst, hrest⟩ := h.of_symbol
    refine ⟨first, us, .column QueryField.wildcardName first.span, us, rfl, ?_, ?_, rfl, hrest⟩
    · constructor <;> simp [Token.isKeyword, Token.isSymbol, hfirst]
    · simp [fieldAt, hfirst]
  | some n =>
    obtain ⟨first, us, rfl, hfirst, hrest⟩ := h.of_name
    obtain ⟨dot, us, rfl, hdot, hrest⟩ := hrest.of_symbol
    obtain ⟨star, us, rfl, hstar, hrest⟩ := hrest.of_symbol
    have hparen : NotAt .openParen (dot :: star :: us) := notAt_of_kind hdot (by decide) _
    have hcolumn : q.columnAt first (dot :: star :: us) =
        .ok ({ QueryField.column QueryField.wildcardName star.span with
          table := some first.label, span := first.span.merge star.span }, us) := by
      rw [columnAt, if_pos (by simp [Token.isSymbol, hdot]), qualifiedColumn, next]
      simp only [bind, Except.bind, hstar]
      rfl
    refine ⟨first, _, _, us, rfl, startsItem_of_readsAs hfirst,
      (fieldAt_of_readsAs hq (hn n rfl) hfirst hparen).trans hcolumn, ?_, hrest⟩
    rw [hfirst.label]
    rfl

theorem field_of_stands (hq : q.fault = none) {i : SelectItem} (hi : i.IsWellFormed)
    (h : Stands q.source (i.parts ++ ps) ts) (hps : EndsItem ps) :
    ∃ first us f vs, ts = first :: us ∧ StartsItem first ∧ q.field first us = .ok (f, vs) ∧
      f.unplaced = i.field ∧ Stands q.source ps vs := by
  cases i with
  | wildcard qualifier =>
    rw [SelectItem.parts, List.append_assoc] at h
    obtain ⟨first, us, f, vs, rfl, hfirst, hfield, hf, hrest⟩ := fieldAt_of_wildcard hq hi h
    obtain ⟨ws, halias, hrest⟩ := aliasOf_of_stands (a := none) hq f.name hrest hps.closes
    refine ⟨first, us, { f with aliasName := none }, ws, rfl, hfirst, ?_, ?_, hrest⟩
    · simp [field, hfield, halias, shownAlias, bind, Except.bind, pure, Except.pure]
    · have hunaliased : { f with aliasName := none }.unplaced =
          { f.unplaced with aliasName := none } := rfl
      rw [hunaliased, hf]
      rfl
  | expression e a =>
    obtain ⟨he, -⟩ := hi
    rw [SelectItem.parts, List.append_assoc] at h
    obtain ⟨first, us, f, vs, rfl, hfirst, hfield, hf, hrest⟩ :=
      fieldAt_of_stands hq he h (endsName_of_closes hps.closes a)
    obtain ⟨ws, halias, hrest⟩ := aliasOf_of_stands hq f.name hrest hps.closes
    refine ⟨first, us, { f with aliasName := shownAlias f.name a }, ws, rfl, hfirst, ?_, ?_, hrest⟩
    · simp [field, hfield, halias, bind, Except.bind, pure, Except.pure]
    · rw [SelectItem.field, ← hf]
      rfl

/-- The item that ends here leaves what follows it. -/
theorem itemEnd_of_stands (h : Stands q.source ps ts) (hps : EndsItem ps) :
    q.itemEnd .item ts = .ok ts := by
  obtain ⟨later, rfl | rfl⟩ := hps
  · obtain ⟨t, us, rfl, ht, -⟩ := h.of_symbol
    rw [itemEnd, ht]
  · obtain ⟨t, us, rfl, ht, -⟩ := h.of_keyword
    rw [itemEnd, ht]

theorem skipDirectives_of_ne {t : Token} (h : t.isSymbol .openDirective = false)
    (us : List Token) : q.skipDirectives (t :: us) = .ok (t :: us) := by
  rw [skipDirectives, skipBraces]
  split
  · rename_i s hs
    have hne : s ≠ .openDirective := by simpa [Token.isSymbol, hs] using h
    simp [hne]
  · rfl

theorem selectStep_of_item (hq : q.fault = none) {i : SelectItem} (hi : i.IsWellFormed)
    (h : Stands q.source (i.parts ++ ps) ts) (hps : EndsItem ps) :
    ∃ f us, q.selectStep ts = .ok (.item (some f) us) ∧ f.unplaced = i.field ∧
      Stands q.source ps us := by
  obtain ⟨first, us, f, vs, rfl, hfirst, hfield, hf, hrest⟩ := field_of_stands hq hi h hps
  refine ⟨f, vs, ?_, hf, hrest⟩
  simp [selectStep, skipDirectives_of_ne hfirst.isDirective, hfirst.isFrom, hfirst.isComma, hfield,
    itemEnd_of_stands hrest hps, bind, Except.bind, pure, Except.pure]

theorem selectStep_of_comma (h : Stands q.source (.symbol .comma :: ps) ts) :
    ∃ us, q.selectStep ts = .ok (.item none us) ∧ Stands q.source ps us := by
  obtain ⟨t, us, rfl, ht, hrest⟩ := h.of_symbol
  refine ⟨us, ?_, hrest⟩
  have hdirective : t.isSymbol .openDirective = false := by simp [Token.isSymbol, ht]
  simp [selectStep, skipDirectives_of_ne hdirective, Token.isKeyword, Token.isSymbol, ht, bind,
    Except.bind, pure, Except.pure]

theorem selectStep_of_from (h : Stands q.source (.keyword .FROM :: ps) ts) :
    q.selectStep ts = .ok (.done ts) := by
  obtain ⟨t, us, rfl, ht, -⟩ := h.of_keyword
  have hdirective : t.isSymbol .openDirective = false := by simp [Token.isSymbol, ht]
  simp [selectStep, skipDirectives_of_ne hdirective, Token.isKeyword, ht, bind, Except.bind, pure,
    Except.pure]

/-- The items of a select list are read one by one up to `FROM`. -/
theorem selectItems_of_stands (hq : q.fault = none) {first : SelectItem} {items : List SelectItem}
    (hitems : ∀ i ∈ first :: items, i.IsWellFormed)
    (h : Stands q.source (commaParts SelectItem.parts first items ++ .keyword .FROM :: ps) ts) :
    ∃ fields clauses, q.selectItems ts = .ok (fields, clauses) ∧
      fields.map QueryField.unplaced = (first :: items).map SelectItem.field ∧
      Stands q.source (.keyword .FROM :: ps) clauses := by
  induction items generalizing first ts with
  | nil =>
    rw [commaParts, List.flatMap_nil, List.append_nil] at h
    obtain ⟨f, us, hstep, hf, hrest⟩ :=
      selectStep_of_item hq (hitems first (List.mem_cons_self ..)) h ⟨ps, .inr rfl⟩
    refine ⟨[f], us, ?_, congrArg ([·]) hf, hrest⟩
    rw [selectItems_eq, hstep]
    dsimp only
    rw [selectItems_eq, selectStep_of_from hrest]
    rfl
  | cons i items ih =>
    obtain ⟨hfirst, hitems⟩ := List.forall_mem_cons.1 hitems
    rw [commaParts, List.flatMap_cons, List.append_assoc] at h
    obtain ⟨f, us, hstep, hf, hrest⟩ := selectStep_of_item hq hfirst h ⟨_, .inl rfl⟩
    obtain ⟨us, hcomma, hrest⟩ := selectStep_of_comma hrest
    obtain ⟨fields, clauses, hlater, hfields, hlast⟩ := ih hitems hrest
    refine ⟨f :: fields, clauses, ?_, by rw [List.map_cons, hf, hfields]; rfl, hlast⟩
    rw [selectItems_eq, hstep]
    dsimp only
    rw [selectItems_eq, hcomma]
    dsimp only
    rw [hlater]
    rfl

/-! ## Tables -/

theorem tablePart_of_readsAs {n : WrittenName} {t : Token} (h : n.ReadsAs t) (dotted : Bool)
    (us : List Token) : q.tablePart dotted (t :: us) = .ok ((n.name, t.span, false), us) := by
  rw [← h.label]
  rcases h.kind with hkind | hkind <;>
    simp [tablePart, next, hkind, bind, Except.bind, pure, Except.pure]

theorem dottedName_of_notAt (hq : q.fault = none) (part : Text × Span × Bool)
    (h : NotAt .dot ts) : q.dottedName part ts = .ok (part, ts) := by
  cases ts with
  | nil => rw [dottedName, atEnd, hq]
  | cons t ts => rw [dottedName_cons, if_neg (by simp [h t rfl])]

/-- The last part of the name of a table, and the alias of the table. -/
theorem alias_of_name (hq : q.fault = none) {name : WrittenName} {a : Option WrittenAlias}
    (h : Stands q.source (.name name :: (aliasParts a ++ ps)) ts)
    (hps : ∀ p ∈ ps.head?, p.Closes) :
    ∃ first us vs, ts = first :: us ∧ name.ReadsAs first ∧ NotAt .dot us ∧
      q.aliasOf name.name us = .ok (shownAlias name.name a, vs) ∧ Stands q.source ps vs := by
  obtain ⟨first, us, rfl, hfirst, hrest⟩ := h.of_name
  obtain ⟨vs, halias, hlast⟩ := aliasOf_of_stands hq name.name hrest hps
  exact ⟨first, us, vs, rfl, hfirst, (notAt_of_stands hrest (endsName_of_closes hps a)).1, halias,
    hlast⟩

/-- A table reference is read up to where neither its name nor an alias goes on. -/
theorem tableReference_of_stands (hq : q.fault = none) {t : WrittenTable}
    (h : Stands q.source (t.parts ++ ps) ts) (hps : ∀ p ∈ ps.head?, p.Closes) :
    ∃ table us, q.tableReference ts = .ok (some table, us) ∧ table.unplaced = t.table ∧
      Stands q.source ps us := by
  obtain ⟨schema, name, a⟩ := t
  cases schema with
  | none =>
    obtain ⟨first, us, vs, rfl, hfirst, hdot, halias, hrest⟩ := alias_of_name hq h hps
    refine ⟨⟨name.name, shownAlias name.name a, false, first.span⟩, vs, ?_, rfl, hrest⟩
    rw [tableReference, if_neg (by simp [hfirst.isSymbol])]
    simp [tablePart_of_readsAs hfirst, dottedName_of_notAt hq _ hdot, halias, bind, Except.bind,
      pure, Except.pure]
  | some schema =>
    obtain ⟨outer, us, rfl, houter, hrest⟩ := h.of_name
    obtain ⟨dot, us, rfl, hdotted, hrest⟩ := hrest.of_symbol
    obtain ⟨first, us, vs, rfl, hfirst, hdot, halias, hrest⟩ := alias_of_name hq hrest hps
    have hsymbol : dot.isSymbol .dot := by simp [Token.isSymbol, hdotted]
    refine ⟨⟨name.name, shownAlias name.name a, false, outer.span.merge first.span⟩, vs, ?_, rfl,
      hrest⟩
    rw [tableReference, if_neg (by simp [houter.isSymbol])]
    simp [tablePart_of_readsAs houter, dottedName_cons, hsymbol, tablePart_of_readsAs hfirst,
      dottedName_of_notAt hq _ hdot, halias, bind, Except.bind, pure, Except.pure]

def EndsReferences (ps : List StatementPart) : Prop :=
  ∀ p ∈ ps.head?, ∃ k, p = .keyword k ∧ k ≠ .AS

theorem EndsReferences.closes (h : EndsReferences ps) : ∀ p ∈ ps.head?, p.Closes := by
  intro p hp
  obtain ⟨k, rfl, hk⟩ := h p hp
  exact hk

theorem EndsReferences.notAt (h : EndsReferences ps) (hs : Stands q.source ps ts) :
    NotAt .comma ts := by
  cases ps with
  | nil =>
    cases hs
    exact fun _ ht => (nomatch ht)
  | cons p ps =>
    obtain ⟨k, rfl, -⟩ := h p rfl
    obtain ⟨t, us, rfl, ht, -⟩ := hs.of_keyword
    rintro _ ⟨⟩
    simp [Token.isSymbol, ht]

theorem tableReferences_of_stands (hq : q.fault = none) {first : WrittenTable}
    {tables : List WrittenTable} (hps : EndsReferences ps)
    (h : Stands q.source (commaParts WrittenTable.parts first tables ++ ps) ts) :
    ∃ found us, q.tableReferences ts = .ok (found, us) ∧
      found.map QueryTable.unplaced = (first :: tables).map WrittenTable.table ∧
      Stands q.source ps us := by
  induction tables generalizing first ts with
  | nil =>
    rw [commaParts, List.flatMap_nil, List.append_nil] at h
    obtain ⟨table, us, hreference, htable, hrest⟩ := tableReference_of_stands hq h hps.closes
    refine ⟨[table], us, ?_, congrArg ([·]) htable, hrest⟩
    have hcomma := hps.notAt hrest
    rw [tableReferences_eq, hreference]
    cases us with
    | nil => simp [atEnd, hq]
    | cons t us => simp [hcomma t rfl]
  | cons next tables ih =>
    rw [commaParts, List.flatMap_cons, List.append_assoc] at h
    obtain ⟨table, us, hreference, htable, hrest⟩ := tableReference_of_stands hq h (by
      simp [StatementPart.Closes])
    obtain ⟨comma, us, rfl, hcomma, hrest⟩ := hrest.of_symbol
    obtain ⟨found, us, hlater, hfound, hlast⟩ := ih hrest
    refine ⟨table :: found, us, ?_, by rw [List.map_cons, htable, hfound]; rfl, hlast⟩
    rw [tableReferences_eq, hreference]
    dsimp only
    rw [if_pos (by simp [Token.isSymbol, hcomma]), hlater]
    rfl

/-! ## Joins -/

theorem clauseTables_of_step {us : List Token} (h : q.clauseStep ts = .ok (some ([], us))) :
    q.clauseTables ts = q.clauseTables us := by
  rw [clauseTables_eq, h]
  dsimp only
  cases q.clauseTables us <;> rfl

theorem skipAllBraces_of_kind {t : Token}
    (h : ∀ s, t.kind = .symbol s → s.opensBrace = false) (us : List Token) :
    q.skipAllBraces (t :: us) = .ok (t :: us) := by
  rw [skipAllBraces, skipBraces]
  split
  · rename_i s hs
    simp [h s hs]
  · rfl

theorem clauseStep_cons {t : Token} (h : ∀ s, t.kind = .symbol s → s.opensBrace = false)
    (rest : List Token) :
    q.clauseStep (t :: rest) = match t.kind with
      | .symbol .dot =>
        match rest with
        | [] => q.atEnd none
        | _ :: after => .ok (some ([], after))
      | .symbol .openParen => do return some ([], ← q.skipGroup rest)
      | .keyword .FROM => do return some (← q.tableReferences rest)
      | .keyword .JOIN => do
        let (table, after) ← q.tableReference rest
        return some (table.toList, after)
      | _ => .ok (some ([], rest)) := by
  rw [clauseStep, skipAllBraces_of_kind h]
  rfl

theorem clauseStep_of_readsAs {n : WrittenName} {t : Token} (h : n.ReadsAs t) (us : List Token) :
    q.clauseStep (t :: us) = .ok (some ([], us)) := by
  rcases h.kind with hkind | hkind <;> rw [clauseStep_cons (by simp [hkind]), hkind]

theorem clauseStep_of_keyword {k : Keyword} {t : Token} (h : t.kind = .keyword k)
    (hfrom : k ≠ .FROM) (hjoin : k ≠ .JOIN) (us : List Token) :
    q.clauseStep (t :: us) = .ok (some ([], us)) := by
  rw [clauseStep_cons (by simp [h]), h]
  cases k <;> first | rfl | contradiction

/-- The condition of a join is passed over. -/
theorem clauseTables_of_condition {condition : List ConditionPart}
    (h : Stands q.source (condition.flatMap ConditionPart.parts ++ ps) ts) :
    ∃ us, q.clauseTables ts = q.clauseTables us ∧ Stands q.source ps us := by
  induction condition generalizing ts with
  | nil => exact ⟨ts, rfl, h⟩
  | cons p condition ih =>
    rw [List.flatMap_cons, List.append_assoc] at h
    cases p with
    | word w =>
      obtain ⟨t, us, rfl, hkind, -, hrest⟩ := h.of_word
      obtain ⟨vs, hlater, hlast⟩ := ih hrest
      refine ⟨vs, (clauseTables_of_step ?_).trans hlater, hlast⟩
      rw [clauseStep_cons (by simp [hkind]), hkind]
    | column qualifier name =>
      obtain ⟨t, us, rfl, ht, hrest⟩ := h.of_name
      obtain ⟨dot, us, rfl, hdot, hrest⟩ := hrest.of_symbol
      obtain ⟨u, us, rfl, hu, hrest⟩ := hrest.of_name
      obtain ⟨vs, hlater, hlast⟩ := ih hrest
      have hstep : q.clauseStep (dot :: u :: us) = .ok (some ([], us)) := by
        rw [clauseStep_cons (by simp [hdot, Symbol.opensBrace]), hdot]
      refine ⟨vs, ?_, hlast⟩
      rw [clauseTables_of_step (clauseStep_of_readsAs ht _), clauseTables_of_step hstep, hlater]

/-- Behind the keyword, a join gives its table, and its condition is passed over. -/
theorem clauseTables_of_table (hq : q.fault = none) {table : WrittenTable}
    {condition : List ConditionPart}
    (h : Stands q.source (.keyword .JOIN :: (table.parts ++ .keyword .ON ::
      (condition.flatMap ConditionPart.parts ++ ps))) ts) :
    ∃ found us, q.clauseTables ts = (q.clauseTables us).map (found :: ·) ∧
      found.unplaced = table.table ∧ Stands q.source ps us := by
  obtain ⟨join, us, rfl, hjoin, hrest⟩ := h.of_keyword
  obtain ⟨found, us, hreference, hfound, hrest⟩ :=
    tableReference_of_stands hq hrest (by simp [StatementPart.Closes])
  obtain ⟨on, us, rfl, hon, hrest⟩ := hrest.of_keyword
  obtain ⟨vs, hcondition, hlast⟩ := clauseTables_of_condition hrest
  have hon := clauseStep_of_keyword hon (by decide) (by decide) us (q := q)
  refine ⟨found, vs, ?_, hfound, hlast⟩
  rw [clauseTables_eq, clauseStep_cons (by simp [hjoin]), hjoin]
  dsimp only
  rw [hreference]
  dsimp only [bind, Except.bind, pure, Except.pure]
  rw [clauseTables_of_step hon, hcondition]
  rfl

theorem clauseTables_of_join (hq : q.fault = none) {j : WrittenJoin}
    (h : Stands q.source (j.parts ++ ps) ts) :
    ∃ found us, q.clauseTables ts = (q.clauseTables us).map (found :: ·) ∧
      found.unplaced = j.table.table ∧ Stands q.source ps us := by
  obtain ⟨side, table, condition⟩ := j
  cases side with
  | none =>
    have hjoin : Stands q.source (.keyword .JOIN :: (table.parts ++ .keyword .ON ::
        (condition.flatMap ConditionPart.parts ++ ps))) ts := by
      simpa [WrittenJoin.parts] using h
    exact clauseTables_of_table hq hjoin
  | some side =>
    have hside : Stands q.source (.keyword side.keyword :: .keyword .JOIN :: (table.parts ++
        .keyword .ON :: (condition.flatMap ConditionPart.parts ++ ps))) ts := by
      simpa [WrittenJoin.parts] using h
    obtain ⟨t, us, rfl, ht, hrest⟩ := hside.of_keyword
    have hstep : q.clauseStep (t :: us) = .ok (some ([], us)) := by
      refine clauseStep_of_keyword ht ?_ ?_ us <;> cases side <;> decide
    obtain ⟨found, vs, hlater, hfound, hlast⟩ := clauseTables_of_table hq hrest
    exact ⟨found, vs, (clauseTables_of_step hstep).trans hlater, hfound, hlast⟩

/-- Each join gives its table. -/
theorem clauseTables_of_joins (hq : q.fault = none) {joins : List WrittenJoin}
    (h : Stands q.source (joins.flatMap WrittenJoin.parts) ts) :
    ∃ tables, q.clauseTables ts = .ok tables ∧
      tables.map QueryTable.unplaced = joins.map (·.table.table) := by
  induction joins generalizing ts with
  | nil =>
    cases h
    refine ⟨[], ?_, rfl⟩
    rw [clauseTables_eq, clauseStep, skipAllBraces, skipBraces, atEnd, hq]
    rfl
  | cons j joins ih =>
    rw [List.flatMap_cons] at h
    obtain ⟨found, us, hjoin, hfound, hrest⟩ := clauseTables_of_join hq h
    obtain ⟨tables, hlater, htables⟩ := ih hrest
    refine ⟨found :: tables, ?_, by rw [List.map_cons, hfound, htables]; rfl⟩
    rw [hjoin, hlater]
    rfl

theorem endsReferences_joins (joins : List WrittenJoin) :
    EndsReferences (joins.flatMap WrittenJoin.parts) := by
  match joins with
  | [] => exact fun _ hp => (nomatch hp)
  | ⟨none, _, _⟩ :: _ =>
    rintro _ ⟨⟩
    exact ⟨.JOIN, rfl, by decide⟩
  | ⟨some side, _, _⟩ :: _ =>
    rintro _ ⟨⟩
    exact ⟨side.keyword, rfl, by cases side <;> decide⟩

/-- The tables that the clauses of a statement name. -/
theorem tableList_of_stands (hq : q.fault = none) {s : SelectStatement}
    (h : Stands q.source s.clauseParts ts) :
    ∃ tables, q.tableList ts = .ok tables ∧
      tables.map QueryTable.unplaced = s.references.map WrittenTable.table := by
  obtain ⟨t, us, rfl, ht, hrest⟩ := h.of_keyword
  obtain ⟨found, vs, hreferences, hfound, hrest⟩ :=
    tableReferences_of_stands hq (endsReferences_joins s.joins) hrest
  obtain ⟨joined, hjoins, hjoined⟩ := clauseTables_of_joins hq hrest
  have hclauses : q.clauseTables (t :: us) = .ok (found ++ joined) := by
    rw [clauseTables_eq, clauseStep_cons (by simp [ht]), ht]
    dsimp only
    rw [hreferences]
    dsimp only [bind, Except.bind, pure, Except.pure]
    rw [hjoins]
    rfl
  have hne : found ≠ [] := by
    rintro rfl
    cases hfound
  refine ⟨found ++ joined, ?_, ?_⟩
  · rw [tableList, hclauses]
    simp [bind, Except.bind, pure, Except.pure, hne]
  · rw [List.map_append, hfound, hjoined, SelectStatement.references, List.map_append, List.map_map]
    rfl

end Query

/-! ## Binding -/

theorem QueryField.bindTo_eq {first : QueryTable} {tables : List QueryTable}
    {named : Option Text → Text} {fields : List QueryField}
    (h : ∀ f ∈ fields, first.resolve? tables f.table = some (named f.table)) :
    bindTo first tables fields =
      (fields.map fun f => { f with table := some (named f.table) }, none) := by
  induction fields with
  | nil => rfl
  | cons f fields ih =>
    obtain ⟨hf, hfields⟩ := List.forall_mem_cons.1 h
    rw [bindTo, hf, ih hfields]
    rfl

/-- A table that has another name than `q` has the alias `q` if that is written. -/
theorem shownAlias_eq_some_iff {own q : Text} (h : own ≠ q) (a : Option WrittenAlias) :
    (shownAlias own a == some q) = a.any (·.name.name == q) := by
  cases a with
  | none => rfl
  | some a =>
    by_cases hname : a.name.name = q
    · simp [shownAlias, Option.filter, hname, Ne.symm h]
    · by_cases hown : a.name.name = own
      · simp [shownAlias, Option.filter, hown, h]
      · simp [shownAlias, Option.filter, hown]

section

variable {s : SelectStatement} {tables : List QueryTable}

theorem any_name_eq (h : tables.map QueryTable.unplaced = s.references.map WrittenTable.table)
    (q : Text) : tables.any (·.name == q) = s.references.any (·.name.name == q) := by
  have hany := congrArg (List.any · (·.name == q)) h
  rwa [List.any_map, List.any_map] at hany

/-- If no table has the name `q`, the last one with the alias `q` is the last one with which it is
written. -/
theorem find?_alias_eq (h : tables.map QueryTable.unplaced = s.references.map WrittenTable.table)
    {q : Text} (hq : ¬s.references.any (·.name.name == q)) :
    (tables.reverse.find? (·.aliasName == some q)).map (·.name) =
      (s.references.filter fun t => t.aliasName.any (·.name.name == q)).getLast?.map
        (·.name.name) := by
  have hlast := congrArg (fun ts => (ts.filter (·.aliasName == some q)).getLast?.map (·.name)) h
  simp only [List.filter_map, List.getLast?_map, Option.map_map] at hlast
  rw [← List.getLast?_filter]
  refine hlast.trans (congrArg _ (congrArg _ (List.filter_congr fun t ht => ?_)))
  refine shownAlias_eq_some_iff (fun hown => hq ?_) t.aliasName
  exact List.any_eq_true.2 ⟨t, ht, beq_iff_eq.2 hown⟩

/-- A declared qualifier means the table that it says it does. -/
theorem resolve?_of_declares {first : QueryTable} (hfirst : first.name = s.table.name.name)
    (h : tables.map QueryTable.unplaced = s.references.map WrittenTable.table)
    {qualifier : Option Text} (hqualifier : ∀ q ∈ qualifier, s.Declares q) :
    first.resolve? tables qualifier = some (s.tableNamed qualifier) := by
  cases qualifier with
  | none => rw [QueryTable.resolve?, hfirst, SelectStatement.tableNamed]
  | some q =>
    rw [QueryTable.resolve?, any_name_eq h, SelectStatement.tableNamed]
    split_ifs with hname
    · rfl
    · rw [find?_alias_eq h hname]
      obtain ⟨t, ht, heq | ⟨a, ha, heq⟩⟩ := hqualifier q rfl
      · have hany : s.references.any (·.name.name == q) :=
          List.any_eq_true.2 ⟨t, ht, beq_iff_eq.2 heq⟩
        exact absurd hany hname
      · have hmem : t ∈ s.references.filter fun t => t.aliasName.any (·.name.name == q) := by
          simp [ht, ha, heq]
        obtain ⟨last, hlast⟩ := Option.isSome_iff_exists.1
          (List.getLast?_isSome.2 (List.ne_nil_of_mem hmem))
        rw [hlast]
        rfl

end

/-! ## Well-formed parts -/

section

variable {p : StatementPart}

theorem isWellFormed_of_qualifier {qualifier : Option WrittenName}
    (h : ∀ q ∈ qualifier, q.IsWellFormed) (hp : p ∈ qualifierParts qualifier) :
    p.IsWellFormed := by
  cases qualifier with
  | none => cases hp
  | some q =>
    simp only [qualifierParts, List.mem_cons, List.not_mem_nil, or_false] at hp
    rcases hp with rfl | rfl
    · exact h q rfl
    · exact trivial

theorem isWellFormed_of_alias {a : Option WrittenAlias} (h : ∀ x ∈ a, x.IsWellFormed)
    (hp : p ∈ aliasParts a) : p.IsWellFormed := by
  match a with
  | none => cases hp
  | some ⟨true, n⟩ =>
    simp only [aliasParts, List.mem_cons, List.not_mem_nil, or_false] at hp
    rcases hp with rfl | rfl
    · exact trivial
    · exact h ⟨true, n⟩ rfl
  | some ⟨false, n⟩ =>
    simp only [aliasParts, List.mem_cons, List.not_mem_nil, or_false] at hp
    exact hp ▸ h ⟨false, n⟩ rfl

theorem isWellFormed_of_column {c : WrittenColumn} (h : c.IsWellFormed) (hp : p ∈ c.parts) :
    p.IsWellFormed := by
  rcases List.mem_append.1 hp with hp | hp
  · exact isWellFormed_of_qualifier h.qualifier hp
  · exact List.mem_singleton.1 hp ▸ h.name

theorem isWellFormed_of_expression {e : SelectExpression} (h : e.IsWellFormed)
    (hp : p ∈ e.parts) : p.IsWellFormed := by
  cases e with
  | column c => exact isWellFormed_of_column h hp
  | count t =>
    simp only [SelectExpression.parts, List.mem_cons, List.not_mem_nil, or_false] at hp
    rcases hp with rfl | rfl | rfl | rfl
    · exact trivial
    · exact trivial
    · exact h
    · exact trivial
  | call function c t =>
    obtain ⟨hfunction, hc, -, ht⟩ := h
    simp only [SelectExpression.parts, List.mem_cons, List.mem_append, List.not_mem_nil,
      or_false] at hp
    rcases hp with rfl | rfl | hp | rfl | rfl | rfl
    · cases function with
      | none => exact trivial
      | some f => exact hfunction f rfl
    · exact trivial
    · exact isWellFormed_of_column hc hp
    · exact trivial
    · exact ht
    · exact trivial
  | literal w => exact List.mem_singleton.1 hp ▸ h.1
  | placeholder sort n => exact List.mem_singleton.1 hp ▸ h.1

theorem isWellFormed_of_item {i : SelectItem} (h : i.IsWellFormed) (hp : p ∈ i.parts) :
    p.IsWellFormed := by
  cases i with
  | wildcard qualifier =>
    rcases List.mem_append.1 hp with hp | hp
    · exact isWellFormed_of_qualifier h hp
    · exact List.mem_singleton.1 hp ▸ trivial
  | expression e a =>
    rcases List.mem_append.1 hp with hp | hp
    · exact isWellFormed_of_expression h.1 hp
    · exact isWellFormed_of_alias h.2 hp

theorem isWellFormed_of_table {t : WrittenTable} (h : t.IsWellFormed) (hp : p ∈ t.parts) :
    p.IsWellFormed := by
  rcases List.mem_append.1 hp with hp | hp
  · exact isWellFormed_of_qualifier h.schema hp
  · rcases List.mem_cons.1 hp with rfl | hp
    · exact h.name
    · exact isWellFormed_of_alias h.aliasName hp

theorem isWellFormed_of_join {j : WrittenJoin} (htable : j.table.IsWellFormed)
    (hcondition : ∀ x ∈ j.condition, x.IsWellFormed) (hp : p ∈ j.parts) : p.IsWellFormed := by
  simp only [WrittenJoin.parts, List.mem_append, List.mem_cons, List.mem_map,
    List.mem_flatMap] at hp
  rcases hp with ⟨side, -, rfl⟩ | rfl | hp | rfl | ⟨x, hx, hp⟩
  · exact trivial
  · exact trivial
  · exact isWellFormed_of_table htable hp
  · exact trivial
  · have hwf := hcondition x hx
    cases x with
    | word w => exact List.mem_singleton.1 hp ▸ hwf
    | column qualifier name =>
      simp only [ConditionPart.parts, List.mem_cons, List.not_mem_nil, or_false] at hp
      rcases hp with rfl | rfl | rfl
      · exact hwf.1
      · exact trivial
      · exact hwf.2

theorem isWellFormed_of_commaParts {α : Type} {parts : α → List StatementPart} {first : α}
    {xs : List α} (h : ∀ x ∈ first :: xs, ∀ p ∈ parts x, p.IsWellFormed)
    (hp : p ∈ commaParts parts first xs) : p.IsWellFormed := by
  rcases List.mem_append.1 hp with hp | hp
  · exact h first (List.mem_cons_self ..) p hp
  · obtain ⟨x, hx, hp⟩ := List.mem_flatMap.1 hp
    rcases List.mem_cons.1 hp with rfl | hp
    · exact trivial
    · exact h x (List.mem_cons_of_mem _ hx) p hp

theorem SelectStatement.IsWellFormed.parts {s : SelectStatement} (hs : s.IsWellFormed) :
    ∀ p ∈ s.parts, p.IsWellFormed := by
  have htables : ∀ t ∈ s.table :: s.tables, t.IsWellFormed := fun t ht =>
    hs.references t (List.mem_append_left _ ht)
  have hjoins : ∀ j ∈ s.joins, j.table.IsWellFormed := fun j hj =>
    hs.references _ (List.mem_append_right _ (List.mem_map_of_mem hj))
  intro p hp
  simp only [SelectStatement.parts, clauseParts, List.mem_cons, List.mem_append,
    List.mem_flatMap] at hp
  rcases hp with rfl | hp | rfl | hp | ⟨j, hj, hp⟩
  · exact trivial
  · exact isWellFormed_of_commaParts (fun i hi _ => isWellFormed_of_item (hs.items i hi)) hp
  · exact trivial
  · exact isWellFormed_of_commaParts (fun t ht _ => isWellFormed_of_table (htables t ht)) hp
  · exact isWellFormed_of_join (hjoins j hj) (hs.conditions j hj) hp

end

/-! ## Statements -/

namespace SelectItem

theorem exists_head_parts (i : SelectItem) :
    ∃ p ps, i.parts = p :: ps ∧ ∀ t, p ≠ .argument t := by
  match i with
  | wildcard none => exact ⟨_, _, rfl, by simp⟩
  | wildcard (some _) => exact ⟨_, _, rfl, by simp⟩
  | expression (.column ⟨none, _⟩) _ => exact ⟨_, _, rfl, by simp⟩
  | expression (.column ⟨some _, _⟩) _ => exact ⟨_, _, rfl, by simp⟩
  | expression (.count _) _ => exact ⟨_, _, rfl, by simp⟩
  | expression (.call none _ _) _ => exact ⟨_, _, rfl, by simp [SelectExpression.functionPart]⟩
  | expression (.call (some _) _ _) _ =>
    exact ⟨_, _, rfl, by simp [SelectExpression.functionPart]⟩
  | expression (.literal _) _ => exact ⟨_, _, rfl, by simp⟩
  | expression (.placeholder _ _) _ => exact ⟨_, _, rfl, by simp⟩

end SelectItem

namespace Query

variable {q : Query} {ps : List StatementPart} {ts : List Token}

theorem isQuantifier_eq_false {t : Token} (h : ¬StatementPart.IsQuantifier (.word t.lexeme)) :
    isQuantifier t = false := by
  obtain ⟨hdistinct, hall⟩ := not_or.1 h
  rw [isQuantifier, beq_eq_false_iff_ne.2 hdistinct, beq_eq_false_iff_ne.2 hall, Bool.or_false,
    Bool.and_false]

theorem not_isQuantifier_of_stands {p : StatementPart} (h : Stands q.source (p :: ps) ts)
    (hp : ¬p.IsQuantifier) (hargument : ∀ t, p ≠ .argument t) :
    ∀ t ∈ ts.head?, isQuantifier t = false := by
  cases p with
  | keyword k =>
    obtain ⟨t, us, rfl, ht, -⟩ := h.of_keyword
    rintro _ ⟨⟩
    simp [isQuantifier, ht]
  | symbol s =>
    obtain ⟨t, us, rfl, ht, -⟩ := h.of_symbol
    rintro _ ⟨⟩
    simp [isQuantifier, ht]
  | word w =>
    obtain ⟨t, us, rfl, ht, rfl, -⟩ := h.of_word
    rintro _ ⟨⟩
    exact isQuantifier_eq_false hp
  | name n =>
    obtain ⟨t, us, rfl, ht, -⟩ := h.of_name
    rintro _ ⟨⟩
    cases n with
    | bare w =>
      obtain ⟨-, rfl⟩ := ht
      exact isQuantifier_eq_false hp
    | quoted w => simp [isQuantifier, ht.1]
  | placeholder sort n =>
    obtain ⟨first, inner, last, us, rfl, ht, -⟩ := h.of_placeholder
    rintro _ ⟨⟩
    simp [isQuantifier, ht]
  | argument t => exact absurd rfl (hargument t)

theorem skipQuantifier_of_head? (hq : q.fault = none) (h : ∀ t ∈ ts.head?, isQuantifier t = false) :
    q.skipQuantifier ts = .ok ts := by
  match ts with
  | [] => rw [skipQuantifier, atEnd, hq]
  | [t] => simp [skipQuantifier, h t rfl]
  | t :: u :: rest => simp [skipQuantifier, h t rfl]

/-- The fields of a statement, and what is left for its tables. -/
theorem selectList_of_stands (hq : q.fault = none) {s : SelectStatement} (hs : s.IsWellFormed)
    (h : Stands q.source s.parts ts) :
    q.skipAllBraces ts = .ok ts ∧ ∃ fields clauses, q.selectList ts = .ok (fields, clauses) ∧
      fields.map QueryField.unplaced = (s.first :: s.items).map SelectItem.field ∧
      Stands q.source s.clauseParts clauses := by
  obtain ⟨t, us, rfl, ht, hrest⟩ := h.of_keyword
  obtain ⟨fields, clauses, hitems, hfields, hlast⟩ := selectItems_of_stands hq hs.items hrest
  have hquantifier : q.skipQuantifier us = .ok us := by
    obtain ⟨p, ps, hparts, hargument⟩ := s.first.exists_head_parts
    have hp := hs.quantifier p (by rw [hparts]; rfl)
    rw [commaParts, hparts] at hrest
    exact skipQuantifier_of_head? hq (not_isQuantifier_of_stands hrest hp hargument)
  have hne : fields ≠ [] := by
    rintro rfl
    cases hfields
  refine ⟨skipAllBraces_of_kind (by simp [ht]) us, fields, clauses, ?_, hfields, hlast⟩
  simp [selectList, next, Token.isKeyword, ht, hquantifier, hitems, hne, bind, Except.bind, pure,
    Except.pure]

end Query

namespace SelectStatement

/-- **Analysing a written statement gives what it selects**, and every statement can be written. -/
theorem shape_of_laid (s : SelectStatement) (hs : s.IsWellFormed) :
    Laid s.parts s.print ∧ ∀ source : Fragment, Laid s.parts source.text →
      ∃ shape, Query.shape .sql source = .ok shape ∧
        shape.fields.map QueryField.unplaced = s.shape.fields ∧
        shape.tables.map QueryTable.unplaced = s.shape.tables := by
  refine ⟨laid_intercalate_print s.parts, fun source h => ?_⟩
  obtain ⟨ts, hread, hstands⟩ := stands_of_laid h hs.parts
  obtain ⟨hbraces, fields, clauses, hselect, hfields, hclauses⟩ :=
    Query.selectList_of_stands (q := ⟨source, none⟩) rfl hs hstands
  obtain ⟨tables, htables, hreferences⟩ := Query.tableList_of_stands rfl hclauses
  obtain ⟨first, later, rfl⟩ : ∃ first later, tables = first :: later := by
    cases tables with
    | nil => cases hreferences
    | cons first later => exact ⟨first, later, rfl⟩
  have hfirst : first.name = s.table.name.name := by
    have hhead := congrArg (List.map QueryTable.name) hreferences
    exact (List.cons.inj hhead).1
  have hdeclared : ∀ f ∈ fields, ∀ q ∈ f.table, s.Declares q := by
    intro f hf q hqualifier
    have hmem : f.unplaced ∈ (s.first :: s.items).map SelectItem.field :=
      hfields ▸ List.mem_map_of_mem hf
    obtain ⟨i, hi, heq⟩ := List.mem_map.1 hmem
    refine hs.qualifiers i hi q ?_
    rw [heq]
    exact hqualifier
  have hresolved : ∀ f ∈ fields,
      first.resolve? (first :: later) f.table = some (s.tableNamed f.table) := fun f hf =>
    resolve?_of_declares hfirst hreferences (hdeclared f hf)
  refine ⟨⟨fields.map fun f => { f with table := some (s.tableNamed f.table) }, first :: later⟩,
    ?_, ?_, hreferences⟩
  · simp only [Query.shape, hread, hbraces, hselect, htables, QueryField.bindAll,
      QueryField.bindTo_eq hresolved, bind, Except.bind]
    rfl
  · have hnamed := congrArg
      (List.map fun f => { f with table := some (s.tableNamed f.table) }) hfields
    rw [List.map_map, List.map_map] at hnamed
    rw [List.map_map]
    exact hnamed

theorem shape_of_laid_join :
    let s : SelectStatement :=
      ⟨.expression (.column ⟨some (.bare ['u']), .quoted "full name".toList⟩)
          (some ⟨true, .bare "name".toList⟩),
        [.expression (.call none ⟨some (.bare ['o']), .bare "total".toList⟩ "(0)".toList)
            (some ⟨false, .bare "total".toList⟩),
          .expression (.call (some "lower".toList) ⟨none, .bare "nick".toList⟩ ['1']) none,
          .expression (.count ['*']) (some ⟨false, .bare ['n']⟩),
          .expression (.placeholder .substitute ['p']) none, .expression (.literal ['1']) none,
          .wildcard (some (.bare ['o']))],
        ⟨some (.bare "shop".toList), .bare "users".toList, some ⟨true, .bare ['u']⟩⟩,
        [⟨none, .quoted "a b".toList, none⟩],
        [⟨some .left, ⟨none, .bare "orders".toList, some ⟨false, .bare ['o']⟩⟩,
          [.column (.bare ['o']) (.bare "user".toList), .word ['='],
            .column (.bare ['u']) (.bare "id".toList)]⟩]⟩
    let source : Text :=
      "SELECT u . `full name` AS name , IFNULL ( o . total , (0) ) total , ".toList ++
        "lower ( nick , 1 ) , COUNT ( * ) n , #\x7bp\x7d , 1 , o . * ".toList ++
        "FROM shop . users AS u , `a b` LEFT JOIN orders o ON o . user = u . id".toList
    let users : Option Text := some "users".toList
    let orders : Option Text := some "orders".toList
    let place : Span := .point 0
    s.IsWellFormed ∧ source = s.print ∧ ∃ shape, Query.shape .sql (.ofText source) = .ok shape ∧
      shape.fields.map QueryField.unplaced =
        [⟨users, "full name".toList, some "name".toList, false, false, place⟩,
          ⟨orders, "total".toList, none, false, false, place⟩,
          ⟨users, "nick".toList, none, false, false, place⟩,
          ⟨users, "count".toList, some ['n'], true, false, place⟩,
          ⟨users, "#\x7bp\x7d".toList, none, false, true, place⟩,
          ⟨users, ['1'], none, false, true, place⟩,
          ⟨orders, ['*'], none, false, false, place⟩] ∧
      shape.tables.map QueryTable.unplaced =
        [⟨"users".toList, some ['u'], false, place⟩, ⟨"a b".toList, none, false, place⟩,
          ⟨"orders".toList, some ['o'], false, place⟩] := by
  intro s source users orders place
  have hone : IsArgument ['1'] :=
    ⟨[⟨.word, ['1'], ⟨0, 1⟩⟩], by decide +kernel, .other (by decide) (by decide) .nil⟩
  have hstar : IsArgument ['*'] :=
    ⟨[⟨.symbol .star, ['*'], ⟨0, 1⟩⟩], by decide +kernel, .other (by decide) (by decide) .nil⟩
  have hgroup : IsArgument "(0)".toList :=
    ⟨[⟨.symbol .openParen, ['('], ⟨0, 1⟩⟩, ⟨.word, ['0'], ⟨1, 2⟩⟩,
      ⟨.symbol .closeParen, [')'], ⟨2, 3⟩⟩], by decide +kernel,
      @Balanced.group [.word] [] (.other (by decide) (by decide) .nil) .nil⟩
  have hitems : ∀ i ∈ s.first :: s.items, i.IsWellFormed := by
    simp only [s, List.forall_mem_cons, List.not_mem_nil, false_implies, implies_true,
      SelectItem.IsWellFormed, SelectExpression.IsWellFormed, hone, hstar, hgroup]
    decide +kernel
  have hreferences : ∀ t ∈ s.references, t.IsWellFormed := by decide +kernel
  have hconditions : ∀ j ∈ s.joins, ∀ p ∈ j.condition, p.IsWellFormed := by decide +kernel
  have hqualifiers : ∀ i ∈ s.first :: s.items, ∀ q ∈ i.field.table, s.Declares q := by
    unfold Declares
    decide +kernel
  have hquantifier : ∀ p ∈ s.first.parts.head?, ¬p.IsQuantifier := by
    rintro _ ⟨⟩
    exact not_or.2 ⟨by decide, by decide⟩
  have hs : s.IsWellFormed :=
    ⟨hitems, hreferences, hconditions, hqualifiers, hquantifier⟩
  have hsource : source = s.print := by decide +kernel
  obtain ⟨hlaid, hshape⟩ := shape_of_laid s hs
  obtain ⟨shape, hread, hfields, htables⟩ := hshape (.ofText source) (hsource ▸ hlaid)
  exact ⟨hs, hsource, shape, hread, hfields.trans (by decide +kernel),
    htables.trans (by decide +kernel)⟩

end SelectStatement

end QueryTemplate
