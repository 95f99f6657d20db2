import QueryTemplate.Proofs.Alignment.Query
import QueryTemplate.Proofs.Query.Binding
import QueryTemplate.Proofs.Token.Division

/-! # The tokens that fields and tables are read from

A field is read from a stretch of the tokens of a query, and so is a table. Its place reaches from
the first token of the stretch to the last one, and its name is the label of one of them or the text
of braces among them. The stretches of the items of a list lie one behind the other.
-/

namespace QueryTemplate

/-- The place from the first token to the last one behind it. -/
def Token.reach (first : Token) (later : List Token) : Span :=
  ⟨first.span.start, (later.getLastD first).span.stop⟩

/-- The tokens stand in the text of a query, one behind the other. -/
structure Query.Holds (q : Query) (ts : List Token) : Prop where
  stands : ∀ t ∈ ts, ∃ before after, q.source.text = before ++ (t.lexeme ++ after) ∧
    t.lexeme ≠ [] ∧ t.span = ⟨q.source.offset + Text.size before,
      q.source.offset + Text.size before + Text.size t.lexeme⟩
  ordered : ts.Pairwise fun t u => t.span.stop ≤ u.span.start
  symbol : ∀ t ∈ ts, ∀ s, t.kind = .symbol s → t.lexeme = s.text
  word : ∀ t ∈ ts, t.kind = .word → ∀ s : Symbol, ¬s.text <:+: t.lexeme

theorem Token.reach_append_cons (first t : Token) (inner later : List Token) :
    first.reach (inner ++ t :: later) = ⟨first.span.start, (t.reach later).stop⟩ := by
  have hlast (u : Token) : (inner ++ t :: later).getLastD u = later.getLastD t := by
    induction inner generalizing u with
    | nil => exact List.getLastD_cons
    | cons v inner ih => rw [List.cons_append, List.getLastD_cons, ih]
  rw [reach, hlast, reach]

namespace Query.Holds

variable {q : Query} {ts us : List Token} {first t : Token} {inner later : List Token}

theorem sublist (h : q.Holds ts) (hus : us.Sublist ts) : q.Holds us :=
  ⟨fun t ht => h.stands t (hus.subset ht), h.ordered.sublist hus,
    fun t ht => h.symbol t (hus.subset ht), fun t ht => h.word t (hus.subset ht)⟩

theorem suffix (h : q.Holds ts) (hus : us <:+ ts) : q.Holds us := h.sublist hus.sublist

theorem middle {lead part more : List Token} (h : q.Holds (lead ++ (part ++ more))) :
    q.Holds part :=
  h.sublist ((List.sublist_append_left ..).trans (List.sublist_append_right ..))

theorem start_lt_stop (h : q.Holds ts) (ht : t ∈ ts) : t.span.start < t.span.stop := by
  rcases h.stands t ht with ⟨before, after, -, hne, hspan⟩
  have hpos := Text.size_pos hne
  simp only [hspan]
  omega

theorem stop_le_start (h : q.Holds (first :: later)) (ht : t ∈ later) :
    first.span.stop ≤ t.span.start :=
  (List.pairwise_cons.1 h.ordered).1 t ht

/-- A token lies within the reach of a stretch that it is in. -/
theorem within_reach (h : q.Holds (first :: later)) (ht : t ∈ first :: later) :
    first.span.start ≤ t.span.start ∧ t.span.stop ≤ (first.reach later).stop := by
  induction later generalizing first t with
  | nil =>
    rw [List.mem_singleton.1 ht]
    exact ⟨Nat.le_refl _, Nat.le_refl _⟩
  | cons u later ih =>
    have hstart := h.start_lt_stop (List.mem_cons_self ..)
    have hnext := h.stop_le_start (List.mem_cons_self ..)
    have hu := h.start_lt_stop (List.mem_cons_of_mem _ (List.mem_cons_self ..))
    have hreach := Token.reach_append_cons first u [] later
    have hlater (v : Token) (hv : v ∈ u :: later) := ih (h.suffix (List.suffix_cons ..)) hv
    have huReach := (hlater u (List.mem_cons_self ..)).2
    rw [show first.reach (u :: later) = ⟨first.span.start, (u.reach later).stop⟩ from hreach]
    rcases List.mem_cons.1 ht with rfl | ht
    · dsimp only
      omega
    · have hv := hlater t ht
      dsimp only
      omega

/-- A token that lies within the reach of a stretch is in it. -/
theorem mem_of_within_reach {lead tail : List Token}
    (h : q.Holds (lead ++ (first :: later) ++ tail)) (ht : t ∈ lead ++ (first :: later) ++ tail)
    (hstart : (first.reach later).start ≤ t.span.start)
    (hstop : t.span.stop ≤ (first.reach later).stop) : t ∈ first :: later := by
  have hlt := h.start_lt_stop ht
  obtain ⟨hpart, -, hbehind⟩ := List.pairwise_append.1 h.ordered
  rcases List.mem_append.1 ht with ht | htail
  · rcases List.mem_append.1 ht with hlead | hmem
    · have hle := (List.pairwise_append.1 hpart).2.2 t hlead first (List.mem_cons_self ..)
      exact absurd (Nat.le_trans hle hstart) (Nat.not_le.2 hlt)
    · exact hmem
  · have hlast : later.getLastD first ∈ first :: later := List.getLastD_mem_cons
    have hle := hbehind _ (List.mem_append_right _ hlast) t htail
    exact absurd (Nat.le_trans hstop hle) (Nat.not_le.2 hlt)

theorem reach_start_lt_stop (h : q.Holds (first :: later)) :
    (first.reach later).start < (first.reach later).stop :=
  Nat.lt_of_lt_of_le (h.start_lt_stop (List.mem_cons_self ..))
    (h.within_reach (List.mem_cons_self ..)).2

/-- The places of two stretches cover the place of the stretch that begins with one and ends with
the other. -/
theorem merge_reach (h : q.Holds (first :: (inner ++ us ++ t :: later))) :
    (first.reach inner).merge (t.reach later) = first.reach (inner ++ us ++ t :: later) := by
  have hinner : first.reach inner = ⟨first.span.start, (inner.getLastD first).span.stop⟩ := rfl
  have hmem : inner.getLastD first ∈ first :: (inner ++ us ++ t :: later) := by
    have hlast : inner.getLastD first ∈ first :: inner := List.getLastD_mem_cons
    simp at hlast ⊢
    tauto
  have hlast := h.within_reach hmem
  have hfirst := h.start_lt_stop (List.mem_cons_self ..)
  have ht := h.stop_le_start (t := t) (by simp)
  rw [Token.reach_append_cons] at hlast ⊢
  rw [hinner, Span.merge]
  dsimp only [Token.reach] at hlast ⊢
  rw [Nat.min_eq_left (by omega), Nat.max_eq_right hlast.2]

theorem isCut_start (h : q.Holds ts) (ht : t ∈ ts) : q.source.IsCut t.span.start := by
  rcases h.stands t ht with ⟨before, after, htext, -, hspan⟩
  exact ⟨before, _, htext, by rw [hspan]⟩

theorem isCut_stop (h : q.Holds ts) (ht : t ∈ ts) : q.source.IsCut t.span.stop := by
  rcases h.stands t ht with ⟨before, after, htext, -, hspan⟩
  refine ⟨before ++ t.lexeme, after, by simp [htext], ?_⟩
  rw [hspan, Text.size_append, Nat.add_assoc]

theorem slice_span (h : q.Holds ts) (ht : t ∈ ts) : q.source.slice t.span = t.lexeme := by
  rcases h.stands t ht with ⟨before, after, htext, -, hspan⟩
  exact Fragment.slice_of_text htext (by rw [hspan]) (by rw [hspan])

/-- The text of a stretch of tokens has the texts of the stretches inside it in it. -/
theorem slice_reach_isInfix (h : q.Holds (first :: later)) {lead tail : List Token}
    (hinner : first :: later = lead ++ (t :: inner ++ tail)) :
    q.source.slice (t.reach inner) <:+: q.source.slice (first.reach later) := by
  have hpart : q.Holds (t :: inner) :=
    h.sublist (hinner ▸ (List.sublist_append_left ..).trans (List.sublist_append_right ..))
  have hfirst : t ∈ first :: later := by simp [hinner]
  have hlast : inner.getLastD t ∈ first :: later := by
    have hmem : inner.getLastD t ∈ t :: inner := List.getLastD_mem_cons
    rw [hinner]
    simp at hmem ⊢
    tauto
  have hend : later.getLastD first ∈ first :: later := List.getLastD_mem_cons
  exact Fragment.slice_isInfix (h.isCut_start (List.mem_cons_self ..)) (h.isCut_start hfirst)
    (h.isCut_stop hlast) (h.isCut_stop hend) (h.within_reach hfirst).1
    (Nat.le_of_lt hpart.reach_start_lt_stop) (h.within_reach hlast).2

end Query.Holds

theorem Query.holds_read (source : Fragment) :
    Query.Holds ⟨source, (Lexicon.sql.read source).fault⟩ (Lexicon.sql.read source).tokens := by
  have h := Lexicon.sql.divides_read source
  refine ⟨fun t ht => ?_, h.ordered, fun t ht s hs => ?_, fun t ht hword s => ?_⟩
  · rcases h.stands t ht with ⟨before, after, htext, hne, -, hspan⟩
    exact ⟨before, after, htext, hne, hspan⟩
  · rcases Lexicon.exists_tokenAt_of_mem_read ht with ⟨o, c, rest, after, htoken⟩
    exact Lexicon.lexeme_of_symbol htoken hs
  · rcases Lexicon.exists_tokenAt_of_mem_read ht with ⟨o, c, rest, after, htoken⟩
    have hs : s ∈ Lexicon.sql.symbols := Symbol.mem_all s
    exact Lexicon.not_isInfix_of_tokenAt htoken (by simp [hword]) (by simp [hword]) hs

/-! ## Names -/

/-- The tokens that a name is read from, whether it is taken verbatim, and the name. -/
inductive Query.Names (q : Query) : List Token → Bool → Text → Prop where
  | label (t : Token) : Names q [t] false t.label
  | literal {t : Token} : t.kind = .word → Names q [t] true t.lexeme
  | braces {opening closing : Token} {inner : List Token} {s : Symbol} :
    opening.kind = .symbol s → s.opensBrace → (∀ t ∈ inner, ¬t.isSymbol .closeBrace) →
    closing.isSymbol .closeBrace → Names q (opening :: (inner ++ [closing])) true
      (q.source.slice (opening.reach (inner ++ [closing])))

/-- A name is read from some of the tokens; one that is taken verbatim is read behind a dot. -/
def Query.NamesWithin (q : Query) (ts : List Token) (isVerbatim : Bool) (name : Text) : Prop :=
  ∃ lead part tail, ts = lead ++ (part ++ tail) ∧ q.Names part isVerbatim name ∧
    (isVerbatim → ∃ dot ∈ lead.getLast?, dot.isSymbol .dot)

/-- A name is read from the first of the tokens or from later ones. -/
def Query.NamesFrom (q : Query) (ts : List Token) (isVerbatim : Bool) (name : Text) : Prop :=
  (∃ part tail, ts = part ++ tail ∧ q.Names part isVerbatim name) ∨ q.NamesWithin ts isVerbatim name

/-- A qualifier is read from the first of the tokens, in front of a dot, or it is a bare word. -/
def Token.Qualifies (first : Token) (inner : List Token) (qualifier : Text) : Prop :=
  (first.label = qualifier ∧ ∃ dot later, inner = dot :: later) ∨
    ∃ t ∈ first :: inner, t.kind = .word ∧ t.label = qualifier

/-- A field is read as a column from the tokens. -/
structure Query.IsColumn (q : Query) (first : Token) (inner : List Token) (f : QueryField) :
    Prop where
  span : f.span = first.reach inner
  isAggregate : f.isAggregate = false
  name : q.NamesWithin (first :: inner) f.isVerbatim f.name
  qualifier : ∀ x ∈ f.table, first.Qualifies inner x

structure Query.IsField (q : Query) (first : Token) (inner : List Token) (f : QueryField) :
    Prop where
  span : f.span = first.reach inner
  aggregate : f.isAggregate → f.name = QueryField.countName ∧ f.isVerbatim = false
  name : f.isAggregate = false → q.NamesFrom (first :: inner) f.isVerbatim f.name
  qualifier : ∀ x ∈ f.table, first.Qualifies inner x

namespace Query

variable {q : Query} {first t : Token} {ts rest lead part tail : List Token} {f : QueryField}
  {isVerbatim : Bool} {name : Text}

theorem NamesWithin.label (ht : t ∈ ts) : q.NamesWithin ts false t.label := by
  rcases List.append_of_mem ht with ⟨lead, tail, rfl⟩
  exact ⟨lead, [t], tail, rfl, .label t, by simp⟩

theorem NamesWithin.append (h : q.NamesWithin part isVerbatim name) (lead tail : List Token) :
    q.NamesWithin (lead ++ (part ++ tail)) isVerbatim name := by
  rcases h with ⟨before, found, after, rfl, hnames, hdot⟩
  refine ⟨lead ++ before, found, after ++ tail, by simp, hnames, fun hverbatim => ?_⟩
  rcases hdot hverbatim with ⟨dot, hlast, hsymbol⟩
  exact ⟨dot, by simp_all [List.getLast?_append], hsymbol⟩

theorem IsColumn.isField {inner : List Token} (h : q.IsColumn first inner f) :
    q.IsField first inner f :=
  ⟨h.span, by simp [h.isAggregate], fun _ => .inr h.name, h.qualifier⟩

/-! ## Readers of the select list -/

theorem exists_of_closingBrace? {stop : Span} (h : closingBrace? ts = some (stop, rest)) :
    ∃ inner closing, ts = inner ++ closing :: rest ∧ stop = closing.span ∧
      closing.isSymbol .closeBrace ∧ ∀ t ∈ inner, ¬t.isSymbol .closeBrace := by
  induction ts with
  | nil => cases h
  | cons t ts ih =>
    unfold closingBrace? at h
    split at h
    · rename_i hclose
      cases h
      exact ⟨[], t, rfl, rfl, hclose, by simp⟩
    · rename_i hclose
      rcases ih h with ⟨inner, closing, rfl, hstop, hclosing, hinner⟩
      exact ⟨t :: inner, closing, rfl, hstop, hclosing, by simp_all⟩

theorem exists_of_closingParen? {depth : Nat} {stop : Span}
    (h : closingParen? depth ts = some (stop, rest)) :
    ∃ inner closing, ts = inner ++ closing :: rest ∧ stop = closing.span := by
  induction ts generalizing depth with
  | nil => cases h
  | cons t ts ih =>
    unfold closingParen? at h
    split at h
    · rcases ih h with ⟨inner, closing, rfl, hstop⟩
      exact ⟨t :: inner, closing, rfl, hstop⟩
    · split at h
      · cases h
        exact ⟨[], t, rfl, rfl⟩
      · rcases ih h with ⟨inner, closing, rfl, hstop⟩
        exact ⟨t :: inner, closing, rfl, hstop⟩
    · rcases ih h with ⟨inner, closing, rfl, hstop⟩
      exact ⟨t :: inner, closing, rfl, hstop⟩

theorem exists_of_groupEnd {depth : Nat} {stop : Span}
    (h : q.groupEnd depth ts = .ok (stop, rest)) :
    ∃ inner closing, ts = inner ++ closing :: rest ∧ stop = closing.span := by
  unfold groupEnd at h
  split at h
  · cases h
  · rename_i hclosing
    exact exists_of_closingParen? (Except.ok.inj h ▸ hclosing)

/-- A stretch of braces gives its own text as a name. -/
theorem names_of_braces {opening : Token} {s : Symbol} {x : Text × Span}
    (hq : q.Holds (opening :: ts)) (hs : opening.kind = .symbol s) (hopens : s.opensBrace)
    (h : q.braces opening ts = .ok (x, rest)) :
    ∃ inner, ts = inner ++ rest ∧ x.2 = opening.reach inner ∧
      q.Names (opening :: inner) true x.1 := by
  unfold braces at h
  split at h
  · cases h
  · rename_i hclosing
    rcases exists_of_closingBrace? hclosing with ⟨inner, closing, rfl, rfl, hclose, hinner⟩
    cases h
    have hpart : q.Holds (opening :: ([] ++ inner ++ closing :: [])) :=
      hq.sublist (by simp)
    have hspan : opening.span.merge closing.span = opening.reach (inner ++ [closing]) :=
      hpart.merge_reach
    refine ⟨inner ++ [closing], by simp, hspan, ?_⟩
    dsimp only
    rw [hspan]
    exact .braces hs hopens hinner hclose

theorem isColumn_of_qualifiedColumn {dot : Token} (hq : q.Holds (first :: dot :: ts))
    (hdot : dot.isSymbol .dot) (h : q.qualifiedColumn first ts = .ok (f, rest)) :
    ∃ inner, ts = inner ++ rest ∧ q.IsColumn first (dot :: inner) f := by
  cases ts with
  | nil => cases h
  | cons column ts =>
    have hreach {inner : List Token} (hin : inner.Sublist ts) :
        first.span.merge (column.reach inner) = first.reach (dot :: column :: inner) := by
      have hpart : q.Holds (first :: ([] ++ [dot] ++ column :: inner)) :=
        hq.sublist (by simpa using hin)
      exact hpart.merge_reach
    have hlast : ∃ d ∈ [first, dot].getLast?, d.isSymbol .dot := ⟨dot, rfl, hdot⟩
    have hqualifier (inner : List Token) (x : Text) (hx : x ∈ some first.label) :
        first.Qualifies (dot :: inner) x := .inl ⟨Option.some.inj hx, dot, inner, rfl⟩
    simp only [qualifiedColumn, next, bind, Except.bind] at h
    split at h
    · rename_i hstar
      cases h
      have hlabel : column.label = QueryField.wildcardName := by
        have hlexeme := hq.symbol column (by simp) _ hstar
        simp [Token.label, Token.name?, hstar, hlexeme, QueryField.wildcardName, Symbol.text]
      refine ⟨[column], rfl, hreach (List.nil_sublist _), rfl, ?_, hqualifier _⟩
      exact ⟨[first, dot], [column], [], rfl, hlabel ▸ .label column, fun _ => hlast⟩
    · rename_i s _ hs
      split at h
      · rename_i hopens
        rcases Checked.map_eq_ok h with ⟨⟨x, after⟩, hbraces, hx⟩
        cases hx
        rcases names_of_braces (hq.suffix ⟨[first, dot], rfl⟩) hs hopens hbraces with
          ⟨inner, rfl, hspan, hnames⟩
        refine ⟨column :: inner, rfl, ?_, rfl, ?_, hqualifier _⟩
        · rw [← hreach (List.sublist_append_left ..), ← hspan]
          rfl
        · exact ⟨[first, dot], column :: inner, [], by simp, hnames, fun _ => hlast⟩
      · cases h
    · cases h
      refine ⟨[column], rfl, hreach (List.nil_sublist _), rfl, ?_, hqualifier _⟩
      exact ⟨[first, dot], [column], [], rfl, .label column, fun _ => hlast⟩

theorem isColumn_of_columnAt (hq : q.Holds (first :: ts))
    (h : q.columnAt first ts = .ok (f, rest)) :
    ∃ inner, ts = inner ++ rest ∧ q.IsColumn first inner f := by
  have hcolumn : q.IsColumn first [] (.column first.label first.span) :=
    ⟨rfl, rfl, .label (List.mem_singleton.2 rfl), fun _ hx => nomatch hx⟩
  unfold columnAt at h
  split at h
  · cases atEnd_eq_ok h
    exact ⟨[], rfl, hcolumn⟩
  · split at h
    · rename_i dot ts hdot
      rcases isColumn_of_qualifiedColumn hq hdot h with ⟨inner, rfl, hf⟩
      exact ⟨dot :: inner, rfl, hf⟩
    · cases h
      exact ⟨[], rfl, hcolumn⟩

/-- The column inside a call is read from tokens of the call, up to its closing parenthesis. It
starts with a bare word, which is its qualifier if it has one. -/
theorem namesWithin_of_columnInCall {function : Token} {depth : Nat} (hq : q.Holds ts)
    (h : q.columnInCall function depth ts = .ok (f, rest)) :
    ∃ inner closing, ts = inner ++ closing :: rest ∧
      f.span = function.span.merge closing.span ∧ f.isAggregate = false ∧
        q.NamesWithin inner f.isVerbatim f.name ∧
          ∀ x ∈ f.table, ∃ t ∈ inner, t.kind = .word ∧ t.label = x := by
  induction ts generalizing depth with
  | nil => cases h
  | cons t ts ih =>
    have hlater {depth : Nat} (h : q.columnInCall function depth ts = .ok (f, rest)) :
        ∃ inner closing, t :: ts = inner ++ closing :: rest ∧
          f.span = function.span.merge closing.span ∧ f.isAggregate = false ∧
            q.NamesWithin inner f.isVerbatim f.name ∧
              ∀ x ∈ f.table, ∃ t ∈ inner, t.kind = .word ∧ t.label = x := by
      rcases ih (hq.suffix (List.suffix_cons ..)) h with
        ⟨inner, closing, rfl, hspan, haggregate, hname, hqualifier⟩
      refine ⟨t :: inner, closing, rfl, hspan, haggregate, ?_, fun x hx => ?_⟩
      · simpa using hname.append [t] []
      · rcases hqualifier x hx with ⟨u, hu, hword⟩
        exact ⟨u, List.mem_cons_of_mem _ hu, hword⟩
    unfold columnInCall at h
    split at h
    · exact hlater h
    · split at h
      · cases h
      · exact hlater h
    · rename_i hword
      split at h
      · rcases Checked.bind_eq_ok h with ⟨⟨g, us⟩, hcolumn, h⟩
        rcases Checked.bind_eq_ok h with ⟨⟨stop, vs⟩, hgroup, h⟩
        cases h
        rcases isColumn_of_columnAt hq hcolumn with ⟨inner, rfl, hg⟩
        rcases exists_of_groupEnd hgroup with ⟨later, closing, rfl, rfl⟩
        refine ⟨t :: inner ++ later, closing, by simp, rfl, hg.isAggregate,
          hg.name.append [] later, fun x hx => ?_⟩
        rcases hg.qualifier x hx with ⟨hlabel, -⟩ | ⟨u, hu, hx⟩
        · exact ⟨t, List.mem_cons_self .., hword, hlabel⟩
        · exact ⟨u, List.mem_append_left _ hu, hx⟩
      · exact hlater h
    · exact hlater h

theorem exists_of_symbol {s : Symbol} (h : q.symbol s ts = .ok (t, rest)) : ts = t :: rest := by
  unfold symbol at h
  split at h
  · cases h
  · split at h
    · cases h
      rfl
    · cases h

theorem isColumn_of_call (hq : q.Holds (first :: ts)) (h : q.call first ts = .ok (f, rest)) :
    ∃ inner, ts = inner ++ rest ∧ q.IsColumn first inner f := by
  rcases Checked.bind_eq_ok h with ⟨⟨opening, us⟩, hopening, hcolumn⟩
  obtain rfl := exists_of_symbol hopening
  rcases namesWithin_of_columnInCall (hq.suffix ⟨[first, opening], rfl⟩) hcolumn with
    ⟨inner, closing, rfl, hspan, haggregate, hname, hqualifier⟩
  have hpart : q.Holds (first :: ([] ++ (opening :: inner) ++ closing :: [])) :=
    hq.sublist (by simp)
  refine ⟨opening :: (inner ++ [closing]), by simp, ?_, haggregate, ?_, fun x hx => .inr ?_⟩
  · rw [hspan]
    exact hpart.merge_reach
  · exact hname.append [first, opening] [closing]
  · rcases hqualifier x hx with ⟨t, ht, hword⟩
    exact ⟨t, by simp [ht], hword⟩

theorem isField_of_countOf (hq : q.Holds (first :: ts))
    (h : q.countOf first ts = .ok (f, rest)) :
    ∃ inner, ts = inner ++ rest ∧ q.IsField first inner f := by
  rcases Checked.bind_eq_ok h with ⟨⟨opening, us⟩, hopening, h⟩
  rcases Checked.bind_eq_ok h with ⟨⟨stop, vs⟩, hgroup, h⟩
  obtain rfl := exists_of_symbol hopening
  rcases exists_of_groupEnd hgroup with ⟨inner, closing, rfl, rfl⟩
  cases h
  have hpart : q.Holds (first :: ([] ++ (opening :: inner) ++ closing :: [])) :=
    hq.sublist (by simp)
  refine ⟨opening :: (inner ++ [closing]), by simp, ?_, ?_, ?_, fun _ hx => nomatch hx⟩
  · exact hpart.merge_reach
  · exact fun _ => ⟨rfl, rfl⟩
  · intro hnot
    cases hnot

theorem isField_of_fieldAt (hq : q.Holds (first :: ts))
    (h : q.fieldAt first ts = .ok (f, rest)) :
    ∃ inner, ts = inner ++ rest ∧ q.IsField first inner f := by
  have hcolumnAt (h : q.columnAt first ts = .ok (f, rest)) :
      ∃ inner, ts = inner ++ rest ∧ q.IsField first inner f := by
    rcases isColumn_of_columnAt hq h with ⟨inner, hts, hf⟩
    exact ⟨inner, hts, hf.isField⟩
  have hcall (h : q.call first ts = .ok (f, rest)) :
      ∃ inner, ts = inner ++ rest ∧ q.IsField first inner f := by
    rcases isColumn_of_call hq h with ⟨inner, hts, hf⟩
    exact ⟨inner, hts, hf.isField⟩
  unfold fieldAt at h
  split at h
  · rcases Checked.bind_eq_ok h with ⟨b, -, h⟩
    cases b
    · exact hcolumnAt h
    · exact hcall h
  · rcases Checked.bind_eq_ok h with ⟨b, -, h⟩
    cases b
    · exact hcolumnAt h
    · exact isField_of_countOf hq h
  · rename_i hstar
    cases h
    have hlabel : first.label = QueryField.wildcardName := by
      have hlexeme := hq.symbol first (List.mem_cons_self ..) _ hstar
      simp [Token.label, Token.name?, hstar, hlexeme, QueryField.wildcardName, Symbol.text]
    refine ⟨[], rfl, rfl, ?_, fun _ => .inr ?_, by rintro _ ⟨⟩⟩
    · intro haggregate
      cases haggregate
    · exact hlabel ▸ .label (List.mem_singleton.2 rfl)
  · rename_i s _ hs
    split at h
    · rename_i hopens
      rcases Checked.map_eq_ok h with ⟨⟨x, after⟩, hbraces, hx⟩
      cases hx
      rcases names_of_braces hq hs hopens hbraces with ⟨inner, rfl, hspan, hnames⟩
      refine ⟨inner, rfl, hspan, ?_, fun _ => .inl ⟨first :: inner, [], by simp, hnames⟩,
        by rintro _ ⟨⟩⟩
      intro haggregate
      cases haggregate
    · cases h
  · rename_i hword
    split at h
    · cases h
      refine ⟨[], rfl, rfl, ?_, fun _ => .inl ⟨[first], [], rfl, .literal hword⟩,
        by rintro _ ⟨⟩⟩
      intro haggregate
      cases haggregate
    · rcases Checked.bind_eq_ok h with ⟨b, -, h⟩
      cases b
      · exact hcolumnAt h
      · exact hcall h
  · exact hcolumnAt h
  · cases h

theorem ne_own_of_bareAlias {own : Text} {aliasName : Option Text}
    (h : q.bareAlias own ts = .ok (aliasName, rest)) : aliasName ≠ some own := by
  unfold bareAlias at h
  split at h
  · cases atEnd_eq_ok h
    simp
  · split at h
    · rename_i name _
      cases h
      by_cases hname : name = own <;> simp [hname]
    · cases h
      simp

/-- An alias repeats nothing's own name. -/
theorem ne_own_of_aliasOf {own : Text} {aliasName : Option Text}
    (h : q.aliasOf own ts = .ok (aliasName, rest)) : aliasName ≠ some own := by
  unfold aliasOf at h
  split at h
  · cases atEnd_eq_ok h
    simp
  · split at h
    · exact ne_own_of_bareAlias h
    · exact ne_own_of_bareAlias h

end Query

/-! ## Lists of fields and tables -/

/-- The items are read from stretches of the tokens that lie one behind the other, and `rest` lies
behind the last of them. -/
inductive Stretches {α : Type} (P : List Token → α → Prop) :
    List Token → List α → List Token → Prop where
  | nil {ts rest : List Token} : rest <:+ ts → Stretches P ts [] rest
  | cons {lead part more rest : List Token} {x : α} {xs : List α} : P part x →
    Stretches P more xs rest → Stretches P (lead ++ (part ++ more)) (x :: xs) rest

namespace Stretches

variable {α : Type} {P : List Token → α → Prop} {ts us rest : List Token} {xs ys : List α}

theorem suffix (h : Stretches P ts xs rest) : rest <:+ ts := by
  induction h with
  | nil hrest => exact hrest
  | cons _ _ ih =>
    exact (ih.trans (List.suffix_append ..)).trans (List.suffix_append ..)

theorem single {part more : List Token} {x : α} (hx : P part x) (hrest : rest <:+ more) :
    Stretches P (part ++ more) [x] rest :=
  List.nil_append (part ++ more) ▸ .cons hx (.nil hrest)

theorem of_suffix (h : Stretches P ts xs rest) (hts : ts <:+ us) : Stretches P us xs rest := by
  cases h with
  | nil hrest => exact .nil (hrest.trans hts)
  | cons hx hrest =>
    rcases hts with ⟨before, rfl⟩
    rw [← List.append_assoc]
    exact .cons hx hrest

theorem append (h : Stretches P ts xs us) (hys : Stretches P us ys rest) :
    Stretches P ts (xs ++ ys) rest := by
  induction h with
  | nil hus => exact hys.of_suffix hus
  | cons hx _ ih => exact .cons hx (ih hys)

theorem exists_of_mem (h : Stretches P ts xs rest) {x : α} (hx : x ∈ xs) :
    ∃ lead part more, ts = lead ++ (part ++ more) ∧ rest <:+ more ∧ P part x := by
  induction h with
  | nil _ => cases hx
  | @cons lead part more _ y _ hy hlater ih =>
    rcases List.mem_cons.1 hx with rfl | hx
    · exact ⟨lead, part, more, rfl, hlater.suffix, hy⟩
    · rcases ih hx with ⟨lead', part', more', rfl, hrest, hP⟩
      exact ⟨lead ++ (part ++ lead'), part', more', by simp, hrest, hP⟩

/-- What holds of items read from any two stretches, one behind the other, holds pairwise. -/
theorem pairwise {R : α → α → Prop} (h : Stretches P ts xs rest)
    (hR : ∀ lead part more x y, lead ++ (part ++ more) <:+ ts → P part x →
      (∃ lead' part' more', more = lead' ++ (part' ++ more') ∧ P part' y) → R x y) :
    xs.Pairwise R := by
  induction h with
  | nil _ => exact .nil
  | @cons lead part more _ x _ hx hlater ih =>
    refine .cons (fun y hy => ?_) (ih fun lead' part' more' y z hsuffix => ?_)
    · rcases hlater.exists_of_mem hy with ⟨lead', part', more', hmore, -, hP⟩
      exact hR lead part more x y List.suffix_rfl hx ⟨lead', part', more', hmore, hP⟩
    · refine hR lead' part' more' y z (hsuffix.trans ?_)
      exact (List.suffix_append ..).trans (List.suffix_append ..)

/-- Items in place of which others can be read. -/
theorem of_forall₂ {Q : List Token → α → Prop} {R : α → α → Prop} (h : Stretches P ts xs rest)
    (hR : ∀ part x y, R x y → P part x → Q part y) (hys : List.Forall₂ R xs ys) :
    Stretches Q ts ys rest := by
  induction h generalizing ys with
  | nil hrest =>
    cases hys
    exact .nil hrest
  | cons hx _ ih =>
    cases hys with
    | cons hy hys => exact .cons (hR _ _ _ hy hx) (ih hys)

end Stretches

def Token.IntroducesTable (t : Token) : Prop :=
  t.isKeyword .FROM ∨ t.isKeyword .JOIN ∨ t.isSymbol .comma

/-- A field with its alias is read from a stretch that begins with no directive. -/
inductive Query.Selects (q : Query) : List Token → QueryField → Prop where
  | intro {first : Token} {inner : List Token} {f : QueryField} :
    ¬first.isSymbol .openDirective → q.IsField first inner f → f.aliasName ≠ some f.name →
    Selects q (first :: inner) f

/-- A field is read from a stretch, but for the table that it is bound to. -/
def Query.Shows (q : Query) (part : List Token) (f : QueryField) : Prop :=
  ∃ qualifier, q.Selects part { f with table := qualifier }

/-- A table with its alias is read from a stretch, behind the first token. -/
inductive Query.Refers (q : Query) : List Token → QueryTable → Prop where
  | intro {before first : Token} {inner : List Token} {table : QueryTable} :
    before.IntroducesTable → table.span = first.reach inner →
    q.NamesFrom (first :: inner) table.isVerbatim table.name →
    table.aliasName ≠ some table.name → Refers q (before :: first :: inner) table

namespace Query

variable {q : Query} {ts rest : List Token}

/-- Directives in front of an item are passed over. -/
theorem not_directive_of_skipDirectives {inside : Bool} {t : Token}
    (h : q.skipBraces (· == .openDirective) inside ts = .ok (t :: rest)) :
    ¬t.isSymbol .openDirective := by
  induction ts generalizing inside with
  | nil =>
    cases inside
    · cases atEnd_eq_ok h
    · cases h
  | cons u ts ih =>
    cases inside
    · unfold skipBraces at h
      split at h
      · split at h
        · exact ih h
        · rename_i s hs hskipped
          cases h
          cases s <;> simp_all [Symbol.opensBrace, Token.isSymbol]
      · rename_i hnot
        cases h
        simpa [Token.isSymbol] using fun hs => hnot _ hs
    · exact ih h

theorem selects_of_selectStep {f : Option QueryField} (hq : q.Holds ts)
    (h : q.selectStep ts = .ok (.item f rest)) : Stretches q.Selects ts f.toList rest := by
  rcases Checked.bind_eq_ok h with ⟨us, hskip, h⟩
  have hus := skipBraces_suffix hskip
  cases us with
  | nil => cases h
  | cons t us =>
    dsimp only at h
    split at h
    · cases Except.ok.inj h
    · split at h
      · cases Except.ok.inj h
        exact .nil ((List.suffix_cons ..).trans hus)
      · rcases Checked.bind_eq_ok h with ⟨⟨g, vs⟩, hfield, h⟩
        rcases Checked.bind_eq_ok h with ⟨ws, hend, h⟩
        cases Except.ok.inj h
        rcases Checked.bind_eq_ok hfield with ⟨⟨g, as⟩, hfieldAt, hfield⟩
        rcases Checked.bind_eq_ok hfield with ⟨⟨aliasName, bs⟩, halias, hfield⟩
        cases hfield
        rcases isField_of_fieldAt (hq.suffix hus) hfieldAt with ⟨inner, rfl, hg⟩
        have hselects : q.Selects (t :: inner) { g with aliasName := aliasName } :=
          .intro (not_directive_of_skipDirectives hskip)
            ⟨hg.span, hg.aggregate, hg.name, hg.qualifier⟩ (ne_own_of_aliasOf halias)
        have hrest := (itemEnd_suffix hend).trans (aliasOf_suffix halias)
        exact (Stretches.single hselects hrest).of_suffix hus

theorem from_of_selectStep {clauses : List Token} (h : q.selectStep ts = .ok (.done clauses)) :
    clauses <:+ ts ∧ ∃ t later, clauses = t :: later ∧ t.isKeyword .FROM := by
  rcases Checked.bind_eq_ok h with ⟨us, hskip, h⟩
  have hus := skipBraces_suffix hskip
  cases us with
  | nil => cases h
  | cons t us =>
    dsimp only at h
    split at h
    · rename_i hfrom
      cases Except.ok.inj h
      exact ⟨hus, t, us, rfl, hfrom⟩
    · split at h
      · cases Except.ok.inj h
      · rcases Checked.bind_eq_ok h with ⟨_, -, h⟩
        rcases Checked.bind_eq_ok h with ⟨_, -, h⟩
        cases Except.ok.inj h

theorem from_of_selectItems {fields : List QueryField} {clauses : List Token}
    (h : q.selectItems ts = .ok (fields, clauses)) :
    ∃ t later, clauses = t :: later ∧ t.isKeyword .FROM := by
  induction hn : ts.length using Nat.strongRecOn generalizing ts fields with
  | ind n ih =>
    rw [selectItems_eq] at h
    split at h
    · cases h
    · rename_i hstep
      cases h
      exact (from_of_selectStep hstep).2
    · rename_i f rest hstep
      rcases Checked.map_eq_ok h with ⟨⟨later, after⟩, hlater, hx⟩
      cases hx
      exact ih _ (hn ▸ selectStep_length hstep) hlater rfl

/-- No item is left in front of `FROM`. -/
theorem selectItems_of_isKeyword {t : Token} (ht : t.isKeyword .FROM) (ts : List Token) :
    q.selectItems (t :: ts) = .ok ([], t :: ts) := by
  have hkind : t.kind = .keyword .FROM := eq_of_beq ht
  have hstep : q.selectStep (t :: ts) = .ok (.done (t :: ts)) := by
    simp [selectStep, skipDirectives, skipBraces, hkind, ht, bind, Except.bind, pure, Except.pure]
  rw [selectItems_eq, hstep]

/-- The fields of the select list, up to `FROM`. -/
theorem selects_of_selectItems {fields : List QueryField} {clauses : List Token} (hq : q.Holds ts)
    (h : q.selectItems ts = .ok (fields, clauses)) : Stretches q.Selects ts fields clauses := by
  induction hn : ts.length using Nat.strongRecOn generalizing ts fields with
  | ind n ih =>
    rw [selectItems_eq] at h
    split at h
    · cases h
    · rename_i hstep
      cases h
      exact .nil (from_of_selectStep hstep).1
    · rename_i f rest hstep
      rcases Checked.map_eq_ok h with ⟨⟨later, after⟩, hlater, hx⟩
      cases hx
      have hfirst := selects_of_selectStep hq hstep
      have hrest := hq.suffix hfirst.suffix
      exact hfirst.append (ih _ (hn ▸ selectStep_length hstep) hrest hlater rfl)

theorem skipQuantifier_suffix (h : q.skipQuantifier ts = .ok rest) : rest <:+ ts := by
  unfold skipQuantifier at h
  split at h
  · exact atEnd_eq_ok h ▸ List.suffix_rfl
  · split at h
    · exact atEnd_eq_ok h ▸ List.suffix_rfl
    · exact Except.ok.inj h ▸ List.suffix_rfl
  · split at h
    · exact Except.ok.inj h ▸ List.suffix_cons ..
    · exact Except.ok.inj h ▸ List.suffix_rfl

/-- A select list that is read consists of its word, perhaps a quantifier, and its items. -/
theorem exists_of_selectList {fields : List QueryField} {clauses : List Token}
    (h : q.selectList ts = .ok (fields, clauses)) :
    ∃ items, items <:+ ts ∧ q.selectItems items = .ok (fields, clauses) := by
  rcases Checked.bind_eq_ok h with ⟨⟨select, us⟩, hnext, h⟩
  dsimp only at h
  split at h
  · cases h
  · rcases Checked.bind_eq_ok h with ⟨items, hskip, h⟩
    rcases Checked.bind_eq_ok h with ⟨⟨found, after⟩, hitems, h⟩
    dsimp only at h
    split at h
    · cases h
    · cases h
      cases ts with
      | nil => cases hnext
      | cons t ts =>
        cases hnext
        exact ⟨items, (skipQuantifier_suffix hskip).trans (List.suffix_cons select us), hitems⟩

/-! ## Readers of tables -/

theorem names_of_tablePart {dotted isVerbatim : Bool} {first : Token} {name : Text} {span : Span}
    (hq : q.Holds (first :: ts))
    (h : q.tablePart dotted (first :: ts) = .ok ((name, span, isVerbatim), rest)) :
    ∃ inner, ts = inner ++ rest ∧ span = first.reach inner ∧
      q.Names (first :: inner) isVerbatim name := by
  simp only [tablePart, next, bind, Except.bind] at h
  split at h
  · cases h
    exact ⟨[], rfl, rfl, .label first⟩
  · cases h
    exact ⟨[], rfl, rfl, .label first⟩
  · rename_i hkeyword
    split at h
    · cases h
      have hlabel : first.label = first.lexeme := by simp [Token.label, Token.name?, hkeyword]
      exact ⟨[], rfl, rfl, hlabel ▸ .label first⟩
    · cases h
  · rename_i hs
    split at h
    · rename_i hopens
      rcases Checked.map_eq_ok h with ⟨x, hbraces, hx⟩
      cases hx
      exact names_of_braces hq hs hopens hbraces
    · cases h

/-- A dotted name reaches from its first part to its last one, which gives the name. -/
theorem namesFrom_of_dottedName {first : Token} {inner : List Token}
    {part found : Text × Span × Bool} (hq : q.Holds (first :: (inner ++ ts)))
    (hspan : part.2.1 = first.reach inner) (hname : q.NamesFrom (first :: inner) part.2.2 part.1)
    (h : q.dottedName part ts = .ok (found, rest)) :
    ∃ later, inner ++ ts = later ++ rest ∧ found.2.1 = first.reach later ∧
      q.NamesFrom (first :: later) found.2.2 found.1 := by
  fun_induction dottedName q part ts generalizing inner with
  | case1 =>
    cases atEnd_eq_ok h
    exact ⟨inner, rfl, hspan, hname⟩
  | case2 => cases h
  | case3 part dot ts hdot name span isVerbatim after hp ih =>
    cases ts with
    | nil => cases hp
    | cons next ts =>
      have hts : q.Holds (next :: ts) := hq.suffix ⟨first :: (inner ++ [dot]), by simp⟩
      rcases names_of_tablePart hts hp with ⟨found, rfl, rfl, hnames⟩
      have hpart : q.Holds (first :: (inner ++ [dot] ++ next :: found)) :=
        hq.sublist (by simp)
      have hq' : q.Holds (first :: (inner ++ [dot] ++ next :: found ++ after)) := by
        simpa using hq
      have hdotted : ∃ d ∈ (first :: (inner ++ [dot])).getLast?, d.isSymbol .dot :=
        ⟨dot, List.getLast?_concat (l := first :: inner), hdot⟩
      have hlast : q.NamesFrom (first :: (inner ++ [dot] ++ next :: found)) isVerbatim name :=
        .inr ⟨first :: (inner ++ [dot]), next :: found, [], by simp, hnames, fun _ => hdotted⟩
      rcases ih hq' (by rw [hspan, hpart.merge_reach]) hlast h with ⟨later, hlater, hfound⟩
      exact ⟨later, by simpa using hlater, hfound⟩
  | case4 part t ts _ =>
    cases h
    exact ⟨inner, rfl, hspan, hname⟩

theorem refers_of_tableReference {before : Token} {table : Option QueryTable}
    (hq : q.Holds (before :: ts)) (hbefore : before.IntroducesTable)
    (h : q.tableReference ts = .ok (table, rest)) :
    Stretches q.Refers (before :: ts) table.toList rest := by
  cases ts with
  | nil => cases h
  | cons first ts =>
    simp only [tableReference] at h
    split at h
    · rcases Checked.bind_eq_ok h with ⟨us, hgroup, h⟩
      rcases Checked.bind_eq_ok h with ⟨⟨aliasName, vs⟩, halias, h⟩
      cases h
      exact .nil (((aliasOf_suffix halias).trans (skipGroup_suffix hgroup)).trans
        ⟨[before, first], rfl⟩)
    · rcases Checked.bind_eq_ok h with ⟨⟨⟨name, span, isVerbatim⟩, us⟩, hpart, h⟩
      rcases Checked.bind_eq_ok h with ⟨⟨found, vs⟩, hdotted, h⟩
      rcases Checked.bind_eq_ok h with ⟨⟨aliasName, ws⟩, halias, h⟩
      cases h
      have hts := hq.suffix (List.suffix_cons ..)
      rcases names_of_tablePart hts hpart with ⟨inner, rfl, rfl, hnames⟩
      have hfirst : q.NamesFrom (first :: inner) isVerbatim name :=
        .inl ⟨first :: inner, [], by simp, hnames⟩
      rcases namesFrom_of_dottedName hts rfl hfirst hdotted with ⟨later, hlater, hspan, hname⟩
      have hrefers : q.Refers (before :: first :: later)
          ⟨found.1, aliasName, found.2.2, found.2.1⟩ :=
        .intro hbefore hspan hname (ne_own_of_aliasOf halias)
      rw [hlater]
      exact Stretches.single hrefers (aliasOf_suffix halias)

theorem refers_of_tableReferences {before : Token} {tables : List QueryTable}
    (hq : q.Holds (before :: ts)) (hbefore : before.IntroducesTable)
    (h : q.tableReferences ts = .ok (tables, rest)) :
    Stretches q.Refers (before :: ts) tables rest := by
  induction hn : ts.length using Nat.strongRecOn generalizing before ts tables with
  | ind n ih =>
    rw [tableReferences_eq] at h
    split at h
    · cases h
    · rename_i table hreference
      cases atEnd_eq_ok h
      exact refers_of_tableReference hq hbefore hreference
    · rename_i table t us hreference
      have hfirst := refers_of_tableReference hq hbefore hreference
      have hshorter := tableReference_length hreference
      split at h
      · rename_i hcomma
        rcases Checked.map_eq_ok h with ⟨⟨later, after⟩, hlater, hx⟩
        cases hx
        simp only [List.length_cons] at hshorter
        have hrest := hq.suffix hfirst.suffix
        exact hfirst.append (ih _ (by omega) hrest (.inr (.inr hcomma)) hlater rfl)
      · cases h
        exact hfirst

theorem refers_of_clauseStep {tables : List QueryTable} (hq : q.Holds ts)
    (h : q.clauseStep ts = .ok (some (tables, rest))) : Stretches q.Refers ts tables rest := by
  rcases Checked.bind_eq_ok h with ⟨us, hskip, h⟩
  have hus := skipBraces_suffix hskip
  cases us with
  | nil => cases h
  | cons t us =>
    dsimp only at h
    split at h
    · split at h
      · cases atEnd_eq_ok h
      · rename_i u vs
        cases h
        have hvs : rest <:+ t :: u :: rest := ⟨[t, u], rfl⟩
        exact .nil (hvs.trans hus)
    · rcases Checked.bind_eq_ok h with ⟨vs, hgroup, h⟩
      cases h
      exact .nil (((skipGroup_suffix hgroup).trans (List.suffix_cons ..)).trans hus)
    · rename_i hfrom
      rcases Checked.bind_eq_ok h with ⟨⟨found, vs⟩, hreferences, h⟩
      cases h
      have hbefore : t.IntroducesTable := .inl (by simp [Token.isKeyword, hfrom])
      exact (refers_of_tableReferences (hq.suffix hus) hbefore hreferences).of_suffix hus
    · rename_i hjoin
      rcases Checked.bind_eq_ok h with ⟨⟨found, vs⟩, hreference, h⟩
      cases h
      have hbefore : t.IntroducesTable := .inr (.inl (by simp [Token.isKeyword, hjoin]))
      exact (refers_of_tableReference (hq.suffix hus) hbefore hreference).of_suffix hus
    · cases h
      exact .nil ((List.suffix_cons ..).trans hus)

theorem refers_of_clauseTables {tables : List QueryTable} (hq : q.Holds ts)
    (h : q.clauseTables ts = .ok tables) : Stretches q.Refers ts tables [] := by
  induction hn : ts.length using Nat.strongRecOn generalizing ts tables with
  | ind n ih =>
    rw [clauseTables_eq] at h
    split at h
    · cases h
    · cases h
      exact .nil List.nil_suffix
    · rename_i found rest hstep
      rcases Checked.map_eq_ok h with ⟨later, hlater, rfl⟩
      have hfirst := refers_of_clauseStep hq hstep
      exact hfirst.append (ih _ (hn ▸ clauseStep_length hstep) (hq.suffix hfirst.suffix) hlater rfl)

theorem refers_of_tableList {tables : List QueryTable} (hq : q.Holds ts)
    (h : q.tableList ts = .ok tables) : Stretches q.Refers ts tables [] := by
  rcases Checked.bind_eq_ok h with ⟨found, htables, h⟩
  dsimp only at h
  split at h
  · cases h
  · cases h
    exact refers_of_clauseTables hq htables

end Query

/-- The fields of a shape are read from the tokens up to `FROM`, and the tables from there on. -/
theorem Query.exists_stretches_of_shape {source : Fragment} {shape : QueryShape}
    (h : Query.shape .sql source = .ok shape) : ∃ keyword clauses, keyword.isKeyword .FROM ∧
      Stretches (Query.Shows ⟨source, (Lexicon.sql.read source).fault⟩)
        (Lexicon.sql.read source).tokens shape.fields (keyword :: clauses) ∧
      Stretches (Query.Refers ⟨source, (Lexicon.sql.read source).fault⟩) (keyword :: clauses)
        shape.tables [] := by
  rcases exists_of_shape h with ⟨ts, fields, clauses, hskip, hselect, htables, hbound⟩
  have hsuffix := skipBraces_suffix hskip
  have hq := (holds_read source).suffix hsuffix
  rcases exists_of_selectList hselect with ⟨items, hitemsSuffix, hitems⟩
  rcases from_of_selectItems hitems with ⟨keyword, later, rfl, hfrom⟩
  have hfields := (selects_of_selectItems (hq.suffix hitemsSuffix) hitems).of_suffix hitemsSuffix
  refine ⟨keyword, later, hfrom, ?_, refers_of_tableList (hq.suffix hfields.suffix) htables⟩
  refine (hfields.of_suffix hsuffix).of_forall₂ (fun part f g hg hf => ?_) hbound
  rcases hg with ⟨t, -, rfl⟩
  exact ⟨f.table, hf⟩

end QueryTemplate
