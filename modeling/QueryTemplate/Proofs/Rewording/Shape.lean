import QueryTemplate.Proofs.Query.Grouping
import QueryTemplate.Proofs.Rewording.Tables

/-! # The shape of a query with a changed token

A query that has a shape keeps it, but for the places behind the changed token and the name of a
field that the token names, unless a keyword in its place ends a select list.
-/

namespace QueryTemplate

theorem QueryField.forall_iff_of_bound {P : QueryField → Prop}
    (hP : ∀ f table, P { f with table := table } ↔ P f) {tables : List QueryTable}
    {fields bound : List QueryField} (h : List.Forall₂ (IsBoundAs tables) fields bound) :
    (∀ b ∈ bound, P b) ↔ ∀ f ∈ fields, P f := by
  induction h with
  | nil => simp
  | cons hf _ ih =>
    obtain ⟨t, -, rfl⟩ := hf
    simp only [List.forall_mem_cons, hP, ih]

theorem QueryField.exists_iff_of_bound {P : QueryField → Prop}
    (hP : ∀ f table, P { f with table := table } ↔ P f) {tables : List QueryTable}
    {fields bound : List QueryField} (h : List.Forall₂ (IsBoundAs tables) fields bound) :
    (∃ b ∈ bound, P b) ↔ ∃ f ∈ fields, P f := by
  have hnone := forall_iff_of_bound (P := fun f => ¬P f) (fun f table => not_congr (hP f table)) h
  simpa using not_congr hnone

namespace Rewording

variable {R : Rewording}

/-- The fields and the tables are the same, but for their places and the name of a field that the
token names. -/
structure Rewrites (R : Rewording) (s s' : QueryShape) : Prop where
  fields : List.Forall₂ R.Renames s.fields s'.fields
  tables : Aligned R.places s.tables s'.tables

/-- The select list of one of the two queries ends at a keyword `FROM` in the place of the token.
The token stands in none of the fields, and in front of the tables. -/
structure EndsList (R : Rewording) (s : QueryShape) : Prop where
  selected : (∃ fields clauses, R.kind = .keyword .FROM ∧
      Query.selected (R.write R.word) = .ok (fields, R.old :: clauses)) ∨
    ∃ fields clauses, R.kind' = .keyword .FROM ∧
      Query.selected (R.write R.word') = .ok (fields, R.new :: clauses)
  fields : ∀ f ∈ s.fields, ¬R.Holds f.span
  tables : ∀ t ∈ s.tables, R.stop R.word ≤ t.span.start

/-- The token is neither a quantifier nor in a literal, a placeholder, the name of a function, or
the name of a table that it changes, and no call takes it for the first word of its column. A
keyword stands behind a dot or at the beginning of a field. -/
structure Suits (R : Rewording) (s : QueryShape) : Prop where
  fields : ∀ f ∈ s.fields, R.Admits f
  tables : ∀ t ∈ s.tables, ¬R.Disturbs t.span t.isVerbatim
  quantifier : R.KeepsName → Query.isQuantifier R.old → ∃ f ∈ s.fields, f.span.start ≤ R.start
  plain : R.IsPlain ∨ ∃ f ∈ s.fields, f.span.start = R.start

theorem aligned_of_undisturbed {tables tables' : List QueryTable}
    (h : List.Forall₂ R.Declares tables tables')
    (hclear : ∀ t ∈ tables, ¬R.Disturbs t.span t.isVerbatim) :
    Aligned R.places tables tables' := by
  induction h with
  | nil => exact .nil
  | cons ht _ ih =>
    obtain ⟨hname, halias⟩ := ht.names.resolve_right (hclear _ (List.mem_cons_self ..))
    exact .cons ⟨hname, halias, ht.isVerbatim, ht.span.aligned⟩
      (ih fun t ht => hclear t (List.mem_cons_of_mem _ ht))

/-- Fields are bound to the same tables whatever their names. -/
theorem exists_bindTo {first first' : QueryTable} {tables tables' : List QueryTable}
    {fields fields' bound : List QueryField} (hfirst : Aligned R.places first first')
    (htables : Aligned R.places tables tables') (hfields : List.Forall₂ R.Renames fields fields')
    (h : QueryField.bindTo first tables fields = (bound, none)) :
    ∃ bound', QueryField.bindTo first' tables' fields' = (bound', none) ∧
      List.Forall₂ R.Renames bound bound' := by
  induction hfields generalizing bound with
  | nil =>
    cases h
    exact ⟨[], rfl, .nil⟩
  | @cons f f' fields fields' hf _ ih =>
    rw [QueryField.bindTo] at h
    split at h
    · cases h
    · rename_i table htable
      rcases hlater : QueryField.bindTo first tables fields with ⟨later, fault⟩
      rw [hlater] at h
      cases h
      obtain ⟨later', hlater', hrenames⟩ := ih hlater
      rw [hf.table, QueryTable.resolve?_eq hfirst htables] at htable
      refine ⟨{ f' with table := some table } :: later', ?_, .cons ?_ hrenames⟩
      · rw [QueryField.bindTo, htable, hlater']
      · exact { hf with table := rfl }

theorem admits_iff (f : QueryField) (table : Option Text) :
    R.Admits { f with table := table } ↔ R.Admits f :=
  ⟨fun h => ⟨h.isVerbatim, h.start, h.reference⟩, fun h => ⟨h.isVerbatim, h.start, h.reference⟩⟩

/-- Tables that are declared behind the token stand behind it. -/
theorem stop_le_of_tableList (hR : R.IsRead) {q : Query} (hq : q.Holds R.tokens)
    {ts : List Token} {tables : List QueryTable} (hts : ts <:+ R.old :: R.tail R.word)
    (h : q.tableList ts = .ok tables) : ∀ t ∈ tables, R.stop R.word ≤ t.span.start := by
  have hsuffix : ts <:+ R.tokens := hts.trans (List.suffix_append ..)
  intro t ht
  obtain ⟨before, part, more, rfl, -, hrefers⟩ :=
    (Query.refers_of_tableList (hq.suffix hsuffix) h).exists_of_mem ht
  obtain ⟨-, hspan, -, -⟩ := hrefers
  rename_i keyword first inner
  have hpart : keyword :: first :: (inner ++ more) <:+ R.old :: R.tail R.word :=
    (List.suffix_append before _).trans hts
  have hfirst : first ∈ R.tail R.word := by
    rcases List.suffix_cons_iff.1 hpart with heq | htail
    · exact (List.cons.inj heq).2 ▸ List.mem_cons_self ..
    · exact htail.subset (by simp)
  rw [hspan]
  exact hR.stop_le_start hfirst

theorem Placed.aligned_beyond (hR : R.IsRead) {s s' : Span} (h : R.Placed s s')
    (hle : R.stop R.word ≤ s.start) : Aligned R.beyond s s' := by
  have hlt := hR.start_lt_stop
  cases h with
  | front hstart hstop => omega
  | behind h => exact h
  | around hholds _ => exact absurd hholds.1 (by omega)

/-- Tokens behind the changed one are the same at other places. -/
theorem Rest.aligned (hR : R.IsRead) {ts ts' : List Token} (h : R.Rest ts ts')
    (hts : ts <:+ R.tail R.word) : Aligned R.beyond ts ts' := by
  have hpairs : List.Forall₂ (fun t t' => t ∈ R.tail R.word ∧ R.Match t t') ts ts' :=
    (List.forall₂_and_left _ _).2 ⟨fun _ ht => hts.subset ht, h.pairs⟩
  refine hpairs.imp ?_
  rintro t t' ⟨htail, ht⟩
  cases ht with
  | word => exact absurd htail hR.notMem_tail
  | alike _ hkind hlexeme hspan =>
    exact ⟨hkind, hlexeme, hspan.aligned_beyond hR (hR.stop_le_start htail)⟩

/-- The same tables are declared, also if the changed token does not stand in front of them. -/
theorem exists_tableList (hR : R.IsFit) {q q' : Query} (hq : R.Queries q q')
    {ts ts' : List Token} (h : R.Continues ts ts') (hplain : R.IsPlain ∨ ts <:+ R.tail R.word)
    (hscanned : ∀ us vs, Relation.ReflTransGen q.Scans ts us →
      q.skipAllBraces us = .ok (R.old :: vs) → R.IsScanned)
    {tables : List QueryTable} (htables : q.tableList ts = .ok tables) :
    ∃ tables', q'.tableList ts' = .ok tables' ∧ List.Forall₂ R.Declares tables tables' := by
  rcases hplain with hplain | hbehind
  · exact keeps_tableList hR hplain hq h hscanned tables htables
  · have haligned := Query.aligned_tableList hq.beyond (h.toRest.aligned hR.read hbehind)
    rw [htables] at haligned
    generalize q'.tableList ts' = other at haligned
    cases haligned with
    | @ok _ tables' htables' =>
      refine ⟨tables', rfl, htables'.imp fun t t' ht => ?_⟩
      exact ⟨.inl ⟨ht.name, ht.aliasName⟩, .behind ht.span, ht.isVerbatim⟩

/-- The clauses behind a field that starts at the token stand behind the token. -/
theorem suffix_tail_of_selectList (hR : R.IsRead) {q : Query} (hq : q.Holds R.tokens)
    {ts clauses : List Token} {fields : List QueryField} (hts : ts <:+ R.tokens)
    (h : q.selectList ts = .ok (fields, clauses)) {f : QueryField} (hf : f ∈ fields)
    (hstart : f.span.start = R.start) : clauses <:+ R.tail R.word := by
  obtain ⟨items, hitems, hselects⟩ := Query.exists_of_selectList h
  have hsuffix : items <:+ R.tokens := hitems.trans hts
  have hstretches := Query.selects_of_selectItems (hq.suffix hsuffix) hselects
  have hnot : R.old ∉ clauses := (hR.mem_of_selects hsuffix hstretches hf hstart).2
  have hbehind : R.old :: R.tail R.word <:+ R.tokens := List.suffix_append ..
  rcases List.suffix_or_suffix_of_suffix (hstretches.suffix.trans hsuffix) hbehind with h | h
  · rcases List.suffix_cons_iff.1 h with rfl | htail
    · exact absurd (List.mem_cons_self ..) hnot
    · exact htail
  · exact absurd (h.subset (List.mem_cons_self ..)) hnot

/-- If the select list is the same, then the shape is. -/
theorem exists_shape_of_selected (hR : R.IsFit) {fields fields' bound : List QueryField}
    {clauses clauses' : List Token} {first : QueryTable} {later : List QueryTable}
    (hselected : Query.selected (R.write R.word) = .ok (fields, clauses))
    (hselected' : Query.selected (R.write R.word') = .ok (fields', clauses'))
    (hrenames : List.Forall₂ R.Renames fields fields') (hclauses : R.Resumes clauses clauses')
    (hbehind : R.IsPlain ∨ clauses <:+ R.tail R.word)
    (htables : (Query.ofText (R.write R.word)).tableList clauses = .ok (first :: later))
    (hclear : ∀ t ∈ first :: later, ¬R.Disturbs t.span t.isVerbatim)
    (hbind : QueryField.bindTo first (first :: later) fields = (bound, none)) :
    ∃ s', Query.shape .sql (.ofText (R.write R.word')) = .ok s' ∧
      R.Rewrites ⟨bound, first :: later⟩ s' := by
  obtain ⟨tables', htables', hdeclares⟩ :=
    exists_tableList hR hR.read.queries hclauses.toContinues hbehind
      (fun us vs hus hold => ⟨fields, clauses, us, vs, hselected, hus, hold⟩) htables
  have haligned := aligned_of_undisturbed hdeclares hclear
  cases haligned with
  | @cons _ first' _ later' hfirst hlater =>
    obtain ⟨bound', hbind', hrenames'⟩ :=
      exists_bindTo hfirst (.cons hfirst hlater) hrenames hbind
    refine ⟨⟨bound', first' :: later'⟩, ?_, hrenames', .cons hfirst hlater⟩
    rw [Query.selected] at hselected'
    rw [Regrouping.shape_ofText, hselected']
    simp only [bind, Except.bind, htables', QueryField.bindAll, hbind']

/-- **A query keeps its shape when a token is changed.** -/
theorem exists_shape (hR : R.IsFit) {s : QueryShape}
    (h : Query.shape .sql (.ofText (R.write R.word)) = .ok s) (hs : R.Suits s) :
    (∃ s', Query.shape .sql (.ofText (R.write R.word')) = .ok s' ∧ R.Rewrites s s') ∨
      R.EndsList s := by
  have hq := hR.read.queries
  have hold : (Lexicon.sql.read (.ofText (R.write R.word))).tokens = R.tokens := by
    rw [hR.read.old]
    rfl
  have hnew : (Lexicon.sql.read (.ofText (R.write R.word'))).tokens =
      R.lead ++ R.new :: R.tail R.word' := by rw [hR.read.new]
  rw [Regrouping.shape_ofText] at h
  obtain ⟨⟨fields, clauses⟩, hselected, h⟩ := Checked.bind_eq_ok h
  obtain ⟨ts, hskip, hlist⟩ := Checked.bind_eq_ok hselected
  rw [hold] at hskip
  obtain ⟨tables, htables, h⟩ := Checked.bind_eq_ok h
  obtain ⟨first, later, rfl⟩ := List.exists_cons_of_ne_nil (Query.ne_nil_of_tableList htables)
  rcases hbind : QueryField.bindTo first (first :: later) fields with ⟨bound, _ | fault⟩
  · simp only [QueryField.bindAll, hbind] at h
    cases h
    have hbound := QueryField.bound_of_bindTo (List.mem_cons_self ..) hbind
    have hadmits : ∀ f ∈ fields, R.Admits f :=
      (QueryField.forall_iff_of_bound admits_iff hbound).1 hs.fields
    have hquantifier (hname : R.KeepsName) (hquantifier : Query.isQuantifier R.old) :
        ∃ f ∈ fields, f.span.start ≤ R.start :=
      (QueryField.exists_iff_of_bound (fun _ _ => Iff.rfl) hbound).1
        (hs.quantifier hname hquantifier)
    have hplain : R.IsPlain ∨ ∃ f ∈ fields, f.span.start = R.start :=
      hs.plain.imp id (QueryField.exists_iff_of_bound (fun _ _ => Iff.rfl) hbound).1
    obtain ⟨ts', hskip', hts⟩ := keeps_skipBraces hR hq (fun _ _ => id) (fun _ => true) false
      hR.read.rest_tokens (fun _ => hR.resumes_tokens) ts hskip
    have hselected' : Query.selected (R.write R.word') =
        (Query.ofText (R.write R.word')).selectList ts' := by
      rw [Query.selected, hnew]
      exact congrArg (· >>= _) hskip'
    have hclear (hholds : ∀ f ∈ fields, ¬R.Holds f.span) : ∀ f ∈ bound, ¬R.Holds f.span :=
      (QueryField.forall_iff_of_bound (fun _ _ => Iff.rfl) hbound).2 hholds
    cases lists_selectList hR hq hts hlist hadmits hquantifier hplain with
    | same hlist' hrenames hclauses =>
      have hbehind : R.IsPlain ∨ clauses <:+ R.tail R.word := by
        refine hplain.imp id ?_
        rintro ⟨f, hf, hstart⟩
        exact suffix_tail_of_selectList hR.read hq.holds hts.suffix hlist hf hstart
      exact .inl (exists_shape_of_selected hR hselected (hselected'.trans hlist') hrenames hclauses
        hbehind htables hs.tables hbind)
    | @stops us hkeyword _ hclauses hholds =>
      subst hclauses
      have hbehind : us = R.tail R.word := by
        rw [hold] at hselected
        obtain ⟨_, _, -, hsuffix⟩ := Query.exists_of_selected hq.holds hselected
        exact hR.read.eq_tail hsuffix
      refine .inr ⟨.inl ⟨fields, us, eq_of_beq hkeyword, hselected⟩, hclear hholds, ?_⟩
      exact stop_le_of_tableList hR.read hq.holds (hbehind ▸ List.suffix_rfl) htables
    | @ends fields' us hkeyword _ hlist' _ hholds hclauses =>
      refine .inr ⟨.inr ⟨fields', us, eq_of_beq hkeyword, hselected'.trans hlist'⟩,
        hclear hholds, ?_⟩
      exact stop_le_of_tableList hR.read hq.holds (hclauses.trans (List.suffix_cons ..)) htables
  · simp only [QueryField.bindAll, hbind] at h
    cases h

end Rewording

end QueryTemplate
