import QueryTemplate.Proofs.Query.Extent

/-! # Directives in queries

Directives are passed over between the items of a query and inside them, so their texts are no names
of fields and tables. The exception are places where a name is read at once: a directive directly
behind a dot is taken for a column or a table, and one directly behind `FROM`, `JOIN` or a comma
between table references for a table.
-/

namespace QueryTemplate

/-- A directive with the text `text` stands in the source where `Behind` holds of the tokens in
front of it. -/
def Text.HasDirective (source : Text) (Behind : List Token → Prop) (text : Text) : Prop :=
  ∃ lead opening inner closing tail,
    (Lexicon.sql.read (.ofText source)).tokens = lead ++ opening :: (inner ++ closing :: tail) ∧
    Behind lead ∧ opening.isSymbol .openDirective ∧ closing.isSymbol .closeBrace ∧
    (∀ t ∈ inner, ¬t.isSymbol .closeBrace) ∧
    source.slice (opening.reach (inner ++ [closing])) = text

def EndsWithDot (lead : List Token) : Prop := ∃ dot ∈ lead.getLast?, dot.isSymbol .dot

/-- A part of a table reference can stand behind the tokens: they end with a dot, `FROM`, `JOIN` or
a comma behind `FROM`. -/
def OpensTable (lead : List Token) : Prop :=
  EndsWithDot lead ∨ (∃ t ∈ lead, t.isKeyword .FROM) ∧ ∃ before ∈ lead.getLast?,
    before.IntroducesTable

/-- The text of a directive names no field and no table, except where names are read at once. -/
structure QueryShape.ConfinesDirectives (source : Text) (shape : QueryShape) : Prop where
  field : ∀ f ∈ shape.fields, f.isVerbatim → Symbol.openDirective.text <+: f.name →
    source.HasDirective EndsWithDot f.name
  table : ∀ t ∈ shape.tables, t.isVerbatim → Symbol.openDirective.text <+: t.name →
    source.HasDirective OpensTable t.name
  clean : (∀ text, ¬source.HasDirective OpensTable text) →
    (∀ f ∈ shape.fields, f.isVerbatim → ¬Symbol.openDirective.text <+: f.name) ∧
    (∀ t ∈ shape.tables, t.isVerbatim → ¬Symbol.openDirective.text <+: t.name) ∧
    ∀ f ∈ shape.fields, ∀ t ∈ shape.tables, t.isVerbatim →
      Symbol.openDirective.text <+: t.name → f.table ≠ some t.name

theorem Text.HasDirective.mono {source text : Text} {Behind Behind' : List Token → Prop}
    (h : source.HasDirective Behind text) (hmono : ∀ lead, Behind lead → Behind' lead) :
    source.HasDirective Behind' text := by
  rcases h with ⟨lead, opening, inner, closing, tail, htokens, hlead, hrest⟩
  exact ⟨lead, opening, inner, closing, tail, htokens, hmono lead hlead, hrest⟩

namespace Query

variable {q : Query} {part inner ts : List Token} {first : Token} {name : Text}

/-- The text of a stretch of tokens begins with the text of the first one. -/
theorem Holds.lexeme_isPrefix_slice (hq : q.Holds (first :: inner)) :
    first.lexeme <+: q.source.slice (first.reach inner) := by
  have hfirst : first ∈ first :: inner := List.mem_cons_self ..
  have hlast : inner.getLastD first ∈ first :: inner := List.getLastD_mem_cons
  have happend := Fragment.slice_append_slice (hq.isCut_start hfirst) (hq.isCut_stop hfirst)
    (hq.isCut_stop hlast) (Nat.le_of_lt (hq.start_lt_stop hfirst)) (hq.within_reach hfirst).2
  rw [← hq.slice_span hfirst]
  exact ⟨_, happend⟩

/-- A verbatim name that begins like a directive is read from one. -/
theorem Names.exists_directive (h : q.Names part true name) (hq : q.Holds part)
    (hname : Symbol.openDirective.text <+: name) : ∃ opening inner closing,
      part = opening :: (inner ++ [closing]) ∧ opening.isSymbol .openDirective ∧
      closing.isSymbol .closeBrace ∧ (∀ t ∈ inner, ¬t.isSymbol .closeBrace) ∧
      q.source.slice (opening.reach (inner ++ [closing])) = name := by
  cases h with
  | literal hword =>
    exact absurd hname.isInfix (hq.word _ (List.mem_cons_self ..) hword .openDirective)
  | @braces opening closing inner s hs hopens hinner hclosing =>
    have hlexeme := hq.lexeme_isPrefix_slice
    rw [hq.symbol opening (List.mem_cons_self ..) s hs] at hlexeme
    have hlength : s.text.length = Symbol.openDirective.text.length := by
      cases s <;> first | rfl | cases hopens
    obtain rfl : s = .openDirective := Symbol.eq_of_text_isPrefix
      (List.prefix_of_prefix_length_le hlexeme hname (Nat.le_of_eq hlength))
    exact ⟨opening, inner, closing, rfl, by simp [Token.isSymbol, hs], hclosing, hinner, rfl⟩

/-- The tokens of a verbatim name that begins like a directive. -/
theorem NamesFrom.cases_directive (h : q.NamesFrom ts true name) (hq : q.Holds ts)
    (hname : Symbol.openDirective.text <+: name) : ∃ lead opening inner closing tail,
      ts = lead ++ opening :: (inner ++ closing :: tail) ∧ (lead = [] ∨ EndsWithDot lead) ∧
      opening.isSymbol .openDirective ∧ closing.isSymbol .closeBrace ∧
      (∀ t ∈ inner, ¬t.isSymbol .closeBrace) ∧
      q.source.slice (opening.reach (inner ++ [closing])) = name := by
  rcases h with ⟨part, tail, rfl, hnames⟩ | ⟨lead, part, tail, rfl, hnames, hdot⟩
  · have hpart := hq.sublist (List.sublist_append_left part tail)
    rcases hnames.exists_directive hpart hname with ⟨opening, inner, closing, rfl, hrest⟩
    exact ⟨[], opening, inner, closing, tail, by simp, .inl rfl, hrest⟩
  · have hpart := (hq.suffix (List.suffix_append ..)).sublist (List.sublist_append_left part tail)
    rcases hnames.exists_directive hpart hname with ⟨opening, inner, closing, rfl, hrest⟩
    exact ⟨lead, opening, inner, closing, tail, by simp, .inr (hdot rfl), hrest⟩

theorem endsWithDot_append {lead : List Token} (h : EndsWithDot lead) (before : List Token) :
    EndsWithDot (before ++ lead) := by
  rcases h with ⟨dot, hlast, hdot⟩
  exact ⟨dot, by simp_all [List.getLast?_append], hdot⟩

/-- A field that is named like a directive is one behind a dot. -/
theorem hasDirective_of_field {source : Text} {shape : QueryShape}
    (h : Query.shape .sql (.ofText source) = .ok shape) {f : QueryField} (hf : f ∈ shape.fields)
    (hverbatim : f.isVerbatim) (hname : Symbol.openDirective.text <+: f.name) :
    source.HasDirective EndsWithDot f.name := by
  have hq := holds_read (.ofText source)
  rcases exists_stretches_of_shape h with ⟨keyword, clauses, -, hfields, -⟩
  rcases hfields.exists_of_mem hf with ⟨lead, part, more, hts, -, _, hselects⟩
  rcases hselects with ⟨hfirst, hfield, -⟩
  rename_i first inner
  have haggregate : f.isAggregate = false := by
    by_contra hnot
    have hnone : f.isVerbatim = false := (hfield.aggregate (by simpa using hnot)).2
    simp [hnone] at hverbatim
  have hnames : Query.NamesFrom _ (first :: inner) f.isVerbatim f.name := hfield.name haggregate
  rw [hverbatim] at hnames
  have hpart : Query.Holds _ (first :: inner) := Holds.middle (hts ▸ hq)
  rcases hnames.cases_directive hpart hname with
    ⟨before, opening, within, closing, tail, hsplit, hbefore, hopening, hrest⟩
  rcases hbefore with rfl | hdot
  · cases hsplit
    exact absurd hopening hfirst
  · have htokens : (Lexicon.sql.read (.ofText source)).tokens =
        (lead ++ before) ++ opening :: (within ++ closing :: (tail ++ more)) := by
      rw [hts, hsplit]
      simp
    exact ⟨_, opening, within, closing, _, htokens, endsWithDot_append hdot lead, hopening, hrest⟩

/-- A table that is named like a directive is one where a part of a table reference can stand. -/
theorem hasDirective_of_table {source : Text} {shape : QueryShape}
    (h : Query.shape .sql (.ofText source) = .ok shape) {table : QueryTable}
    (htable : table ∈ shape.tables) (hverbatim : table.isVerbatim)
    (hname : Symbol.openDirective.text <+: table.name) :
    source.HasDirective OpensTable table.name := by
  have hq := holds_read (.ofText source)
  rcases exists_stretches_of_shape h with ⟨keyword, clauses, hfrom, hfields, htables⟩
  rcases hfields.suffix with ⟨select, hselect⟩
  rcases htables.exists_of_mem htable with ⟨lead, part, more, hts, -, hrefers⟩
  rcases hrefers with ⟨hintroduces, -, hnames, -⟩
  rename_i before first inner
  rw [hverbatim] at hnames
  have hpart : Query.Holds _ (before :: first :: inner) :=
    Holds.middle (hts ▸ hq.suffix hfields.suffix)
  rcases hnames.cases_directive (hpart.suffix (List.suffix_cons ..)) hname with
    ⟨front, opening, within, closing, tail, hsplit, hfront, hopening, hrest⟩
  have htokens : (Lexicon.sql.read (.ofText source)).tokens =
      (select ++ (lead ++ [before]) ++ front) ++
        opening :: (within ++ closing :: (tail ++ more)) := by
    rw [← hselect, hts, List.cons_append, hsplit]
    simp
  refine ⟨_, opening, within, closing, tail ++ more, htokens, ?_, hopening, hrest⟩
  rcases hfront with rfl | hdot
  · refine .inr ⟨⟨keyword, ?_, hfrom⟩, before, by simp, hintroduces⟩
    cases lead with
    | nil =>
      cases hts
      simp
    | cons t lead =>
      cases hts
      simp
  · exact .inl (endsWithDot_append hdot _)

/-- **Directives give names only where a name is read at once.** -/
theorem confinesDirectives_of_shape {source : Text} {shape : QueryShape}
    (h : Query.shape .sql (.ofText source) = .ok shape) : shape.ConfinesDirectives source := by
  refine ⟨fun f => hasDirective_of_field h, fun t => hasDirective_of_table h, fun hclean =>
    ⟨fun f hf hverbatim hname => ?_, fun t ht hverbatim hname => ?_,
      fun f _ t ht hverbatim hname => ?_⟩⟩
  · exact hclean _ ((hasDirective_of_field h hf hverbatim hname).mono fun _ => .inl)
  · exact hclean _ (hasDirective_of_table h ht hverbatim hname)
  · exact absurd (hasDirective_of_table h ht hverbatim hname) (hclean _)

/-- Directives in front of a field and at the end of the query are passed over; one behind a dot is
taken for a column and one behind `JOIN` for a table. -/
theorem confinesDirectives_of_shape_join :
    let source : Text :=
      "SELECT %\x7bif a\x7d x, t.%\x7bb\x7d FROM t JOIN %\x7bc\x7d u %\x7bendif\x7d".toList
    let shape : QueryShape :=
      ⟨[⟨some ['t'], ['x'], none, false, false, ⟨15, 16⟩⟩,
          ⟨some ['t'], "%\x7bb\x7d".toList, none, false, true, ⟨18, 24⟩⟩],
        [⟨['t'], none, false, ⟨30, 31⟩⟩, ⟨"%\x7bc\x7d".toList, some ['u'], true, ⟨37, 41⟩⟩]⟩
    Query.shape .sql (.ofText source) = .ok shape ∧ shape.ConfinesDirectives source := by
  intro source shape
  have h : Query.shape .sql (.ofText source) = .ok shape := by decide +kernel
  exact ⟨h, confinesDirectives_of_shape h⟩

end Query

end QueryTemplate
