import QueryTemplate.Proofs.Query.Extent

/-! # Shapes are well formed

Whatever a query looks like, its shape is well formed: every field belongs to a table, no alias
repeats a name, and the places of the fields and then those of the tables follow each other in the
text, each with the name in it.
-/

namespace QueryTemplate

/-! ## Places of items -/

/-- The place is that of an end part of the tokens. -/
def Span.EndsReach (part : List Token) (s : Span) : Prop :=
  ∃ first inner, first :: inner <:+ part ∧ s = first.reach inner

namespace Query

variable {q : Query} {ts part inner more rest : List Token} {first t : Token} {isVerbatim : Bool}
  {name : Text} {s : Span}

/-- What a stretch of tokens takes ends before the tokens behind it. -/
theorem Holds.reach_stop_le (hq : q.Holds (first :: (inner ++ more))) (ht : t ∈ more) :
    (first.reach inner).stop ≤ t.span.start := by
  have hordered : ((first :: inner) ++ more).Pairwise fun t u => t.span.stop ≤ u.span.start :=
    hq.ordered
  exact (List.pairwise_append.1 hordered).2.2 _ List.getLastD_mem_cons t ht

theorem Holds.stop_le (hq : q.Holds ts) (ht : t ∈ ts) : t.span.stop ≤ q.source.stop := by
  rcases hq.stands t ht with ⟨before, after, htext, -, hspan⟩
  rw [hspan, Fragment.stop, htext]
  simp only [Text.size_append]
  omega

theorem Holds.endsReach_nonempty (hq : q.Holds part) (hs : s.EndsReach part) :
    s.start < s.stop := by
  rcases hs with ⟨first, inner, hsuffix, rfl⟩
  exact (hq.suffix hsuffix).reach_start_lt_stop

theorem Holds.endsReach_stop_le_start (hq : q.Holds (part ++ more)) (hs : s.EndsReach part)
    (ht : t ∈ more) : s.stop ≤ t.span.start := by
  rcases hs with ⟨first, inner, ⟨before, rfl⟩, rfl⟩
  have hrest : q.Holds (first :: (inner ++ more)) := hq.suffix ⟨before, by simp⟩
  exact hrest.reach_stop_le ht

theorem Holds.endsReach_stop_le (hq : q.Holds part) (hs : s.EndsReach part) :
    s.stop ≤ q.source.stop := by
  rcases hs with ⟨first, inner, hsuffix, rfl⟩
  exact (hq.suffix hsuffix).stop_le List.getLastD_mem_cons

end Query

theorem Span.EndsReach.exists_start {part : List Token} {s : Span} (h : s.EndsReach part) :
    ∃ t ∈ part, s.start = t.span.start := by
  rcases h with ⟨first, inner, hsuffix, rfl⟩
  exact ⟨first, hsuffix.subset (List.mem_cons_self ..), rfl⟩

namespace Stretches

variable {α : Type} {P : List Token → α → Prop} {q : Query} {ts rest : List Token} {xs : List α}
  {place : α → Span} (h : Stretches P ts xs rest) (hq : q.Holds ts)
  (hP : ∀ part x, P part x → (place x).EndsReach part)
include h hq hP

theorem nonempty : ∀ x ∈ xs, (place x).start < (place x).stop := by
  intro x hx
  rcases h.exists_of_mem hx with ⟨lead, part, more, rfl, -, hpart⟩
  exact hq.middle.endsReach_nonempty (hP part x hpart)

theorem inside : ∀ x ∈ xs, (place x).stop ≤ q.source.stop := by
  intro x hx
  rcases h.exists_of_mem hx with ⟨lead, part, more, rfl, -, hpart⟩
  exact hq.middle.endsReach_stop_le (hP part x hpart)

theorem stop_le_start : ∀ x ∈ xs, ∀ t ∈ rest, (place x).stop ≤ t.span.start := by
  intro x hx t ht
  rcases h.exists_of_mem hx with ⟨lead, part, more, rfl, hrest, hpart⟩
  exact (hq.suffix (List.suffix_append ..)).endsReach_stop_le_start (hP part x hpart)
    (hrest.subset ht)

theorem ordered : xs.Pairwise fun x y => (place x).stop ≤ (place y).start := by
  refine h.pairwise fun lead part more x y hsuffix hx hy => ?_
  rcases hy with ⟨lead', part', more', rfl, hy⟩
  rcases (hP part' y hy).exists_start with ⟨t, ht, hstart⟩
  have hmore : t ∈ lead' ++ (part' ++ more') := by simp [ht]
  have hrest := (hq.suffix hsuffix).suffix (List.suffix_append ..)
  rw [hstart]
  exact hrest.endsReach_stop_le_start (hP part x hx) hmore

end Stretches

/-! ## Names of items -/

theorem Token.label_isInfix (t : Token) : t.label <:+: t.lexeme := by
  rw [label, name?]
  cases t.kind with
  | keyword _ => exact List.infix_rfl
  | symbol _ => exact List.infix_rfl
  | word => exact List.infix_rfl
  | quoted quote =>
    cases hlexeme : t.lexeme with
    | nil => exact List.infix_rfl
    | cons c rest =>
      by_cases hquote : c = quote ∧ rest.getLast? = some quote
      · have hlabel : rest.dropLast <:+: c :: rest :=
          (List.dropLast_prefix rest).isInfix.trans (List.suffix_cons c rest).isInfix
        simpa [unquote?, hquote] using hlabel
      · simp [unquote?, hquote]

namespace Query

variable {q : Query} {part inner : List Token} {first t : Token} {isVerbatim : Bool}
  {text : Text} {f : QueryField} {table : QueryTable}

/-- A name stands in the text of the tokens that it is read from. -/
theorem Names.isInfix (h : q.Names part isVerbatim text) (hq : q.Holds part) :
    ∃ t inner, part = t :: inner ∧ text <:+: q.source.slice (t.reach inner) := by
  have hlexeme {t : Token} (hq : q.Holds [t]) : q.source.slice (t.reach []) = t.lexeme :=
    hq.slice_span (List.mem_singleton.2 rfl)
  cases h with
  | label t => exact ⟨t, [], rfl, hlexeme hq ▸ t.label_isInfix⟩
  | literal _ => exact ⟨_, [], rfl, hlexeme hq ▸ List.infix_rfl⟩
  | braces _ _ _ _ => exact ⟨_, _, rfl, List.infix_rfl⟩

theorem NamesFrom.isInfix (h : q.NamesFrom (first :: inner) isVerbatim text)
    (hq : q.Holds (first :: inner)) : text <:+: q.source.slice (first.reach inner) := by
  have hpart (lead part tail : List Token) (hts : first :: inner = lead ++ (part ++ tail))
      (hnames : q.Names part isVerbatim text) : text <:+: q.source.slice (first.reach inner) := by
    have hq' : q.Holds (lead ++ (part ++ tail)) := hts ▸ hq
    rcases hnames.isInfix hq'.middle with ⟨t, later, rfl, hinfix⟩
    exact hinfix.trans (hq.slice_reach_isInfix hts)
  rcases h with ⟨part, tail, hts, hnames⟩ | ⟨lead, part, tail, hts, hnames, -⟩
  · exact hpart [] part tail hts hnames
  · exact hpart lead part tail hts hnames

theorem Shows.endsReach (h : q.Shows part f) : f.span.EndsReach part := by
  rcases h with ⟨_, -, hf, -⟩
  exact ⟨_, _, List.suffix_rfl, hf.span⟩

theorem Shows.name (h : q.Shows part f) (hq : q.Holds part) (hf : f.isAggregate = false) :
    f.name <:+: q.source.slice f.span := by
  rcases h with ⟨_, -, hfield, -⟩
  rw [show f.span = _ from hfield.span]
  exact (hfield.name hf).isInfix hq

theorem Refers.endsReach_tail (h : q.Refers part table) : table.span.EndsReach part.tail := by
  rcases h with ⟨-, hspan, -, -⟩
  exact ⟨_, _, List.suffix_rfl, hspan⟩

theorem Refers.endsReach (h : q.Refers part table) : table.span.EndsReach part := by
  rcases h.endsReach_tail with ⟨first, inner, hsuffix, hspan⟩
  exact ⟨first, inner, hsuffix.trans (List.tail_suffix part), hspan⟩

theorem Refers.name (h : q.Refers part table) (hq : q.Holds part) :
    table.name <:+: q.source.slice table.span := by
  rcases h with ⟨-, hspan, hname, -⟩
  rw [hspan]
  exact hname.isInfix (hq.suffix (List.suffix_cons ..))

/-- The first token of what the tables are read from belongs to none of them. -/
theorem start_lt_of_refers {keyword : Token} {clauses rest : List Token} {tables : List QueryTable}
    (h : Stretches q.Refers (keyword :: clauses) tables rest) (hq : q.Holds (keyword :: clauses)) :
    ∀ table ∈ tables, keyword.span.start < table.span.start := by
  intro table htable
  rcases h.exists_of_mem htable with ⟨lead, part, more, hts, -, hpart⟩
  rcases hpart.endsReach_tail.exists_start with ⟨t, ht, hstart⟩
  have hmem : t ∈ clauses := by
    cases part with
    | nil => cases ht
    | cons before part =>
      cases lead <;> simp_all
  have hkeyword := hq.start_lt_stop (List.mem_cons_self ..)
  have hle := hq.stop_le_start hmem
  omega

end Query

/-! ## Shapes -/

/-- Whether the fields and the tables of a shape fit together and stand in the source, the fields
first. -/
structure QueryShape.IsWellFormed (source : Text) (shape : QueryShape) : Prop where
  fields : shape.fields ≠ []
  tables : shape.tables ≠ []
  bound : ∀ f ∈ shape.fields, ∃ t ∈ shape.tables, f.table = some t.name
  fieldAlias : ∀ f ∈ shape.fields, f.aliasName ≠ some f.name
  tableAlias : ∀ t ∈ shape.tables, t.aliasName ≠ some t.name
  aggregate : ∀ f ∈ shape.fields, f.isAggregate →
    f.name = QueryField.countName ∧ f.isVerbatim = false
  fieldSpan : ∀ f ∈ shape.fields, f.span.start < f.span.stop
  fieldsOrdered : shape.fields.Pairwise fun f g => f.span.stop ≤ g.span.start
  fieldsFirst : ∀ f ∈ shape.fields, ∀ t ∈ shape.tables, f.span.stop < t.span.start
  tableSpan : ∀ t ∈ shape.tables, t.span.start < t.span.stop
  tablesOrdered : shape.tables.Pairwise fun t u => t.span.stop ≤ u.span.start
  inside : ∀ t ∈ shape.tables, t.span.stop ≤ Text.size source
  fieldName : ∀ f ∈ shape.fields, f.isAggregate = false → f.name <:+: source.slice f.span
  tableName : ∀ t ∈ shape.tables, t.name <:+: source.slice t.span

/-- **Every query that has a shape has a well-formed one.** -/
theorem Query.isWellFormed_of_shape {source : Text} {shape : QueryShape}
    (h : Query.shape .sql (.ofText source) = .ok shape) : shape.IsWellFormed source := by
  have hbound := isBound_of_shape h
  have hq := holds_read (.ofText source)
  rcases exists_stretches_of_shape h with ⟨keyword, clauses, -, hfields, htables⟩
  have hq' := hq.suffix hfields.suffix
  refine ⟨hbound.fields, hbound.tables, hbound.bound, fun f hf => ?_, fun t ht => ?_,
    fun f hf haggregate => ?_, hfields.nonempty hq fun _ _ => Shows.endsReach,
    hfields.ordered hq fun _ _ => Shows.endsReach, fun f hf t ht => ?_,
    htables.nonempty hq' fun _ _ => Refers.endsReach,
    htables.ordered hq' fun _ _ => Refers.endsReach,
    fun t ht => ?_, fun f hf haggregate => ?_, fun t ht => ?_⟩
  · rcases hfields.exists_of_mem hf with ⟨_, _, _, -, -, _, -, -, halias⟩
    exact halias
  · rcases htables.exists_of_mem ht with ⟨_, _, _, -, -, -, -, -, halias⟩
    exact halias
  · rcases hfields.exists_of_mem hf with ⟨_, _, _, -, -, _, -, hfield, -⟩
    exact hfield.aggregate haggregate
  · have hstop := hfields.stop_le_start hq (fun _ _ => Shows.endsReach) f hf keyword
      (List.mem_cons_self ..)
    exact Nat.lt_of_le_of_lt hstop (start_lt_of_refers htables hq' t ht)
  · have hinside := htables.inside hq' (fun _ _ => Refers.endsReach) t ht
    simpa [Fragment.stop, Fragment.ofText] using hinside
  · rcases hfields.exists_of_mem hf with ⟨lead, part, more, hts, -, hpart⟩
    exact hpart.name (Holds.middle (hts ▸ hq)) haggregate
  · rcases htables.exists_of_mem ht with ⟨lead, part, more, hts, -, hpart⟩
    exact hpart.name (Holds.middle (hts ▸ hq'))

/-- A count, a column inside a call and placeholders, behind a nested query in the table list. -/
theorem Query.isWellFormed_of_shape_call :
    let source : Text :=
      "SELECT COUNT(*) n, f(2, o.id), $\x7bx\x7d FROM (SELECT 1) s, #\x7bt\x7d o".toList
    let table : Text := "#\x7bt\x7d".toList
    let shape : QueryShape :=
      ⟨[⟨some table, "count".toList, some ['n'], true, false, ⟨7, 15⟩⟩,
          ⟨some table, "id".toList, none, false, false, ⟨19, 29⟩⟩,
          ⟨some table, "$\x7bx\x7d".toList, none, false, true, ⟨31, 35⟩⟩],
        [⟨table, some ['o'], true, ⟨55, 59⟩⟩]⟩
    Query.shape .sql (.ofText source) = .ok shape ∧ shape.IsWellFormed source := by
  intro source table shape
  have h : Query.shape .sql (.ofText source) = .ok shape := by decide +kernel
  exact ⟨h, isWellFormed_of_shape h⟩

end QueryTemplate
