import QueryTemplate.Proofs.Query.Extent
import QueryTemplate.Proofs.Query.Opacity

/-! # Names that spell a placeholder

A table that is a placeholder is named by the text of the placeholder. No bare word spells such a
name, but a quoted one can, and a quoted qualifier that does is taken for that table. So there the
name of the placeholder shows once more: under the other name the qualifier means another table, or
none at all.
-/

namespace QueryTemplate

namespace Renaming

/-- The same name, or that of the same verbatim table. -/
def References (tables tables' : List QueryTable) (x x' : Option Text) : Prop :=
  x = x' ∨ ∃ p ∈ tables.zip tables', p.1.isVerbatim ∧ x = some p.1.name ∧ x' = some p.2.name

/-- A qualifier is the name of a verbatim table with the placeholder in it. -/
def Spells (R : Renaming) (n : Text) (tables : List QueryTable) (x : Option Text) : Prop :=
  ∃ t ∈ tables, t.isVerbatim ∧ R.sort.text n <:+: t.name ∧ x = some t.name

/-- A field starts with the name of its table between quotes. -/
def StartsQuoted (R : Renaming) (n : Text) (f : QueryField) : Prop :=
  ∃ t ∈ (Lexicon.sql.read (.ofText (R.write n))).tokens, (∃ quote, t.kind = .quoted quote) ∧
    f.table = some t.label ∧ t.span.start = f.span.start ∧ t.span.stop < f.span.stop

/-- A quoted qualifier of the field is taken for a table that is named after the placeholder. -/
structure Clashes (R : Renaming) (n : Text) (tables : List QueryTable) (f : QueryField) :
    Prop where
  spells : R.Spells n tables f.table
  quoted : R.StartsQuoted n f

/-- The fields belong to the same table, unless the qualifier of one of them clashes with the
placeholder. -/
def BelongAlike (R : Renaming) (tables tables' : List QueryTable) (f f' : QueryField) : Prop :=
  References tables tables' f.table f'.table ∨ R.Clashes R.name tables f ∨
    R.Clashes R.name' tables' f'

/-- The shapes are the same, but for places and for the placeholder in the texts of verbatim fields
and tables and in the references to these tables, and but for calls around the placeholder and
qualifiers that clash with it. -/
structure Shapes (R : Renaming) (s s' : QueryShape) : Prop where
  fields : List.Forall₂ (R.Fields (R.BelongAlike s.tables s'.tables)) s.fields s'.fields
  tables : List.Forall₂ R.Tables s.tables s'.tables

/-- Both queries have shapes that are the same, or both are refused. Only a field whose qualifier
clashes with the placeholder lets one of them have a shape while the other one is refused. -/
inductive Agrees (R : Renaming) : Checked QueryShape → Checked QueryShape → Prop where
  | shapes {s s' : QueryShape} : R.Shapes s s' → Agrees R (.ok s) (.ok s')
  | faults {e e' : TemplateFault} : Agrees R (.error e) (.error e')
  | clash {s : QueryShape} {f : QueryField} {e' : TemplateFault} : f ∈ s.fields →
    R.Clashes R.name s.tables f → Agrees R (.ok s) (.error e')
  | clash' {e : TemplateFault} {s' : QueryShape} {f' : QueryField} : f' ∈ s'.fields →
    R.Clashes R.name' s'.tables f' → Agrees R (.error e) (.ok s')

variable {R : Renaming} {first first' : QueryTable} {tables tables' : List QueryTable}

theorem exists_of_forall₂_left {α β : Type} {r : α → β → Prop} {xs : List α} {ys : List β}
    (h : List.Forall₂ r xs ys) {x : α} (hx : x ∈ xs) : ∃ y ∈ ys, r x y := by
  induction h with
  | nil => cases hx
  | @cons _ y _ ys hy _ ih =>
    rcases List.mem_cons.1 hx with rfl | hx
    · exact ⟨y, List.mem_cons_self .., hy⟩
    · obtain ⟨z, hz, hxz⟩ := ih hx
      exact ⟨z, List.mem_cons_of_mem _ hz, hxz⟩

/-! ## Qualifiers -/

/-- A qualifier that has the placeholder in it is quoted and stands in front of its field. -/
theorem startsQuoted_of_isInfix {q : Query} {part : List Token} {f : QueryField} {n x : Text}
    (hn : n ≠ []) (hpart : part ⊆ (Lexicon.sql.read (.ofText (R.write n))).tokens)
    (hq : q.Holds part) (hf : q.Selects part f) (hx : f.table = some x)
    (hcontains : R.sort.text n <:+: x) : R.StartsQuoted n f := by
  obtain ⟨-, hfield, -⟩ := hf
  rcases hfield.qualifier x hx with ⟨hlabel, dot, later, rfl⟩ | ⟨t, ht, hword, hlabel⟩
  · rename_i first
    have hquoted : ∃ quote, first.kind = .quoted quote := by
      by_contra hnone
      refine not_isInfix_label (hpart (List.mem_cons_self ..)) ?_ R.sort hn (hlabel ▸ hcontains)
      exact fun quote hkind => hnone ⟨quote, hkind⟩
    have hdot : dot ∈ first :: dot :: later := by simp
    have hnext : first.span.stop ≤ dot.span.start := hq.stop_le_start (List.mem_cons_self ..)
    have hlast := (hq.within_reach hdot).2
    have hlt := hq.start_lt_stop hdot
    refine ⟨first, hpart (List.mem_cons_self ..), hquoted, hlabel ▸ hx, ?_, ?_⟩
    · rw [hfield.span, Token.reach]
    · rw [hfield.span]
      omega
  · refine absurd (hlabel ▸ hcontains) (not_isInfix_label (hpart ht) ?_ R.sort hn)
    simp [hword]

/-- The fields as they are read, each with its qualifier in front of it. -/
theorem startsQuoted_of_selectList {n : Text} (hn : n ≠ []) {ts clauses : List Token}
    {fields : List QueryField} (hts : ts <:+ (Lexicon.sql.read (.ofText (R.write n))).tokens)
    (h : Query.selectList ⟨.ofText (R.write n),
      (Lexicon.sql.read (.ofText (R.write n))).fault⟩ ts = .ok (fields, clauses)) :
    ∀ f ∈ fields, ∀ x, f.table = some x → R.sort.text n <:+: x → R.StartsQuoted n f := by
  intro f hf x hx hcontains
  have hq := (Query.holds_read (.ofText (R.write n))).suffix hts
  obtain ⟨items, hsuffix, hitems⟩ := Query.exists_of_selectList h
  obtain ⟨lead, part, more, hparts, -, hselects⟩ :=
    (Query.selects_of_selectItems (hq.suffix hsuffix) hitems).exists_of_mem hf
  have hpart : part.Sublist items :=
    hparts ▸ (List.sublist_append_left ..).trans (List.sublist_append_right ..)
  have htokens := (hpart.trans hsuffix.sublist).trans hts.sublist
  exact startsQuoted_of_isInfix hn htokens.subset (hq.sublist (hpart.trans hsuffix.sublist))
    hselects hx hcontains

/-- A name that only one of two related lists of tables has is spelled like the placeholder. -/
theorem spells_of_ne (h : List.Forall₂ R.Tables tables tables') {t : QueryTable} (ht : t ∈ tables)
    (hne : ∀ u ∈ tables', u.name ≠ t.name) : R.Spells R.name tables (some t.name) := by
  obtain ⟨t', ht', hrel⟩ := exists_of_forall₂_left h ht
  have hverbatim : t.isVerbatim := by
    by_contra hnot
    exact hne t' ht' (hrel.named (by simpa using hnot)).symm
  exact ⟨t, ht, hverbatim, (hrel.name.isInfix_of_ne (hne t' ht').symm).1, rfl⟩

theorem spells_of_ne' (h : List.Forall₂ R.Tables tables tables') {t : QueryTable}
    (ht : t ∈ tables') (hne : ∀ u ∈ tables, u.name ≠ t.name) :
    R.Spells R.name' tables' (some t.name) := by
  obtain ⟨t', ht', hrel⟩ := exists_of_forall₂_left h.flip ht
  have hverbatim : t.isVerbatim := by
    by_contra hnot
    have hnamed : t'.isVerbatim = false := hrel.isVerbatim ▸ by simpa using hnot
    exact hne t' ht' (hrel.named hnamed)
  exact ⟨t, ht, hverbatim, (hrel.name.isInfix_of_ne (hne t' ht')).2, rfl⟩

theorem Tables.references {t t' : QueryTable} (h : R.Tables t t')
    (hmem : (t, t') ∈ tables.zip tables') :
    References tables tables' (some t.name) (some t'.name) := by
  cases hverbatim : t.isVerbatim with
  | false => exact .inl (congrArg some (h.named hverbatim))
  | true => exact .inr ⟨(t, t'), hmem, hverbatim, rfl, rfl⟩

/-- The same alias is written behind both tables, so a qualifier that is the name of neither is the
alias of both or of none. -/
theorem Tables.aliasName_eq_some_iff {t t' : QueryTable} (h : R.Tables t t') {x : Text}
    (hx : t.name ≠ x) (hx' : t'.name ≠ x) : t.aliasName = some x ↔ t'.aliasName = some x := by
  obtain ⟨written, hname, hname'⟩ := h.aliasName
  rw [hname, hname', Option.filter_eq_some_iff, Option.filter_eq_some_iff]
  simp [hx.symm, hx'.symm]

/-- A qualifier that names no table is the alias of the same table, or of none. -/
theorem rel_find?_aliasName (h : List.Forall₂ R.Tables tables tables') {x : Text}
    (hx : ∀ t ∈ tables, t.name ≠ x) (hx' : ∀ t ∈ tables', t.name ≠ x) :
    Option.Rel (fun y y' => References tables tables' (some y) (some y'))
      ((tables.reverse.find? (·.aliasName == some x)).map (·.name))
      ((tables'.reverse.find? (·.aliasName == some x)).map (·.name)) := by
  have hpairs : List.Forall₂ (fun t t' => (t.aliasName == some x) = (t'.aliasName == some x) ∧
      References tables tables' (some t.name) (some t'.name)) tables tables' := by
    refine List.forall₂_iff_zip.2 ⟨h.length_eq, fun {t t'} hmem => ?_⟩
    have ht := List.forall₂_zip h hmem
    obtain ⟨hleft, hright⟩ := List.of_mem_zip hmem
    refine ⟨?_, ht.references hmem⟩
    rw [Bool.eq_iff_iff, beq_iff_eq, beq_iff_eq]
    exact ht.aliasName_eq_some_iff (hx t hleft) (hx' t' hright)
  have hreverse := List.rel_reverse hpairs
  generalize tables.reverse = us, tables'.reverse = us' at hreverse
  induction hreverse with
  | nil => exact .none
  | cons ht _ ih =>
    rw [List.find?_cons, List.find?_cons, ht.1]
    split
    · exact .some ht.2
    · exact ih

theorem resolve?_of_mem {t : QueryTable} (ht : t ∈ tables) :
    first.resolve? tables (some t.name) = some t.name :=
  if_pos (List.any_eq_true.2 ⟨t, ht, beq_self_eq_true t.name⟩)

theorem resolve?_of_forall_ne {x : Text} (hx : ∀ t ∈ tables, t.name ≠ x) :
    first.resolve? tables (some x) =
      (tables.reverse.find? (·.aliasName == some x)).map (·.name) :=
  if_neg (by simpa using hx)

/-- A qualifier means the same table in both texts, unless it is in one of them the name of a table
with the placeholder in it. -/
theorem rel_resolve? (h : List.Forall₂ R.Tables tables tables')
    (hfirst : (first, first') ∈ tables.zip tables') (x : Option Text) :
    Option.Rel (fun y y' => References tables tables' (some y) (some y'))
        (first.resolve? tables x) (first'.resolve? tables' x) ∨
      (R.Spells R.name tables x ∧ first.resolve? tables x = x) ∨
      (R.Spells R.name' tables' x ∧ first'.resolve? tables' x = x) := by
  cases x with
  | none => exact .inl (.some ((List.forall₂_zip h hfirst).references hfirst))
  | some x =>
    by_cases hleft : ∃ t ∈ tables, t.name = x
    · obtain ⟨t, ht, rfl⟩ := hleft
      by_cases hright : ∃ t' ∈ tables', t'.name = t.name
      · obtain ⟨t', ht', heq⟩ := hright
        rw [resolve?_of_mem ht, ← heq, resolve?_of_mem ht']
        exact .inl (.some (.inl rfl))
      · refine .inr (.inl ⟨spells_of_ne h ht ?_, resolve?_of_mem ht⟩)
        exact fun u hu heq => hright ⟨u, hu, heq⟩
    · have hnone : ∀ t ∈ tables, t.name ≠ x := fun t ht heq => hleft ⟨t, ht, heq⟩
      by_cases hright : ∃ t' ∈ tables', t'.name = x
      · obtain ⟨t', ht', rfl⟩ := hright
        exact .inr (.inr ⟨spells_of_ne' h ht' hnone, resolve?_of_mem ht'⟩)
      · have hnone' : ∀ t' ∈ tables', t'.name ≠ x := fun t' ht' heq => hright ⟨t', ht', heq⟩
        rw [resolve?_of_forall_ne hnone, resolve?_of_forall_ne hnone']
        exact .inl (rel_find?_aliasName h hnone hnone')

/-! ## Binding and analysis -/

/-- Fields with the same qualifier, which is quoted if it has the placeholder in it. -/
structure Unbound (R : Renaming) (f f' : QueryField) : Prop where
  fields : R.Fields SameQualifier f f'
  quoted : ∀ x, f.table = some x → R.sort.text R.name <:+: x → R.StartsQuoted R.name f
  quoted' : ∀ x, f'.table = some x → R.sort.text R.name' <:+: x → R.StartsQuoted R.name' f'

/-- What binding makes of fields: all are bound in both texts, or one of them cannot be bound in
either text, or only a clash lets all of them be bound in one of the two texts. -/
inductive Bound (R : Renaming) (tables tables' : List QueryTable) :
    List QueryField × Option TemplateFault → List QueryField × Option TemplateFault → Prop where
  | all {fields fields' : List QueryField} :
    List.Forall₂ (R.Fields (R.BelongAlike tables tables')) fields fields' →
      Bound R tables tables' (fields, none) (fields', none)
  | faults {fields fields' : List QueryField} {e e' : TemplateFault} :
    Bound R tables tables' (fields, some e) (fields', some e')
  | clash {fields fields' : List QueryField} {f : QueryField} {e' : TemplateFault} : f ∈ fields →
    R.Clashes R.name tables f → Bound R tables tables' (fields, none) (fields', some e')
  | clash' {fields fields' : List QueryField} {e : TemplateFault} {f' : QueryField} :
    f' ∈ fields' → R.Clashes R.name' tables' f' →
      Bound R tables tables' (fields, some e) (fields', none)

/-- Related fields that are bound to tables. -/
theorem Fields.bound {belongs belongs' : QueryField → QueryField → Prop} {f f' : QueryField}
    (h : R.Fields belongs f f') {x x' : Option Text}
    (hx : belongs' { f with table := x } { f' with table := x' }) :
    R.Fields belongs' { f with table := x } { f' with table := x' } := by
  rcases h with h | h
  · exact .inl ⟨hx, h.name, h.column, h.aliasName, h.isAggregate, h.isVerbatim⟩
  · exact .inr ⟨hx, ⟨h.field.name, h.field.isAggregate, h.field.isVerbatim, h.field.start,
      h.field.stop⟩, ⟨h.field'.name, h.field'.isAggregate, h.field'.isVerbatim, h.field'.start,
      h.field'.stop⟩, h.aliasName⟩

/-- A field clashes if its qualifier is taken for a name with the placeholder in it. -/
theorem clashes_of_spells {n : Text} {f : QueryField} {x : Option Text}
    (hquoted : ∀ x, f.table = some x → R.sort.text n <:+: x → R.StartsQuoted n f)
    (hspells : R.Spells n tables f.table) (hx : x = f.table) :
    R.Clashes n tables { f with table := x } := by
  subst hx
  obtain ⟨t, ht, hverbatim, hcontains, heq⟩ := hspells
  exact ⟨⟨t, ht, hverbatim, hcontains, heq⟩, hquoted _ heq hcontains⟩

theorem Bound.cons {f f' : QueryField} {x x' : List QueryField × Option TemplateFault}
    (hf : R.Fields (R.BelongAlike tables tables') f f') (h : R.Bound tables tables' x x') :
    R.Bound tables tables' (f :: x.1, x.2) (f' :: x'.1, x'.2) := by
  cases h with
  | all h => exact .all (.cons hf h)
  | faults => exact .faults
  | clash hmem h => exact .clash (List.mem_cons_of_mem _ hmem) h
  | clash' hmem h => exact .clash' (List.mem_cons_of_mem _ hmem) h

/-- Behind a field that is bound by a clash all that follow may be bound, or one of them may not. -/
theorem Bound.of_clash {f : QueryField} (h : R.Clashes R.name tables f)
    (x : List QueryField × Option TemplateFault) (fields' : List QueryField) (e' : TemplateFault) :
    R.Bound tables tables' (f :: x.1, x.2) (fields', some e') := by
  obtain ⟨fields, _ | e⟩ := x
  · exact .clash (List.mem_cons_self ..) h
  · exact .faults

theorem Bound.of_clash' {f' : QueryField} (h : R.Clashes R.name' tables' f')
    (fields : List QueryField) (e : TemplateFault) (x' : List QueryField × Option TemplateFault) :
    R.Bound tables tables' (fields, some e) (f' :: x'.1, x'.2) := by
  obtain ⟨fields', _ | e'⟩ := x'
  · exact .clash' (List.mem_cons_self ..) h
  · exact .faults

theorem bound_bindTo (h : List.Forall₂ R.Tables tables tables')
    (hfirst : (first, first') ∈ tables.zip tables') {fields fields' : List QueryField}
    (hfields : List.Forall₂ R.Unbound fields fields') :
    R.Bound tables tables' (QueryField.bindTo first tables fields)
      (QueryField.bindTo first' tables' fields') := by
  induction hfields with
  | nil => exact .all .nil
  | @cons f f' rest rest' hf _ ih =>
    have hqualifier : f.table = f'.table := hf.fields.elim (·.table) (·.table)
    have hclash {x : Option Text} (hspells : R.Spells R.name tables f.table) (hx : x = f.table) :=
      clashes_of_spells hf.quoted hspells hx
    have hclash' {x : Option Text} (hspells : R.Spells R.name' tables' f.table)
        (hx : x = f.table) :=
      clashes_of_spells hf.quoted' (hqualifier ▸ hspells) (hqualifier ▸ hx)
    have htable := rel_resolve? h hfirst f.table
    rw [QueryField.bindTo, QueryField.bindTo, ← hqualifier]
    generalize first.resolve? tables f.table = x, first'.resolve? tables' f.table = x' at htable
    rcases htable with htable | ⟨hspells, rfl⟩ | ⟨hspells, rfl⟩
    · cases htable with
      | none => exact .faults
      | some htable => exact .cons (hf.fields.bound (.inl htable)) ih
    · have hhead := hclash hspells rfl
      obtain ⟨t, -, -, -, hname⟩ := hspells
      rw [hname] at hhead ⊢
      cases x' with
      | none => exact .of_clash hhead ..
      | some x' => exact .cons (hf.fields.bound (.inr (.inl hhead))) ih
    · have hhead := hclash' hspells rfl
      obtain ⟨t, -, -, -, hname⟩ := hspells
      rw [hname] at hhead ⊢
      cases x with
      | none => exact .of_clash' hhead ..
      | some x => exact .cons (hf.fields.bound (.inr (.inr hhead))) ih

theorem bound_bindAll (h : List.Forall₂ R.Tables tables tables') {fields fields' : List QueryField}
    (hfields : List.Forall₂ R.Unbound fields fields') :
    R.Bound tables tables' (QueryField.bindAll tables fields)
      (QueryField.bindAll tables' fields') := by
  cases h with
  | nil =>
    refine .all (hfields.imp fun f f' hf => ?_)
    have hqualifier : f.table = f'.table := hf.fields.elim (·.table) (·.table)
    exact hf.fields.bound (.inl (.inl hqualifier))
  | cons ht hrest => exact bound_bindTo (.cons ht hrest) (List.mem_cons_self ..) hfields

/-- The fields of both texts as they are read, each with its qualifier in front of it. -/
theorem forall₂_unbound {fields fields' : List QueryField}
    (h : List.Forall₂ (R.Fields SameQualifier) fields fields')
    (hquoted : ∀ f ∈ fields, ∀ x, f.table = some x → R.sort.text R.name <:+: x →
      R.StartsQuoted R.name f)
    (hquoted' : ∀ f ∈ fields', ∀ x, f.table = some x → R.sort.text R.name' <:+: x →
      R.StartsQuoted R.name' f) : List.Forall₂ R.Unbound fields fields' := by
  refine List.forall₂_iff_zip.2 ⟨h.length_eq, fun {f f'} hmem => ?_⟩
  obtain ⟨hf, hf'⟩ := List.of_mem_zip hmem
  exact ⟨List.forall₂_zip h hmem, hquoted f hf, hquoted' f' hf'⟩

/-- The fields of a query, not yet bound, and its tables. -/
def readParts (source : Fragment) : Checked (List QueryField × List QueryTable) := do
  let q : Query := ⟨source, (Lexicon.sql.read source).fault⟩
  let (fields, clauses) ← q.selectList (← q.skipAllBraces (Lexicon.sql.read source).tokens)
  let tables ← q.tableList clauses
  return (fields, tables)

theorem shape_eq_readParts (source : Fragment) :
    Query.shape .sql source = readParts source >>= fun x =>
      match QueryField.bindAll x.2 x.1 with
      | (_, some fault) => throw fault
      | (bound, none) => return ⟨bound, x.2⟩ := by
  conv_rhs => simp only [readParts, bind_assoc, pure_bind]
  rfl

theorem agree_readParts (hR : R.IsWellFormed) :
    Except.Agree (fun x x' => List.Forall₂ R.Unbound x.1 x'.1 ∧ List.Forall₂ R.Tables x.2 x'.2)
      (readParts (.ofText (R.write R.name))) (readParts (.ofText (R.write R.name'))) := by
  obtain ⟨hts, hfault⟩ := hR.reads
  have hq : R.Queries
      ⟨.ofText (R.write R.name), (Lexicon.sql.read (.ofText (R.write R.name))).fault⟩
      ⟨.ofText (R.write R.name'), (Lexicon.sql.read (.ofText (R.write R.name'))).fault⟩ :=
    ⟨hR.name.2, hR.name'.2, rfl, rfl, hfault⟩
  apply (Query.agree_skipBraces hq hts _ _).and_eq.bind
  rintro us us' ⟨⟨_, hselect⟩, hus, hus'⟩
  apply (Query.agree_selectList hq hselect).and_eq.bind
  rintro ⟨fields, _⟩ ⟨fields', _⟩ ⟨⟨hfields, _, hclauses⟩, hlist, hlist'⟩
  refine (Query.agree_tableList hq hclauses).bind fun tables tables' htables => ?_
  refine .ok ⟨forall₂_unbound hfields ?_ ?_, htables⟩
  · exact startsQuoted_of_selectList hR.name.1.isWord.ne_nil (Query.skipBraces_suffix hus) hlist
  · exact startsQuoted_of_selectList hR.name'.1.isWord.ne_nil (Query.skipBraces_suffix hus') hlist'

/-- **The name of a placeholder does not influence what a query selects**, but for the name of a
field that is a call around the placeholder and for names between quotes that are the text of the
placeholder. -/
theorem agree_shape (R : Renaming) (hR : R.IsWellFormed) :
    R.Agrees (Query.shape .sql (.ofText (R.write R.name)))
      (Query.shape .sql (.ofText (R.write R.name'))) := by
  have hparts := agree_readParts hR
  rw [shape_eq_readParts, shape_eq_readParts]
  generalize readParts (.ofText (R.write R.name)) = x,
    readParts (.ofText (R.write R.name')) = x' at hparts
  cases hparts with
  | error _ => exact .faults
  | @ok x x' h =>
    obtain ⟨hfields, htables⟩ := h
    have hbound := bound_bindAll htables hfields
    change R.Agrees (match QueryField.bindAll x.2 x.1 with
      | (_, some fault) => throw fault
      | (bound, none) => return ⟨bound, x.2⟩) (match QueryField.bindAll x'.2 x'.1 with
      | (_, some fault) => throw fault
      | (bound, none) => return ⟨bound, x'.2⟩)
    generalize QueryField.bindAll x.2 x.1 = y, QueryField.bindAll x'.2 x'.1 = y' at hbound
    cases hbound with
    | all h => exact .shapes ⟨h, htables⟩
    | faults => exact .faults
    | clash hmem h => exact .clash hmem h
    | clash' hmem h => exact .clash' hmem h

/-- The name of the placeholder shows in the name of the table and in what belongs to it, and a
literal that spells it changes nothing. -/
theorem agree_shape_table :
    let R : Renaming :=
      ⟨"SELECT x, v.y AS z, f(x, $\x7bp\x7d) FROM ".toList, .substitute, ['a'], "bc".toList,
        " v, t WHERE x = '#\x7ba\x7d'".toList⟩
    let s : QueryShape :=
      ⟨[⟨some "#\x7ba\x7d".toList, ['x'], none, false, false, ⟨7, 8⟩⟩,
          ⟨some "#\x7ba\x7d".toList, ['y'], some ['z'], false, false, ⟨10, 13⟩⟩,
          ⟨some "#\x7ba\x7d".toList, ['x'], none, false, false, ⟨20, 30⟩⟩],
        [⟨"#\x7ba\x7d".toList, some ['v'], true, ⟨36, 40⟩⟩, ⟨['t'], none, false, ⟨44, 45⟩⟩]⟩
    let s' : QueryShape :=
      ⟨[⟨some "#\x7bbc\x7d".toList, ['x'], none, false, false, ⟨7, 8⟩⟩,
          ⟨some "#\x7bbc\x7d".toList, ['y'], some ['z'], false, false, ⟨10, 13⟩⟩,
          ⟨some "#\x7bbc\x7d".toList, ['x'], none, false, false, ⟨20, 30⟩⟩],
        [⟨"#\x7bbc\x7d".toList, some ['v'], true, ⟨36, 41⟩⟩, ⟨['t'], none, false, ⟨45, 46⟩⟩]⟩
    R.IsWellFormed ∧ Query.shape .sql (.ofText (R.write R.name)) = .ok s ∧
      Query.shape .sql (.ofText (R.write R.name')) = .ok s' ∧ R.Shapes s s' := by
  intro R s s'
  have hR : R.IsWellFormed := ⟨by decide +kernel, by decide +kernel, by decide +kernel⟩
  have hs : Query.shape .sql (.ofText (R.write R.name)) = .ok s := by decide +kernel
  have hs' : Query.shape .sql (.ofText (R.write R.name')) = .ok s' := by decide +kernel
  have hagree := agree_shape R hR
  rw [hs, hs'] at hagree
  cases hagree with
  | shapes h => exact ⟨hR, hs, hs', h⟩

/-- The name in a placeholder within a call is taken for a column. -/
example : Query.shape .sql (.ofText "SELECT f($\x7ba\x7d) FROM t".toList) =
    .ok ⟨[⟨some ['t'], ['a'], none, false, false, ⟨7, 14⟩⟩], [⟨['t'], none, false, ⟨20, 21⟩⟩]⟩ := by
  decide +kernel

/-- A quoted alias that spells the placeholder is none. -/
example : Query.shape .sql (.ofText "SELECT $\x7ba\x7d `$\x7ba\x7d` FROM t".toList) =
    .ok ⟨[⟨some ['t'], "$\x7ba\x7d".toList, none, false, true, ⟨7, 11⟩⟩],
      [⟨['t'], none, false, ⟨24, 25⟩⟩]⟩ := by
  decide +kernel

/-- A quoted qualifier that spells the placeholder is the name of a table. -/
example : Query.shape .sql (.ofText "SELECT `$\x7ba\x7d`.x FROM $\x7ba\x7d".toList) =
    .ok ⟨[⟨some "$\x7ba\x7d".toList, ['x'], none, false, false, ⟨7, 15⟩⟩],
      [⟨"$\x7ba\x7d".toList, none, true, ⟨21, 25⟩⟩]⟩ := by
  decide +kernel

end Renaming

end QueryTemplate
