import Mathlib.Data.List.Forall2
import Mathlib.Tactic.SplitIfs
import QueryTemplate.Query.Analysis

/-! # The fields of a shape are bound

A query that has a shape selects a field and names a table, and each of its fields belongs to one of
its tables.
-/

namespace QueryTemplate

namespace Query

theorem ne_nil_of_selectList {q : Query} {ts clauses : List Token} {fields : List QueryField}
    (h : q.selectList ts = .ok (fields, clauses)) : fields ≠ [] := by
  obtain ⟨⟨select, rest⟩, -, h⟩ := Checked.bind_eq_ok h
  dsimp only at h
  split_ifs at h
  · cases h
  · obtain ⟨us, -, h⟩ := Checked.bind_eq_ok h
    obtain ⟨⟨found, later⟩, -, h⟩ := Checked.bind_eq_ok h
    dsimp only at h
    split_ifs at h with hempty
    · cases h
    · cases h
      simpa using hempty

theorem ne_nil_of_tableList {q : Query} {ts : List Token} {tables : List QueryTable}
    (h : q.tableList ts = .ok tables) : tables ≠ [] := by
  obtain ⟨found, -, h⟩ := Checked.bind_eq_ok h
  dsimp only at h
  split_ifs at h with hempty
  · cases h
  · cases h
    simpa using hempty

end Query

theorem QueryTable.mem_of_resolve? {first : QueryTable} {tables : List QueryTable}
    (hfirst : first ∈ tables) {qualifier : Option Text} {name : Text}
    (h : first.resolve? tables qualifier = some name) : ∃ t ∈ tables, t.name = name := by
  unfold resolve? at h
  split at h
  · exact ⟨first, hfirst, Option.some.inj h⟩
  · split_ifs at h with hname
    · obtain ⟨t, ht, heq⟩ := List.any_eq_true.1 hname
      exact ⟨t, ht, (eq_of_beq heq).trans (Option.some.inj h)⟩
    · obtain ⟨t, ht, rfl⟩ := Option.map_eq_some_iff.1 h
      exact ⟨t, List.mem_reverse.1 (List.mem_of_find?_eq_some ht), rfl⟩

/-- The bound field is the field with the name of a table. -/
def QueryField.IsBoundAs (tables : List QueryTable) (f bound : QueryField) : Prop :=
  ∃ t ∈ tables, bound = { f with table := some t.name }

/-- Binding that meets no fault gives every field the name of a table. -/
theorem QueryField.bound_of_bindTo {first : QueryTable} {tables : List QueryTable}
    (hfirst : first ∈ tables) {fields bound : List QueryField}
    (h : bindTo first tables fields = (bound, none)) :
    List.Forall₂ (IsBoundAs tables) fields bound := by
  induction fields generalizing bound with
  | nil =>
    cases h
    exact .nil
  | cons f fields ih =>
    rw [bindTo] at h
    split at h
    · cases h
    · rename_i name hname
      obtain ⟨t, ht, htable⟩ := QueryTable.mem_of_resolve? hfirst hname
      rcases hrest : bindTo first tables fields with ⟨later, fault⟩
      rw [hrest] at h
      cases h
      exact .cons ⟨t, ht, by rw [htable]⟩ (ih hrest)

theorem QueryField.exists_table_of_bound {tables : List QueryTable} {fields bound : List QueryField}
    (h : List.Forall₂ (IsBoundAs tables) fields bound) :
    ∀ f ∈ bound, ∃ t ∈ tables, f.table = some t.name := by
  induction h with
  | nil => simp
  | cons hf _ ih =>
    rcases hf with ⟨t, ht, rfl⟩
    exact List.forall_mem_cons.2 ⟨⟨t, ht, rfl⟩, ih⟩

/-- The fields of a shape are those of the select list, bound to the tables of the clauses. -/
theorem Query.exists_of_shape {lexicon : Lexicon} {source : Fragment} {shape : QueryShape}
    (h : Query.shape lexicon source = .ok shape) : ∃ ts fields clauses,
      Query.skipAllBraces ⟨source, (lexicon.read source).fault⟩ (lexicon.read source).tokens =
        .ok ts ∧
      Query.selectList ⟨source, (lexicon.read source).fault⟩ ts = .ok (fields, clauses) ∧
      Query.tableList ⟨source, (lexicon.read source).fault⟩ clauses = .ok shape.tables ∧
      List.Forall₂ (QueryField.IsBoundAs shape.tables) fields shape.fields := by
  obtain ⟨ts, hskip, h⟩ := Checked.bind_eq_ok h
  obtain ⟨⟨fields, clauses⟩, hselect, h⟩ := Checked.bind_eq_ok h
  obtain ⟨tables, htables, h⟩ := Checked.bind_eq_ok h
  obtain ⟨first, later, rfl⟩ := List.exists_cons_of_ne_nil (ne_nil_of_tableList htables)
  rcases hbind : QueryField.bindTo first (first :: later) fields with ⟨bound, _ | fault⟩
  · simp only [QueryField.bindAll, hbind] at h
    cases h
    exact ⟨ts, fields, clauses, hskip, hselect, htables,
      QueryField.bound_of_bindTo (List.mem_cons_self ..) hbind⟩
  · simp only [QueryField.bindAll, hbind] at h
    cases h

/-- Whether a shape has fields and tables, and each field the name of one of the tables. -/
structure QueryShape.IsBound (shape : QueryShape) : Prop where
  fields : shape.fields ≠ []
  tables : shape.tables ≠ []
  bound : ∀ f ∈ shape.fields, ∃ t ∈ shape.tables, f.table = some t.name

theorem Query.isBound_of_shape {lexicon : Lexicon} {source : Fragment} {shape : QueryShape}
    (h : Query.shape lexicon source = .ok shape) : shape.IsBound := by
  rcases exists_of_shape h with ⟨ts, fields, clauses, -, hselect, htables, hbound⟩
  refine ⟨fun hnil => ?_, ne_nil_of_tableList htables, QueryField.exists_table_of_bound hbound⟩
  rw [hnil, List.forall₂_nil_right_iff] at hbound
  exact ne_nil_of_selectList hselect hbound

end QueryTemplate
