import QueryTemplate.Proofs.Query.Binding

/-! # What a qualifier means

Binding looks up every qualifier among the names of the tables first and among their aliases then,
where the last table of an alias counts. What comes out is described without the look-up: each field
gets the name that its qualifier means, up to the first field whose qualifier means none.
-/

namespace QueryTemplate

namespace QueryTable

/-- The name of a table that a qualifier, or none, means among `tables`. -/
inductive Means (tables : List QueryTable) : Option Text → Text → Prop where
  | first {t : QueryTable} : tables.head? = some t → Means tables none t.name
  | name {t : QueryTable} : t ∈ tables → Means tables (some t.name) t.name
  | aliasName {before after : List QueryTable} {t : QueryTable} {qualifier : Text} :
    (∀ u ∈ tables, u.name ≠ qualifier) → tables = before ++ t :: after →
    t.aliasName = some qualifier → (∀ u ∈ after, u.aliasName ≠ some qualifier) →
    Means tables (some qualifier) t.name

def Unknown (tables : List QueryTable) (qualifier : Text) : Prop :=
  ∀ t ∈ tables, t.name ≠ qualifier ∧ t.aliasName ≠ some qualifier

variable {first : QueryTable} {later : List QueryTable}

theorem resolve?_eq_some_iff {qualifier : Option Text} {name : Text} :
    first.resolve? (first :: later) qualifier = some name ↔
      Means (first :: later) qualifier name := by
  constructor
  · intro h
    unfold resolve? at h
    split at h
    · rw [← Option.some.inj h]
      exact .first rfl
    · rename_i qualifier
      split_ifs at h with hname
      · obtain ⟨t, ht, heq⟩ := List.any_eq_true.1 hname
        rw [← Option.some.inj h, ← eq_of_beq heq]
        exact .name ht
      · obtain ⟨t, ht, rfl⟩ := Option.map_eq_some_iff.1 h
        -- What the search from the right finds has the tables that it passed over behind it.
        obtain ⟨halias, after, before, hsplit, hafter⟩ := List.find?_eq_some_iff_append.1 ht
        have hlast : first :: later = before.reverse ++ t :: after.reverse := by
          simpa using congrArg List.reverse hsplit
        refine .aliasName ?_ hlast (eq_of_beq halias) ?_
        · simpa using hname
        · simpa using hafter
  · intro h
    cases h with
    | first h => rw [resolve?, Option.some.inj h]
    | @name t ht =>
      have hname : (first :: later).any (·.name == t.name) :=
        List.any_eq_true.2 ⟨t, ht, beq_self_eq_true _⟩
      rw [resolve?, if_pos hname]
    | @aliasName before after t qualifier hname hsplit halias hafter =>
      have hnone : ¬(first :: later).any (·.name == qualifier) := by simpa using hname
      have hfind : (first :: later).reverse.find? (·.aliasName == some qualifier) = some t := by
        apply List.find?_eq_some_iff_append.2
        refine ⟨beq_iff_eq.2 halias, after.reverse, before.reverse, ?_, by simpa using hafter⟩
        rw [hsplit]
        simp
      rw [resolve?, if_neg hnone, hfind]
      rfl

theorem resolve?_eq_none_iff {qualifier : Option Text} :
    first.resolve? (first :: later) qualifier = none ↔
      ∃ word, qualifier = some word ∧ Unknown (first :: later) word := by
  cases qualifier with
  | none => simp [resolve?]
  | some qualifier =>
    by_cases hname : (first :: later).any (·.name == qualifier)
    · obtain ⟨t, ht, heq⟩ := List.any_eq_true.1 hname
      rw [resolve?, if_pos hname]
      constructor
      · exact fun h => nomatch h
      · rintro ⟨word, hword, hunknown⟩
        cases hword
        exact absurd (eq_of_beq heq) (hunknown t ht).1
    · rw [resolve?, if_neg hname, Option.map_eq_none_iff, List.find?_eq_none]
      have hnames : ∀ t ∈ first :: later, t.name ≠ qualifier := by simpa using hname
      constructor
      · intro h
        refine ⟨qualifier, rfl, fun t ht => ⟨hnames t ht, ?_⟩⟩
        simpa using h t (List.mem_reverse.2 ht)
      · rintro ⟨word, hword, hunknown⟩ t ht
        cases hword
        simpa using (hunknown t (List.mem_reverse.1 ht)).2

end QueryTable

namespace QueryField

def BoundTo (tables : List QueryTable) (f bound : QueryField) : Prop :=
  ∃ name, QueryTable.Means tables f.table name ∧ bound = { f with table := some name }

/-- What binding makes of fields: all of them are bound, or those in front of the first one with an
unknown qualifier, which is the fault, and the others are left as they are. -/
inductive Binds (tables : List QueryTable) (fields : List QueryField) :
    List QueryField × Option TemplateFault → Prop where
  | all {bound : List QueryField} : List.Forall₂ (BoundTo tables) fields bound →
    Binds tables fields (bound, none)
  | upTo {before bound later : List QueryField} {f : QueryField} {qualifier : Text} :
    fields = before ++ f :: later → List.Forall₂ (BoundTo tables) before bound →
    f.table = some qualifier → QueryTable.Unknown tables qualifier →
    Binds tables fields
      (bound ++ f :: later, some ⟨.unresolvedTable f.name qualifier, f.span⟩)

variable {first : QueryTable} {later : List QueryTable}

/-- Fields that can be bound are bound one by one, whatever comes behind them. -/
theorem bindTo_append {before bound : List QueryField}
    (h : List.Forall₂ (BoundTo (first :: later)) before bound) (rest : List QueryField) :
    bindTo first (first :: later) (before ++ rest) =
      (bound ++ (bindTo first (first :: later) rest).1,
        (bindTo first (first :: later) rest).2) := by
  induction h with
  | nil => rfl
  | cons hf _ ih =>
    rcases hf with ⟨name, hname, rfl⟩
    rw [List.cons_append, bindTo, QueryTable.resolve?_eq_some_iff.2 hname]
    simp only [ih, List.cons_append]

theorem binds_bindTo (fields : List QueryField) :
    Binds (first :: later) fields (bindTo first (first :: later) fields) := by
  induction fields with
  | nil => exact .all .nil
  | cons f rest ih =>
    rw [bindTo]
    cases hname : first.resolve? (first :: later) f.table with
    | none =>
      obtain ⟨qualifier, hqualifier, hunknown⟩ := QueryTable.resolve?_eq_none_iff.1 hname
      rw [hqualifier]
      have hfront : f :: rest = [] ++ f :: rest := rfl
      exact .upTo hfront .nil hqualifier hunknown
    | some name =>
      have hf : BoundTo (first :: later) f { f with table := some name } :=
        ⟨name, QueryTable.resolve?_eq_some_iff.1 hname, rfl⟩
      dsimp only
      generalize bindTo first (first :: later) rest = outcome at ih
      cases ih with
      | all hrest => exact .all (.cons hf hrest)
      | upTo hsplit hbefore hqualifier hunknown =>
        exact .upTo (congrArg (f :: ·) hsplit) (.cons hf hbefore) hqualifier hunknown

/-- The description of the outcome leaves no choice. -/
theorem bindTo_eq_of_binds {fields : List QueryField}
    {outcome : List QueryField × Option TemplateFault}
    (h : Binds (first :: later) fields outcome) :
    bindTo first (first :: later) fields = outcome := by
  cases h with
  | all hbound =>
    have happend := bindTo_append hbound []
    rw [List.append_nil] at happend
    rw [happend, bindTo, List.append_nil]
  | upTo hsplit hbefore hqualifier hunknown =>
    have hnone := QueryTable.resolve?_eq_none_iff.2 ⟨_, hqualifier, hunknown⟩
    rw [hsplit, bindTo_append hbefore, bindTo, hnone, hqualifier]
    rfl

/-- Fields that have the names of tables are bound already. -/
theorem bindTo_self {fields : List QueryField}
    (h : ∀ f ∈ fields, ∃ t ∈ first :: later, f.table = some t.name) :
    bindTo first (first :: later) fields = (fields, none) := by
  refine bindTo_eq_of_binds (.all (List.forall₂_same.2 fun f hf => ?_))
  obtain ⟨t, ht, htable⟩ := h f hf
  refine ⟨t.name, ?_, by rw [← htable]⟩
  rw [htable]
  exact .name ht

/-- **Binding gives each field what its qualifier means.** The fields are visited in order, and the
first one with an unknown qualifier is the fault; where there is none, every field has the name of a
table, and binding again changes nothing. Without tables there is nothing to bind to. -/
theorem bindAll_binds (tables : List QueryTable) (fields : List QueryField) :
    (tables = [] → bindAll tables fields = (fields, none)) ∧
    (tables ≠ [] → ∀ outcome, bindAll tables fields = outcome ↔ Binds tables fields outcome) ∧
    ∀ bound, bindAll tables fields = (bound, none) →
      bindAll tables bound = (bound, none) ∧
      (tables ≠ [] → ∀ f ∈ bound, ∃ t ∈ tables, f.table = some t.name) := by
  cases tables with
  | nil =>
    refine ⟨fun _ => rfl, fun h => absurd rfl h, fun bound _ => ⟨rfl, fun h => absurd rfl h⟩⟩
  | cons first later =>
    have hne : first :: later ≠ [] := List.cons_ne_nil _ _
    refine ⟨fun h => absurd h hne, fun _ outcome => ⟨?_, bindTo_eq_of_binds⟩, fun bound h => ?_⟩
    · rintro rfl
      exact binds_bindTo fields
    · have hbound := exists_table_of_bound (bound_of_bindTo (List.mem_cons_self ..) h)
      exact ⟨bindTo_self hbound, fun _ => hbound⟩

/-- An alias that is the name of another table means that table, one of two tables means the last of
them, and the fields in front of the fault are bound. -/
theorem bindAll_binds_clash :
    let table (name aliasName : Char) : QueryTable := ⟨[name], some [aliasName], false, .point 9⟩
    let field (qualifier : Option Text) : QueryField :=
      ⟨qualifier, ['x'], none, false, false, .point 5⟩
    let tables := [table 'a' 'b', table 'b' 'c', table 'd' 'c']
    let fields := [none, some ['b'], some ['c'], some ['e'], some ['c']].map field
    let bound := [some ['a'], some ['b'], some ['d'], some ['e'], some ['c']].map field
    tables ≠ [] ∧
      Binds tables fields (bound, some ⟨.unresolvedTable ['x'] ['e'], .point 5⟩) ∧
      Binds tables (bound.take 3) (bound.take 3, none) ∧
      ∀ f ∈ bound.take 3, ∃ t ∈ tables, f.table = some t.name := by
  intro table field tables fields bound
  have hne : tables ≠ [] := List.cons_ne_nil _ _
  have hagain := (bindAll_binds tables (fields.take 3)).2.2 (bound.take 3) (by decide)
  exact ⟨hne, ((bindAll_binds tables fields).2.1 hne _).1 (by decide),
    ((bindAll_binds tables (bound.take 3)).2.1 hne _).1 hagain.1, hagain.2 hne⟩

end QueryField

end QueryTemplate
