import QueryTemplate.Proofs.Method.Consistency

/-! # Derived records

Every field of a query either gives columns of the result record or is refused. A record is derived
if no field is refused and the columns of all fields have distinct names, and then it has these
columns in the order of the fields. Otherwise the first field at which this fails is to blame, and
what is behind it is not looked at.
-/

namespace QueryTemplate

namespace ResultRecord

/-! ## What a field gives -/

/-- The table called `name` is looked up for the field: it is no count and not verbatim, and no
placeholder stands for its table. -/
structure Asks (tables : List QueryTable) (f : QueryField) (name : Text) : Prop where
  isAggregate : f.isAggregate = false
  isVerbatim : f.isVerbatim = false
  table : f.table.getD [] = name
  named : ∀ t ∈ tables, t.isVerbatim → t.name ≠ name

/-- The columns that a field stands for in a record. -/
inductive Gives (provider : Provider) (tables : List QueryTable) (f : QueryField) :
    List ResultColumn → Prop where
  | count : f.isAggregate = true →
    Gives provider tables f [⟨f.outputName, "BIGINT".toList, [], f.name⟩]
  | wildcard {name : Text} {table : SchemaTable} : Asks tables f name →
    provider name = .ok table → f.isWildcard = true →
    Gives provider tables f (table.columns.map fun column =>
      ⟨column.name, column.dbType, column.comment, table.name ++ '.' :: column.name⟩)
  | column {name : Text} {table : SchemaTable} {before after : List SchemaColumn}
      {column : SchemaColumn} : Asks tables f name →
    provider name = .ok table → f.isWildcard = false →
    table.columns = before ++ column :: after → column.name = f.name →
    (∀ other ∈ before, other.name ≠ f.name) →
    Gives provider tables f
      [⟨f.outputName, column.dbType, column.comment, table.name ++ '.' :: column.name⟩]

/-- Why a field gives no columns. -/
inductive Refuses (provider : Provider) (tables : List QueryTable) (f : QueryField) :
    MethodCause → Prop where
  | verbatimField : f.isAggregate = false → f.isVerbatim = true →
    Refuses provider tables f (.verbatimField f.name)
  | verbatimTable {t : QueryTable} : f.isAggregate = false → f.isVerbatim = false → t ∈ tables →
    t.isVerbatim → t.name = f.table.getD [] →
    Refuses provider tables f (.verbatimTable (f.table.getD []))
  | schema {name : Text} {cause : SchemaCause} : Asks tables f name →
    provider name = .error cause → Refuses provider tables f (.schema name cause)
  | missingColumn {name : Text} {table : SchemaTable} : Asks tables f name →
    provider name = .ok table → f.isWildcard = false →
    (∀ column ∈ table.columns, column.name ≠ f.name) →
    Refuses provider tables f (.missingColumn name f.name)

variable {provider : Provider} {tables : List QueryTable} {f : QueryField}

/-- A field is a count, verbatim, verbatim by its table, or looked up in a table. -/
theorem cases_of_field (tables : List QueryTable) (f : QueryField) :
    f.isAggregate = true ∨ (f.isAggregate = false ∧ f.isVerbatim = true) ∨
      (f.isAggregate = false ∧ f.isVerbatim = false ∧
        ∃ t ∈ tables, t.isVerbatim ∧ t.name = f.table.getD []) ∨
      Asks tables f (f.table.getD []) := by
  cases hcount : f.isAggregate with
  | true => exact .inl rfl
  | false =>
    cases hverbatim : f.isVerbatim with
    | true => exact .inr (.inl ⟨rfl, rfl⟩)
    | false =>
      by_cases htable : ∃ t ∈ tables, t.isVerbatim ∧ t.name = f.table.getD []
      · exact .inr (.inr (.inl ⟨rfl, rfl, htable⟩))
      · refine .inr (.inr (.inr ⟨hcount, hverbatim, rfl, fun t ht hopaque hname => ?_⟩))
        exact htable ⟨t, ht, hopaque, hname⟩

theorem gives_or_refuses (provider : Provider) (tables : List QueryTable) (f : QueryField) :
    (∃ columns, Gives provider tables f columns) ∨ ∃ cause, Refuses provider tables f cause := by
  rcases cases_of_field tables f with hcount | ⟨hcount, hverbatim⟩ |
    ⟨hcount, hverbatim, t, ht, htable, hname⟩ | hasks
  · exact .inl ⟨_, .count hcount⟩
  · exact .inr ⟨_, .verbatimField hcount hverbatim⟩
  · exact .inr ⟨_, .verbatimTable hcount hverbatim ht htable hname⟩
  · cases hanswer : provider (f.table.getD []) with
    | error cause => exact .inr ⟨_, .schema hasks hanswer⟩
    | ok table =>
      cases hwildcard : f.isWildcard with
      | true => exact .inl ⟨_, .wildcard hasks hanswer hwildcard⟩
      | false =>
        cases hcolumn : table.column? f.name with
        | none =>
          refine .inr ⟨_, .missingColumn hasks hanswer hwildcard ?_⟩
          simpa [SchemaTable.column?] using hcolumn
        | some column =>
          obtain ⟨hname, before, after, htable, hbefore⟩ := List.find?_eq_some_iff_append.1 hcolumn
          refine .inl ⟨_, .column hasks hanswer hwildcard htable (eq_of_beq hname) ?_⟩
          simpa using hbefore

/-! ## What expanding a field comes to -/

section

variable {cache : SchemaCache}

theorem expand_of_count (h : f.isAggregate = true) : expand provider tables f cache =
    (.ok [⟨f.outputName, "BIGINT".toList, [], f.name⟩], cache) := by
  unfold expand
  simp only [h, if_true]
  rfl

theorem expand_of_verbatimField (hcount : f.isAggregate = false) (h : f.isVerbatim = true) :
    expand provider tables f cache = (.error ⟨.verbatimField f.name, f.span⟩, cache) := by
  unfold expand
  simp only [hcount, h, Bool.false_eq_true, if_false, if_true]
  rfl

theorem expand_of_verbatimTable (hcount : f.isAggregate = false) (hverbatim : f.isVerbatim = false)
    (h : ∃ t ∈ tables, t.isVerbatim ∧ t.name = f.table.getD []) : expand provider tables f cache =
      (.error ⟨.verbatimTable (f.table.getD []), f.span⟩, cache) := by
  have hnamed : (tables.any fun t => t.isVerbatim && t.name == f.table.getD []) = true := by
    simpa using h
  unfold expand
  simp only [hcount, hverbatim, hnamed, Bool.false_eq_true, if_false, if_true]
  rfl

/-- A field that is looked up in a table gives what the description of the table says. -/
theorem expand_of_asks {name : Text} (h : Asks tables f name) :
    expand provider tables f cache =
      (match (SchemaCache.describe provider name cache).1 with
        | .error cause => .error ⟨.schema name cause, f.span⟩
        | .ok table =>
          if f.isWildcard then .ok (table.columns.map fun column => shown table column.name column)
          else match table.column? f.name with
            | some column => .ok [shown table f.outputName column]
            | none => .error ⟨.missingColumn name f.name, f.span⟩,
        (SchemaCache.describe provider name cache).2) := by
  obtain rfl := h.table
  have hnamed : (tables.any fun t => t.isVerbatim && t.name == f.table.getD []) = false := by
    simpa using h.named
  unfold expand
  simp only [h.isAggregate, h.isVerbatim, hnamed, Bool.false_eq_true, if_false]
  rw [bind_run]
  change (match (SchemaCache.describe provider (f.table.getD []) cache).1 with
    | .error cause => _
    | .ok table => _ : Derivation _) _ = _
  cases (SchemaCache.describe provider (f.table.getD []) cache).1 with
  | error cause => rfl
  | ok table =>
    dsimp only
    split_ifs
    · rfl
    · cases table.column? f.name <;> rfl

variable (hcache : cache.Faithful provider)
include hcache

theorem expand_of_gives {columns : List ResultColumn} (h : Gives provider tables f columns) :
    (expand provider tables f cache).1 = .ok columns := by
  cases h with
  | count hcount => rw [expand_of_count hcount]
  | wildcard hasks hanswer hwildcard =>
    rw [expand_of_asks hasks, hcache.answer, hanswer]
    simp [hwildcard, shown]
  | @column name table before after column hasks hanswer hwildcard htable hname hbefore =>
    have hfind : table.column? f.name = some column := by
      apply List.find?_eq_some_iff_append.2
      exact ⟨beq_iff_eq.2 hname, before, after, htable, by simpa using hbefore⟩
    rw [expand_of_asks hasks, hcache.answer, hanswer]
    simp [hwildcard, hfind, shown]

theorem expand_of_refuses {cause : MethodCause} (h : Refuses provider tables f cause) :
    (expand provider tables f cache).1 = .error ⟨cause, f.span⟩ := by
  cases h with
  | verbatimField hcount hverbatim => rw [expand_of_verbatimField hcount hverbatim]
  | verbatimTable hcount hverbatim ht htable hname =>
    rw [expand_of_verbatimTable hcount hverbatim ⟨_, ht, htable, hname⟩]
  | schema hasks hanswer => rw [expand_of_asks hasks, hcache.answer, hanswer]
  | @missingColumn name table hasks hanswer hwildcard hcolumns =>
    have hfind : table.column? f.name = none := by
      simpa [SchemaTable.column?] using hcolumns
    rw [expand_of_asks hasks, hcache.answer, hanswer]
    simp [hwildcard, hfind]

theorem faithful_expand (tables : List QueryTable) (f : QueryField) :
    (expand provider tables f cache).2.Faithful provider := by
  rcases cases_of_field tables f with hcount | ⟨hcount, hverbatim⟩ |
    ⟨hcount, hverbatim, htable⟩ | hasks
  · rwa [expand_of_count hcount]
  · rwa [expand_of_verbatimField hcount hverbatim]
  · rwa [expand_of_verbatimTable hcount hverbatim htable]
  · rw [expand_of_asks hasks]
    exact hcache.describe _

end

/-! ## Fields one after another -/

/-- What is wrong with a field behind fields that have given `columns`: it is refused, or one of its
columns has a name that is taken. -/
inductive Faults (provider : Provider) (tables : List QueryTable) (columns : List ResultColumn)
    (f : QueryField) : MethodFault → Prop where
  | refused {cause : MethodCause} : Refuses provider tables f cause →
    Faults provider tables columns f ⟨cause, f.span⟩
  | repeated {before after : List ResultColumn} {column : ResultColumn} :
    Gives provider tables f (before ++ column :: after) → Distinct (columns ++ before) →
    column.name ∈ (columns ++ before).map ResultColumn.name →
    Faults provider tables columns f ⟨.duplicateResultColumn column.name, f.span⟩

/-- A field gives columns with new names, or something is wrong with it. -/
theorem gives_or_faults (provider : Provider) (tables : List QueryTable)
    {columns : List ResultColumn} (h : Distinct columns) (f : QueryField) :
    (∃ more, Gives provider tables f more ∧ Distinct (columns ++ more)) ∨
      ∃ fault, Faults provider tables columns f fault := by
  rcases gives_or_refuses provider tables f with ⟨more, hgives⟩ | ⟨cause, hrefuses⟩
  · rcases distinct_or_taken h more with hdistinct | ⟨before, column, after, rfl, hbefore, htaken⟩
    · exact .inl ⟨more, hgives, hdistinct⟩
    · exact .inr ⟨_, .repeated hgives hbefore htaken⟩
  · exact .inr ⟨_, .refused hrefuses⟩

/-- Fields all give columns with distinct names, or there is a first one with which something is
wrong. -/
theorem give_or_fault (provider : Provider) (tables : List QueryTable)
    {columns : List ResultColumn} (h : Distinct columns) (fields : List QueryField) :
    (∃ parts, List.Forall₂ (Gives provider tables) fields parts ∧
      Distinct (columns ++ parts.flatten)) ∨
    ∃ before f after parts fault, fields = before ++ f :: after ∧
      List.Forall₂ (Gives provider tables) before parts ∧ Distinct (columns ++ parts.flatten) ∧
      Faults provider tables (columns ++ parts.flatten) f fault := by
  induction fields generalizing columns with
  | nil => exact .inl ⟨[], .nil, by simpa using h⟩
  | cons f fields ih =>
    rcases gives_or_faults provider tables h f with ⟨more, hgives, hmore⟩ | ⟨fault, hfault⟩
    · rcases ih hmore with ⟨parts, hparts, hdistinct⟩ |
        ⟨before, g, after, parts, fault, rfl, hparts, hdistinct, hfault⟩
      · exact .inl ⟨more :: parts, .cons hgives hparts, by simpa using hdistinct⟩
      · exact .inr ⟨f :: before, g, after, more :: parts, fault, rfl, .cons hgives hparts,
          by simpa using hdistinct, by simpa using hfault⟩
    · exact .inr ⟨[], f, fields, [], fault, rfl, .nil, by simpa using h, by simpa using hfault⟩

section

variable {cache : SchemaCache} {columns : List ResultColumn}

theorem addField_run : addField provider tables columns f cache =
    (match (expand provider tables f cache).1 with
      | .ok more => more.foldlM (addColumn f.span) columns
      | .error fault => .error fault, (expand provider tables f cache).2) := by
  rw [addField, bind_run]
  cases (expand provider tables f cache).1 <;> rfl

variable (hcache : cache.Faithful provider)
include hcache

theorem faithful_addField (tables : List QueryTable) (columns : List ResultColumn)
    (f : QueryField) : (addField provider tables columns f cache).2.Faithful provider := by
  rw [addField_run]
  exact faithful_expand hcache tables f

theorem addField_of_gives {more : List ResultColumn} (hgives : Gives provider tables f more)
    (hdistinct : Distinct (columns ++ more)) :
    (addField provider tables columns f cache).1 = .ok (columns ++ more) := by
  rw [addField_run, expand_of_gives hcache hgives]
  exact addColumns_of_distinct hdistinct

theorem addField_of_faults {fault : MethodFault} (h : Faults provider tables columns f fault) :
    (addField provider tables columns f cache).1 = .error fault := by
  rw [addField_run]
  cases h with
  | refused hrefuses => rw [expand_of_refuses hcache hrefuses]
  | repeated hgives hbefore htaken =>
    rw [expand_of_gives hcache hgives]
    exact addColumns_of_taken hbefore htaken

theorem addFields_of_give {fields : List QueryField} {parts : List (List ResultColumn)}
    (hparts : List.Forall₂ (Gives provider tables) fields parts)
    (hdistinct : Distinct (columns ++ parts.flatten)) :
    (fields.foldlM (addField provider tables) columns cache).1 =
      .ok (columns ++ parts.flatten) := by
  induction hparts generalizing columns cache with
  | nil =>
    rw [List.flatten_nil, List.append_nil]
    rfl
  | @cons f more fields parts hgives _ ih =>
    rw [List.flatten_cons, ← List.append_assoc] at hdistinct ⊢
    have hmore : Distinct (columns ++ more) := by
      rw [Distinct, List.map_append] at hdistinct
      exact (List.nodup_append.1 hdistinct).1
    rw [List.foldlM_cons, bind_run, addField_of_gives hcache hgives hmore]
    exact ih (faithful_addField hcache tables columns f) hdistinct

theorem faithful_addFields (tables : List QueryTable) (columns : List ResultColumn)
    (fields : List QueryField) :
    (fields.foldlM (addField provider tables) columns cache).2.Faithful provider := by
  induction fields generalizing columns cache with
  | nil => exact hcache
  | cons f fields ih =>
    have hfirst := faithful_addField hcache tables columns f
    rw [List.foldlM_cons, bind_run]
    cases (addField provider tables columns f cache).1 with
    | ok more => exact ih hfirst more
    | error fault => exact hfirst

theorem addFields_of_fault {before after : List QueryField} {parts : List (List ResultColumn)}
    {fault : MethodFault} (hparts : List.Forall₂ (Gives provider tables) before parts)
    (hdistinct : Distinct (columns ++ parts.flatten))
    (hfault : Faults provider tables (columns ++ parts.flatten) f fault) :
    ((before ++ f :: after).foldlM (addField provider tables) columns cache).1 =
      .error fault := by
  have hbefore := faithful_addFields hcache tables columns before
  rw [List.foldlM_append, bind_run, addFields_of_give hcache hparts hdistinct]
  dsimp only
  rw [List.foldlM_cons, bind_run, addField_of_faults hbefore hfault]

end

/-! ## Records -/

section

variable {cache : SchemaCache} {name : Text} {fields : List QueryField}

theorem derive_run : derive provider name fields tables cache =
    ((fields.foldlM (addField provider tables) [] cache).1.map (ResultRecord.mk name),
      (fields.foldlM (addField provider tables) [] cache).2) := by
  rw [derive, bind_run]
  cases (fields.foldlM (addField provider tables) [] cache).1 <;> rfl

/-- Fields behind the first fault change nothing. -/
theorem derive_append {later : List QueryField} {fault : MethodFault}
    (h : (derive provider name fields tables cache).1 = .error fault) :
    derive provider name (fields ++ later) tables cache =
      derive provider name fields tables cache := by
  rw [derive_run] at h
  rw [derive_run, derive_run, List.foldlM_append, bind_run]
  cases hfold : (fields.foldlM (addField provider tables) [] cache).1 with
  | ok columns =>
    rw [hfold] at h
    cases h
  | error _ => rfl

variable (hcache : cache.Faithful provider)
include hcache

theorem derive_of_give {parts : List (List ResultColumn)}
    (hparts : List.Forall₂ (Gives provider tables) fields parts)
    (hdistinct : Distinct parts.flatten) :
    (derive provider name fields tables cache).1 = .ok ⟨name, parts.flatten⟩ := by
  have hfold : (fields.foldlM (addField provider tables) [] cache).1 = .ok parts.flatten :=
    addFields_of_give hcache hparts hdistinct
  rw [derive_run, hfold]
  rfl

theorem derive_of_fault {later : List QueryField} {parts : List (List ResultColumn)}
    {fault : MethodFault} (hparts : List.Forall₂ (Gives provider tables) fields parts)
    (hdistinct : Distinct parts.flatten) (hfault : Faults provider tables parts.flatten f fault) :
    (derive provider name (fields ++ f :: later) tables cache).1 = .error fault := by
  have hfold : ((fields ++ f :: later).foldlM (addField provider tables) [] cache).1 =
      .error fault := addFields_of_fault hcache hparts hdistinct hfault
  rw [derive_run, hfold]
  rfl

theorem faithful_derive : (derive provider name fields tables cache).2.Faithful provider := by
  rw [derive_run]
  exact faithful_addFields hcache tables [] fields

end

/-- **A record is derived exactly from fields that all give columns of distinct names.** Otherwise
the fault is the first one from the left, and neither it nor what is looked up depends on the fields
behind it. -/
theorem derive_outcome (name : Text) (fields : List QueryField) (tables : List QueryTable)
    {cache : SchemaCache} (hcache : cache.Faithful provider) :
    let run := derive provider name fields tables cache
    (∀ record, run.1 = .ok record ↔
      ∃ parts, List.Forall₂ (Gives provider tables) fields parts ∧ Distinct parts.flatten ∧
        record = ⟨name, parts.flatten⟩) ∧
    (∀ fault, run.1 = .error fault ↔
      ∃ before f after parts, fields = before ++ f :: after ∧
        List.Forall₂ (Gives provider tables) before parts ∧ Distinct parts.flatten ∧
        Faults provider tables parts.flatten f fault) ∧
    (∀ before after fault, fields = before ++ after →
      (derive provider name before tables cache).1 = .error fault →
      run = derive provider name before tables cache) ∧
    run.2.Faithful provider := by
  intro run
  have hnone : Distinct [] := List.nodup_nil
  have hcases := give_or_fault provider tables hnone fields
  refine ⟨fun record => ⟨fun h => ?_, ?_⟩, fun fault => ⟨fun h => ?_, ?_⟩, ?_,
    faithful_derive hcache⟩
  · rcases hcases with ⟨parts, hparts, hdistinct⟩ |
      ⟨before, f, after, parts, fault, rfl, hparts, hdistinct, hfault⟩
    · cases (derive_of_give hcache hparts hdistinct).symm.trans h
      exact ⟨parts, hparts, hdistinct, rfl⟩
    · cases (derive_of_fault hcache hparts hdistinct hfault).symm.trans h
  · rintro ⟨parts, hparts, hdistinct, rfl⟩
    exact derive_of_give hcache hparts hdistinct
  · rcases hcases with ⟨parts, hparts, hdistinct⟩ |
      ⟨before, f, after, parts, first, rfl, hparts, hdistinct, hfault⟩
    · cases (derive_of_give hcache hparts hdistinct).symm.trans h
    · cases (derive_of_fault hcache hparts hdistinct hfault).symm.trans h
      exact ⟨before, f, after, parts, rfl, hparts, hdistinct, hfault⟩
  · rintro ⟨before, f, after, parts, rfl, hparts, hdistinct, hfault⟩
    exact derive_of_fault hcache hparts hdistinct hfault
  · rintro before after fault rfl h
    exact derive_append h

/-- The columns of a table that is known to the cache, and a count; then a column comes a second
time, in front of a placeholder. -/
theorem derive_outcome_repeated :
    let key : SchemaColumn := ⟨"id".toList, [], "INT".toList, true, false⟩
    let label : SchemaColumn := ⟨"name".toList, "shown".toList, "TEXT".toList, false, false⟩
    let user : SchemaTable := ⟨"user".toList, [], [key, label]⟩
    let provider := (Schema.ofList [user]).provider
    let cache : SchemaCache := ⟨[(user.name, user)], []⟩
    let all : QueryField := ⟨some user.name, ['*'], none, false, false, ⟨7, 8⟩⟩
    let total : QueryField :=
      ⟨some user.name, "count".toList, some "total".toList, true, false, ⟨10, 18⟩⟩
    let again : QueryField := ⟨some user.name, "name".toList, some "id".toList, false, false,
      ⟨26, 30⟩⟩
    let verbatim : QueryField := .verbatim "1".toList ⟨38, 39⟩
    let columns : List ResultColumn :=
      [⟨"id".toList, "INT".toList, [], "user.id".toList⟩,
        ⟨"name".toList, "TEXT".toList, "shown".toList, "user.name".toList⟩,
        ⟨"total".toList, "BIGINT".toList, [], "count".toList⟩]
    cache.Faithful provider ∧
      (derive provider "Row".toList [all, total] [] cache).1 = .ok ⟨"Row".toList, columns⟩ ∧
      (derive provider "Row".toList [all, total, again, verbatim] [] cache).1 =
        .error ⟨.duplicateResultColumn "id".toList, again.span⟩ := by
  intro key label user provider cache all total again verbatim columns
  have hanswer : provider user.name = .ok user := rfl
  have hcache : cache.Faithful provider := by
    intro name table h
    obtain ⟨rfl, rfl⟩ : user.name = name ∧ user = table := by
      simpa [cache, SchemaCache.find?] using h
    exact hanswer
  have hasks {f : QueryField} (hcount : f.isAggregate = false) (hverbatim : f.isVerbatim = false)
      (htable : f.table = some user.name) : Asks [] f user.name :=
    ⟨hcount, hverbatim, by simp [htable], by simp⟩
  have hgiven : List.Forall₂ (Gives provider []) [all, total] [columns.take 2, columns.drop 2] :=
    .cons (.wildcard (hasks rfl rfl rfl) hanswer rfl) (.cons (.count rfl) .nil)
  have hlabel : user.columns = [key] ++ label :: [] := rfl
  have hagain : Gives provider [] again
      ([] ++ [⟨"id".toList, "TEXT".toList, "shown".toList, "user.name".toList⟩]) :=
    .column (hasks rfl rfl rfl) hanswer rfl hlabel rfl (by decide)
  have hdistinct : Distinct columns := by decide
  refine ⟨hcache, ?_, ?_⟩
  · exact ((derive_outcome "Row".toList [all, total] [] hcache).1 _).2
      ⟨_, hgiven, hdistinct, rfl⟩
  · exact ((derive_outcome "Row".toList [all, total, again, verbatim] [] hcache).2.1 _).2
      ⟨[all, total], again, [verbatim], _, rfl, hgiven, hdistinct,
        .repeated hagain (by decide) (by decide)⟩

end ResultRecord

end QueryTemplate
