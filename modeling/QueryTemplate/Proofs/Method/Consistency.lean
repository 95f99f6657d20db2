import Mathlib.Data.List.Chain
import QueryTemplate.Proofs.Query.Binding
import QueryTemplate.Proofs.Session.Faithful
import QueryTemplate.Proofs.Template.Grammar

/-! # What a compiled method looks like

The parts of a method are put together from its options, its leading keyword, its body and the
schema, each checked on its own. In a method that is compiled they fit together: a mutation has no
fields, tables and record, a query has fields that are bound to its tables, and the record and the
segments are there exactly if the header asks for them.
-/

namespace QueryTemplate

/-! ## Runs that succeed -/

theorem exists_of_bind_run {σ α β : Type} {x : ExceptT MethodFault (StateM σ) α}
    {f : α → ExceptT MethodFault (StateM σ) β} {s s' : σ} {b : β}
    (h : (x >>= f) s = (.ok b, s')) : ∃ a t, x s = (.ok a, t) ∧ f a t = (.ok b, s') := by
  rw [bind_run] at h
  rcases hx : x s with ⟨_ | a, t⟩
  · rw [hx] at h
    cases h
  · rw [hx] at h
    exact ⟨a, t, rfl, h⟩

theorem eq_ok_of_outcome_run {σ α : Type} {x : Except MethodFault α} {s s' : σ} {a : α}
    (h : (ExceptT.mk (pure x) : ExceptT MethodFault (StateM σ) α) s = (.ok a, s')) :
    x = .ok a ∧ s = s' :=
  Prod.mk.inj h

/-- What a step keeps, a fold that succeeds keeps. -/
theorem foldlM_run_keeps {σ α β : Type} {f : β → α → ExceptT MethodFault (StateM σ) β}
    {P : β → Prop} (hstep : ∀ b a s b' s', P b → f b a s = (.ok b', s') → P b') {xs : List α}
    {b b' : β} {s s' : σ} (hb : P b) (h : xs.foldlM f b s = (.ok b', s')) : P b' := by
  induction xs generalizing b s with
  | nil =>
    cases h
    exact hb
  | cons x xs ih =>
    rw [List.foldlM_cons] at h
    obtain ⟨c, t, hc, h⟩ := exists_of_bind_run h
    exact ih (hstep _ _ _ _ _ hb hc) h

/-! ## Options -/

def OptionKey.IsWritten (key : OptionKey) (written : List WrittenOption) : Prop :=
  ∃ w ∈ written, w.key = key.text

theorem OptionKey.ofText?_eq_some_iff {word : Text} {key : OptionKey} :
    ofText? word = some key ↔ word = key.text := by
  constructor
  · intro h
    exact (eq_of_beq (List.find?_some (p := fun k : OptionKey => k.text == word) h)).symm
  · rintro rfl
    cases key <;> decide

namespace MethodOptions

/-- Setting an option gives it a place and leaves the places of the others. -/
theorem isSome_spanOf_set {options options' : MethodOptions} {key : OptionKey} {w : WrittenOption}
    (h : options.set key w = .ok options') (other : OptionKey) :
    (options'.spanOf other).isSome ↔ other = key ∨ (options.spanOf other).isSome := by
  obtain ⟨_, value, _⟩ := w
  cases key <;> cases value <;> simp only [set] at h
  all_goals (try split at h) <;> cases h
  all_goals cases other <;> simp [spanOf]

theorem isSome_spanOf_add {options options' : MethodOptions} {w : WrittenOption}
    (h : options.add w = .ok options') (key : OptionKey) :
    (options'.spanOf key).isSome ↔ w.key = key.text ∨ (options.spanOf key).isSome := by
  rw [add] at h
  split at h
  · cases h
  · rename_i found hkey
    split_ifs at h with hrepeated
    cases hset : options.set found w with
    | error flaw =>
      rw [hset] at h
      cases h
    | ok set =>
      rw [hset] at h
      cases h
      rw [isSome_spanOf_set hset, ← OptionKey.ofText?_eq_some_iff, hkey, Option.some.injEq,
        eq_comm (a := key)]

/-- An option is decoded exactly if it is written. -/
theorem isSome_spanOf_decode {written : List WrittenOption} {options : MethodOptions}
    (h : decode written = .ok options) (key : OptionKey) :
    (options.spanOf key).isSome ↔ key.IsWritten written := by
  suffices hfold : ∀ {start : MethodOptions}, written.foldlM add start = .ok options →
      ((options.spanOf key).isSome ↔ key.IsWritten written ∨ (start.spanOf key).isSome) by
    rw [hfold h]
    cases key <;> simp [empty, spanOf]
  clear h
  intro start h
  induction written generalizing start with
  | nil =>
    cases h
    simp [OptionKey.IsWritten]
  | cons w written ih =>
    rw [List.foldlM_cons] at h
    obtain ⟨next, hnext, h⟩ := Checked.bind_eq_ok h
    rw [ih h, isSome_spanOf_add hnext, OptionKey.IsWritten, OptionKey.IsWritten,
      List.exists_mem_cons_iff, or_left_comm, or_assoc]

end MethodOptions

/-! ## Bodies -/

namespace Segment

/-- Whether segments alternate as those of a template do: constant text is not empty, and there
is a dynamic segment between any two constant texts. -/
structure Alternate (segments : List Segment) : Prop where
  constants : ∀ s, constant s ∈ segments → s.text ≠ []
  between : segments.IsChain fun a b => a.isDynamic ∨ b.isDynamic

theorem alternate_ofConstant (s : Statement) : Alternate (ofConstant s) := by
  rw [ofConstant]
  split_ifs with hempty
  · exact ⟨by simp, .nil⟩
  · refine ⟨fun t ht => ?_, .singleton _⟩
    cases List.mem_singleton.1 ht
    simpa [Statement.isEmpty] using hempty

theorem alternate_of_yields {markers : Markers} {blocks : List TemplateBlock} {last : Text}
    {segments : List Segment} (h : TemplateBlock.Yields markers blocks last segments) :
    Alternate segments := by
  induction h with
  | last _ => exact alternate_ofConstant _
  | @block b _ _ lead body segments _ _ _ ih =>
    have hdynamic := isDynamic_segment b.opening body
    have hblock : Alternate (b.opening.segment body :: segments) := by
      refine ⟨fun s hs => ?_, ?_⟩
      · rcases List.mem_cons.1 hs with heq | hs
        · rw [← heq] at hdynamic
          cases hdynamic
        · exact ih.constants s hs
      · exact ih.between.cons fun _ _ => .inl hdynamic
    refine ⟨fun s hs => ?_, ?_⟩
    · rcases List.mem_append.1 hs with hs | hs
      · exact (alternate_ofConstant lead).constants s hs
      · exact hblock.constants s hs
    · refine (alternate_ofConstant lead).between.append hblock.between fun a _ c hc => .inr ?_
      cases hc
      exact hdynamic

/-- The segments of a template that is divided: one is dynamic, and they alternate. -/
theorem alternate_of_divide {markers : Markers} {source : Fragment} {segments : List Segment}
    (h : divide markers source = .ok segments) :
    (∃ segment ∈ segments, segment.isDynamic) ∧ Alternate segments := by
  obtain ⟨hparts, hany⟩ := divide_eq_ok_iff_parts.1 h
  obtain ⟨blocks, last, -, -, -, hyields⟩ := grammar_of_parts hparts
  exact ⟨List.any_eq_true.1 hany, alternate_of_yields hyields⟩

end Segment

/-! ## Result records -/

namespace ResultRecord

abbrev Distinct (columns : List ResultColumn) : Prop := (columns.map ResultColumn.name).Nodup

theorem distinct_concat_iff {columns : List ResultColumn} {column : ResultColumn} :
    Distinct (columns ++ [column]) ↔
      Distinct columns ∧ column.name ∉ columns.map ResultColumn.name := by
  simp [Distinct, List.nodup_append]

theorem addColumns_of_distinct {span : Span} {columns more : List ResultColumn}
    (h : Distinct (columns ++ more)) :
    more.foldlM (addColumn span) columns = .ok (columns ++ more) := by
  induction more using List.reverseRecOn with
  | nil =>
    rw [List.append_nil]
    rfl
  | append_singleton more column ih =>
    rw [← List.append_assoc] at h ⊢
    obtain ⟨hmore, hnew⟩ := distinct_concat_iff.1 h
    have hcolumn : (columns ++ more).any (·.name == column.name) = false := by simpa using hnew
    rw [List.foldlM_append, ih hmore]
    change addColumn span (columns ++ more) column >>= pure = _
    rw [addColumn, hcolumn]
    rfl

theorem addColumns_of_taken {span : Span} {columns before after : List ResultColumn}
    {column : ResultColumn} (h : Distinct (columns ++ before))
    (htaken : column.name ∈ (columns ++ before).map ResultColumn.name) :
    (before ++ column :: after).foldlM (addColumn span) columns =
      .error ⟨.duplicateResultColumn column.name, span⟩ := by
  have hcolumn : (columns ++ before).any (·.name == column.name) = true := by simpa using htaken
  rw [List.foldlM_append, addColumns_of_distinct h]
  change ((column :: after).foldlM (addColumn span) (columns ++ before) : Except _ _) = _
  rw [List.foldlM_cons, addColumn, hcolumn]
  rfl

/-- Columns have distinct names, or there is a first one whose name is taken. -/
theorem distinct_or_taken {columns : List ResultColumn} (h : Distinct columns)
    (more : List ResultColumn) : Distinct (columns ++ more) ∨
      ∃ before column after, more = before ++ column :: after ∧ Distinct (columns ++ before) ∧
        column.name ∈ (columns ++ before).map ResultColumn.name := by
  induction more using List.reverseRecOn with
  | nil => exact .inl (by rwa [List.append_nil])
  | append_singleton more column ih =>
    rcases ih with hmore | ⟨before, first, after, rfl, hbefore, htaken⟩
    · by_cases hcolumn : column.name ∈ (columns ++ more).map ResultColumn.name
      · exact .inr ⟨more, column, [], rfl, hmore, hcolumn⟩
      · rw [← List.append_assoc]
        exact .inl (distinct_concat_iff.2 ⟨hmore, hcolumn⟩)
    · exact .inr ⟨before, first, after ++ [column], by simp, hbefore, htaken⟩

theorem distinct_of_addColumns {span : Span} {columns more found : List ResultColumn}
    (hcolumns : Distinct columns) (h : more.foldlM (addColumn span) columns = .ok found) :
    Distinct found := by
  rcases distinct_or_taken hcolumns more with
    hdistinct | ⟨before, column, after, rfl, hbefore, htaken⟩
  · cases (addColumns_of_distinct hdistinct).symm.trans h
    exact hdistinct
  · cases (addColumns_of_taken hbefore htaken).symm.trans h

/-- A record that is derived has the name asked for, and its columns have distinct names. -/
theorem distinct_of_derive {provider : Provider} {name : Text} {fields : List QueryField}
    {tables : List QueryTable} {record : ResultRecord} {cache cache' : SchemaCache}
    (h : derive provider name fields tables cache = (.ok record, cache')) :
    record.name = name ∧ Distinct record.columns := by
  obtain ⟨columns, t, hcolumns, h⟩ := exists_of_bind_run h
  cases h
  have hnone : Distinct [] := List.nodup_nil
  refine ⟨rfl, foldlM_run_keeps (fun b field s b' s' hb hstep => ?_) hnone hcolumns⟩
  obtain ⟨more, t, -, hadd⟩ := exists_of_bind_run hstep
  exact distinct_of_addColumns hb (congrArg Prod.fst hadd)

end ResultRecord

/-! ## Methods -/

/-- What a statement yields and what its method returns go together: a mutation is never automatic,
and an automatic query returns a record that is named. -/
theorem MethodOptions.cases_of_classify {options : MethodOptions} {keyword : Located Keyword}
    {kind : StatementKind} {returned : ReturnType}
    (h : options.classify keyword = .ok (kind, returned)) :
    (∃ exec, kind = .mutation exec ∧ returned = ⟨exec.element, false⟩ ∧ options.auto = none) ∨
    (kind = (if returned.isCollection then .multiRow else .singleRow) ∧
      returned.element ≠ .execResult ∧
      (options.auto.isSome → ∃ name, returned.element = .named name)) := by
  rw [classify] at h
  split_ifs at h
  · left
    rw [classifyMutation] at h
    split at h
    · cases h
    · rename_i hauto
      dsimp only at h
      split at h
      · cases h
        exact ⟨_, rfl, rfl, hauto⟩
      · split_ifs at h
        cases h
        exact ⟨_, rfl, rfl, hauto⟩
  · right
    rw [classifyQuery] at h
    split at h
    · cases h
    · dsimp only at h
      split at h
      · cases h
      · rename_i helement
        by_cases hauto : options.auto.isSome
        · rw [if_pos hauto] at h
          cases h
        · rw [if_neg hauto] at h
          cases h
          exact ⟨rfl, by simp [helement], fun hsome => absurd hsome hauto⟩
      · rename_i name helement
        cases h
        exact ⟨rfl, by simp [helement], fun _ => ⟨name, helement⟩⟩

/-- A compiled method with a mutation of the given kind. -/
structure Method.Executes (m : Method) (exec : ExecKind) : Prop where
  fields : m.fields = []
  tables : m.tables = []
  record : m.resultRecord = none
  returns : m.returns = some ⟨exec.element, false⟩

/-- A compiled method with a query whose rows are returned as the given type. -/
structure Method.Selects (m : Method) (returned : ReturnType) : Prop where
  fields : m.fields ≠ []
  tables : m.tables ≠ []
  bound : ∀ f ∈ m.fields, ∃ t ∈ m.tables, f.table = some t.name
  returns : m.returns = some returned
  element : returned.element ≠ .execResult
  multiRow : m.kind = .multiRow ↔ returned.isCollection

/-- The parts of a method fit together and are those that its header asks for. -/
structure Method.IsConsistent (written : List WrittenOption) (m : Method) : Prop where
  isMutation : m.isMutation ↔ ∃ exec, m.kind = .mutation exec
  mutation : ∀ exec, m.kind = .mutation exec → m.Executes exec
  query : m.isMutation = false → ∃ returned, m.Selects returned
  record : m.resultRecord.isSome ↔ OptionKey.auto.IsWritten written
  columns : ∀ record, m.resultRecord = some record → ResultRecord.Distinct record.columns ∧
    ∃ isCollection, m.returns = some ⟨.named record.name, isCollection⟩
  dynamic : (∃ segments, m.body = .dynamic segments) ↔ OptionKey.dynamic.IsWritten written
  segments : ∀ segments, m.body = .dynamic segments →
    (∃ segment ∈ segments, segment.isDynamic) ∧ Segment.Alternate segments

namespace Compiler

theorem cases_of_methodBody {markers : Markers} {isDynamic : Bool} {source : Fragment}
    {body : MethodBody} (h : methodBody markers isDynamic source = .ok body) :
    ((∃ segments, body = .dynamic segments) ↔ isDynamic) ∧
      ∀ segments, body = .dynamic segments →
        (∃ segment ∈ segments, segment.isDynamic) ∧ Segment.Alternate segments := by
  rw [methodBody] at h
  split_ifs at h with hdynamic
  · obtain ⟨segments, hsegments, rfl⟩ := Checked.map_eq_ok h
    refine ⟨⟨fun _ => hdynamic, fun _ => ⟨segments, rfl⟩⟩, fun _ heq => ?_⟩
    cases heq
    exact Segment.alternate_of_divide hsegments
  · split at h
    · cases h
    · obtain ⟨statement, -, rfl⟩ := Checked.map_eq_ok h
      exact ⟨⟨fun ⟨_, heq⟩ => (nomatch heq), fun htrue => absurd htrue hdynamic⟩,
        fun _ heq => (nomatch heq)⟩

theorem cases_of_statementShape {kind : StatementKind} {source : Fragment} {shape : QueryShape}
    (h : statementShape kind source = .ok shape) :
    (kind.isMutation → shape = .empty) ∧ (kind.isMutation = false → shape.IsBound) := by
  rw [statementShape] at h
  split_ifs at h with hmutation
  · cases h
    exact ⟨fun _ => rfl, fun hquery => absurd hmutation (by simp [hquery])⟩
  · exact ⟨fun htrue => absurd htrue hmutation, fun _ => Query.isBound_of_shape h⟩

/-- Deriving a record touches the cache only; it is done exactly for an automatic method. -/
theorem cases_of_resultRecord {compiler : Compiler} {auto : Option Span} {returned : ReturnType}
    {shape : QueryShape} {record : Option ResultRecord} {s s' : Session}
    (h : compiler.resultRecord auto returned shape s = (.ok record, s')) :
    (record.isSome ↔ auto.isSome) ∧ s'.names = s.names ∧ ∀ found, record = some found →
      found.name = returned.element.text ∧ ResultRecord.Distinct found.columns := by
  unfold resultRecord at h
  cases auto with
  | none =>
    cases h
    exact ⟨Iff.rfl, rfl, fun _ heq => (nomatch heq)⟩
  | some span =>
    cases hprovider : compiler.provider with
    | none =>
      rw [hprovider] at h
      cases h
    | some provider =>
      rw [hprovider] at h
      rcases hderive : ResultRecord.derive provider returned.element.text shape.fields shape.tables
        s.cache with ⟨_ | found, cache⟩
      · simp only [ExceptT.run, StateT.run, hderive] at h
        cases h
      · simp only [ExceptT.run, StateT.run, hderive] at h
        cases h
        refine ⟨by simp, rfl, fun _ heq => ?_⟩
        cases heq
        exact ResultRecord.distinct_of_derive hderive

theorem names_of_warnExec {options : MethodOptions} {keyword : Keyword} {s s' : Session} {u : Unit}
    (h : warnExec options keyword s = (.ok u, s')) : s'.names = s.names := by
  unfold warnExec at h
  cases hexec : options.exec with
  | none =>
    rw [hexec] at h
    cases h
    rfl
  | some exec =>
    rw [hexec] at h
    dsimp only at h
    split_ifs at h <;> cases h <;> rfl

theorem eq_ok_of_inTemplate {α : Type} {x : Checked α} {s s' : Session} {a : α}
    (h : inTemplate x s = (.ok a, s')) : x = .ok a ∧ s = s' := by
  cases x with
  | error _ => cases h
  | ok _ =>
    cases h
    exact ⟨rfl, rfl⟩

/-- What it takes for a method to be compiled: its name is new and taken from then on, and each of
its parts is in order. -/
theorem exists_of_compileMethod {compiler : Compiler} {source : MethodSource} {m : Method}
    {s s' : Session} (h : compiler.compileMethod source s = (.ok m, s')) :
    s.names.find? (·.1 == source.name.qualified) = none ∧
    s'.names = (source.name.qualified, source.nameSpan) :: s.names ∧
    ∃ options keyword kind returned body shape record, ∃ t t' : Session,
      MethodOptions.decode source.options = .ok options ∧
      options.classify keyword = .ok (kind, returned) ∧
      methodBody compiler.markers options.dynamic.isSome source.body = .ok body ∧
      statementShape kind source.body = .ok shape ∧
      compiler.resultRecord options.auto returned shape t = (.ok record, t') ∧
      m = ⟨source.name, kind.isMutation, kind, body, shape.fields, shape.tables,
        options.exec.map (·.value.tag), some returned, record, source.span⟩ := by
  obtain ⟨options, _, hoptions, h⟩ := exists_of_bind_run h
  obtain ⟨hdecode, rfl⟩ := eq_ok_of_outcome_run hoptions
  obtain ⟨_, named, hname, h⟩ := exists_of_bind_run h
  by_cases hblank : Text.isBlank source.body.text
  · rw [if_pos hblank] at h
    cases h
  · rw [if_neg hblank] at h
    obtain ⟨keyword, _, hkeyword, h⟩ := exists_of_bind_run h
    obtain ⟨-, rfl⟩ := eq_ok_of_inTemplate hkeyword
    obtain ⟨_, warned, hwarn, h⟩ := exists_of_bind_run h
    obtain ⟨⟨kind, returned⟩, _, hkind, h⟩ := exists_of_bind_run h
    obtain ⟨hclassify, rfl⟩ := eq_ok_of_outcome_run hkind
    obtain ⟨body, _, hrun, h⟩ := exists_of_bind_run h
    obtain ⟨hbody, rfl⟩ := eq_ok_of_inTemplate hrun
    obtain ⟨shape, _, hrun, h⟩ := exists_of_bind_run h
    obtain ⟨hshape, rfl⟩ := eq_ok_of_inTemplate hrun
    obtain ⟨record, derived, hrecord, h⟩ := exists_of_bind_run h
    cases h
    have hderived := (cases_of_resultRecord hrecord).2.1
    have hwarned := names_of_warnExec hwarn
    rw [takeName_run] at hname
    split at hname
    · cases hname
    · rename_i hfree
      cases hname
      exact ⟨hfree, hderived.trans hwarned, options, keyword, kind, returned, body, shape, record,
        warned, _, hdecode, hclassify, hbody, hshape, hrecord, rfl⟩

/-- **Every compiled method is consistent** with itself and with its header. -/
theorem isConsistent_of_compileMethod {compiler : Compiler} {source : MethodSource} {m : Method}
    {s s' : Session} (h : compiler.compileMethod source s = (.ok m, s')) :
    m.IsConsistent source.options := by
  obtain ⟨-, -, options, keyword, kind, returned, body, shape, record, t, t', hdecode, hclassify,
    hbody, hshape, hrecord, rfl⟩ := exists_of_compileMethod h
  obtain ⟨hsome, -, hfound⟩ := cases_of_resultRecord hrecord
  obtain ⟨hdynamic, hsegments⟩ := cases_of_methodBody hbody
  obtain ⟨hempty, hbound⟩ := cases_of_statementShape hshape
  have hkind := MethodOptions.cases_of_classify hclassify
  have hauto : record.isSome ↔ OptionKey.auto.IsWritten source.options :=
    hsome.trans (MethodOptions.isSome_spanOf_decode hdecode .auto)
  refine
    { isMutation := ?_, mutation := ?_, query := ?_, record := hauto, columns := ?_,
      dynamic := hdynamic.trans (MethodOptions.isSome_spanOf_decode hdecode .dynamic),
      segments := hsegments }
  · cases kind <;> simp [StatementKind.isMutation]
  · rintro exec rfl
    obtain ⟨_, hexec, rfl, hnone⟩ | ⟨hquery, -⟩ := hkind
    · cases hexec
      obtain rfl := hempty rfl
      refine ⟨rfl, rfl, ?_, rfl⟩
      rw [hnone] at hsome
      simpa using hsome
    · split_ifs at hquery
  · intro hquery
    obtain ⟨exec, rfl, -⟩ | ⟨hrows, helement, -⟩ := hkind
    · cases hquery
    · have hshape := hbound hquery
      refine ⟨returned, hshape.fields, hshape.tables, hshape.bound, rfl, helement, ?_⟩
      dsimp only
      rw [hrows]
      split_ifs with hcollection <;> simp [hcollection]
  · intro found heq
    obtain ⟨hname, hdistinct⟩ := hfound found heq
    have hautomatic : options.auto.isSome := hsome.1 (by simp [show record = some found from heq])
    obtain ⟨exec, -, -, hnone⟩ | ⟨-, -, hnamed⟩ := hkind
    · rw [hnone] at hautomatic
      cases hautomatic
    · obtain ⟨name, helement⟩ := hnamed hautomatic
      rw [helement] at hname
      have hfoundName : found.name = name := hname
      have hreturned : returned = ⟨.named found.name, returned.isCollection⟩ := by
        rw [hfoundName, ← helement]
      exact ⟨hdistinct, returned.isCollection, congrArg some hreturned⟩

end Compiler

end QueryTemplate
