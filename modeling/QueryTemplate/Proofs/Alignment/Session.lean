import QueryTemplate.Proofs.Alignment.Method

/-! # Runs of sessions

A compilation is a run: it ends with an outcome and a state, and a fault leaves a state behind as
well. Two runs simulate each other if related states lead to aligned outcomes and related states.
Sessions are related if the second one knows the names of the first and further ones, which were
taken before by others, and if the caches are related; what relates caches is left open as long as
looking up a table keeps it and gives one answer.
-/

namespace QueryTemplate

/-! ## Result records -/

/-- Looking up a table in related caches gives one answer and leaves related caches behind. -/
def SchemaCache.KeptBy (provider : Provider) (R : SchemaCache → SchemaCache → Prop) : Prop :=
  ∀ name cache cache', R cache cache' →
    (describe provider name cache).1 = (describe provider name cache').1 ∧
      R (describe provider name cache).2 (describe provider name cache').2

instance : Alignable (Except SchemaCause SchemaTable) := .plain

namespace ResultRecord

variable {A : Alignment} {R : SchemaCache → SchemaCache → Prop} {provider : Provider}

theorem any_verbatim_eq {tables tables' : List QueryTable} (h : Aligned A tables tables')
    (name : Text) : (tables.any fun t => t.isVerbatim && t.name == name) =
      tables'.any fun t => t.isVerbatim && t.name == name := by
  induction h with
  | nil => rfl
  | cons h _ ih => rw [List.any_cons, List.any_cons, h.isVerbatim, h.name, ih]

theorem simulates_describe (hR : SchemaCache.KeptBy provider R) (name : Text) :
    Simulates (Aligned A) (Aligned A) R (liftM (SchemaCache.describe provider name) : Derivation _)
      (liftM (SchemaCache.describe provider name)) :=
  fun _ _ hs => ⟨.ok (hR name _ _ hs).1, (hR name _ _ hs).2⟩

theorem simulates_expand (hR : SchemaCache.KeptBy provider R) {tables tables' : List QueryTable}
    (htables : Aligned A tables tables') {field field' : QueryField}
    (hfield : Aligned A field field') :
    Simulates (Aligned A) (Aligned A) R (expand provider tables field)
      (expand provider tables' field') := by
  unfold expand
  simp only [QueryField.outputName, QueryField.isWildcard, hfield.table, hfield.name,
    hfield.aliasName, hfield.isAggregate, hfield.isVerbatim, any_verbatim_eq htables]
  have hfault {cause : MethodCause} (hcause : Aligned A cause cause) :
      Aligned A (⟨cause, field.span⟩ : MethodFault) ⟨cause, field'.span⟩ := ⟨hcause, hfield.span⟩
  refine .ite (fun _ => .pure rfl) fun _ => .ite (fun _ => .throw_bind (hfault rfl) _ _) fun _ => ?_
  refine .ite (fun _ => .throw_bind (hfault rfl) _ _) fun _ => ?_
  refine .bind (simulates_describe hR _) fun answer answer' hanswer => ?_
  obtain rfl : answer = answer' := hanswer
  cases answer with
  | error cause => exact .throw (hfault rfl)
  | ok table =>
    refine .ite (fun _ => .pure rfl) fun _ => ?_
    split
    · exact .pure rfl
    · exact .throw (hfault rfl)

theorem simulates_addField (hR : SchemaCache.KeptBy provider R) {tables tables' : List QueryTable}
    (htables : Aligned A tables tables') (columns : List ResultColumn) {field field' : QueryField}
    (hfield : Aligned A field field') :
    Simulates (Aligned A) (Aligned A) R (addField provider tables columns field)
      (addField provider tables' columns field') := by
  refine .bind (simulates_expand hR htables hfield) fun more more' hmore => ?_
  obtain rfl : more = more' := hmore
  refine .ofOutcome ?_
  induction more generalizing columns with
  | nil => exact .ok rfl
  | cons column more ih =>
    rw [List.foldlM_cons, List.foldlM_cons]
    refine aligned_bind (aligned_ite (fun _ => .error ⟨rfl, hfield.span⟩) fun _ => .ok rfl) ?_
    intro added added' hadded
    obtain rfl : added = added' := hadded
    exact ih _

theorem simulates_derive (hR : SchemaCache.KeptBy provider R) (name : Text)
    {fields fields' : List QueryField} (hfields : Aligned A fields fields')
    {tables tables' : List QueryTable} (htables : Aligned A tables tables') :
    Simulates (Aligned A) (Aligned A) R (derive provider name fields tables)
      (derive provider name fields' tables') := by
  refine .bind (.foldlM hfields (fun b b' _ _ hb hf => ?_) rfl) fun columns columns' h => ?_
  · obtain rfl : b = b' := hb
    exact simulates_addField hR htables b hf
  · exact .pure (congrArg (ResultRecord.mk name) h)

end ResultRecord

/-! ## Sessions -/

/-- The first session knows `own` names only, the second one knows them and others that were
taken before, and the caches are related. The warnings are left open. -/
structure Session.Alike (A : Alignment) (R : SchemaCache → SchemaCache → Prop) (own : Text → Prop)
    (s s' : Session) : Prop where
  known : ∀ entry ∈ s.names, own entry.1
  names : ∃ names taken, s'.names = names ++ taken ∧ Aligned A s.names names ∧
    ∀ entry ∈ taken, ¬own entry.1
  cache : R s.cache s'.cache

namespace Compiler

variable {A : Alignment} {R : SchemaCache → SchemaCache → Prop} {own : Text → Prop}

theorem aligned_find? {names names' : List (Text × Span)} (h : Aligned A names names')
    (name : Text) :
    Aligned A (names.find? (·.1 == name)) (names'.find? (·.1 == name)) := by
  induction h with
  | nil => exact .none
  | @cons x x' _ _ h _ ih =>
    have hname : x.1 = x'.1 := h.1
    rw [List.find?_cons, List.find?_cons, hname]
    split
    · exact .some h
    · exact ih

theorem takeName_run (source : MethodSource) (s : Session) :
    takeName source s = match s.names.find? (·.1 == source.name.qualified) with
      | some (_, first) =>
        (.error ⟨.duplicateMethod source.name.qualified first, source.nameSpan⟩, s)
      | none =>
        (.ok (), { s with names := (source.name.qualified, source.nameSpan) :: s.names }) := by
  have hget : takeName source s = (match s.names.find? (·.1 == source.name.qualified) with
      | some (_, first) => throw ⟨.duplicateMethod source.name.qualified first, source.nameSpan⟩
      | none => modify fun s =>
        { s with names := (source.name.qualified, source.nameSpan) :: s.names } : Compile Unit) s :=
    rfl
  rw [hget]
  generalize s.names.find? (·.1 == source.name.qualified) = found
  cases found <;> rfl

theorem simulates_takeName {source source' : MethodSource} (h : Aligned A source source')
    (hown : own source.name.qualified) :
    Simulates (Aligned A) (Aligned A) (Session.Alike A R own) (takeName source)
      (takeName source') := by
  intro s s' hs
  obtain ⟨names, taken, hnames, haligned, htaken⟩ := hs.names
  have hname : source.name.qualified = source'.name.qualified := by rw [h.name]
  have hfind : s'.names.find? (·.1 == source.name.qualified) =
      names.find? (·.1 == source.name.qualified) := by
    have hnone : taken.find? (·.1 == source.name.qualified) = none := by
      refine List.find?_eq_none.2 fun entry hentry heq => htaken entry hentry ?_
      rw [eq_of_beq heq]
      exact hown
    rw [hnames, List.find?_append, hnone, Option.or_none]
  have hfound := aligned_find? haligned source.name.qualified
  rw [takeName_run, takeName_run, ← hname, hfind]
  generalize s.names.find? (·.1 == source.name.qualified) = found,
    names.find? (·.1 == source.name.qualified) = found' at hfound
  cases hfound with
  | none =>
    have hknown : ∀ entry ∈ (source.name.qualified, source.nameSpan) :: s.names, own entry.1 := by
      intro entry hentry
      rcases List.mem_cons.1 hentry with rfl | hentry
      · exact hown
      · exact hs.known entry hentry
    refine ⟨.ok rfl, hknown, ⟨(source.name.qualified, source'.nameSpan) :: names, taken, ?_, ?_,
      htaken⟩, hs.cache⟩
    · exact congrArg ((source.name.qualified, source'.nameSpan) :: ·) hnames
    · exact .cons ⟨rfl, h.nameSpan⟩ haligned
  | some hentry => exact ⟨.error ⟨⟨rfl, hentry.2⟩, h.nameSpan⟩, hs⟩

theorem simulates_warnExec {options options' : MethodOptions} (h : Aligned A options options')
    (keyword : Keyword) :
    Simulates (Aligned A) (Aligned A) (Session.Alike A R own) (warnExec options keyword)
      (warnExec options' keyword) := by
  have hexec := h.exec
  unfold warnExec
  generalize options.exec = exec, options'.exec = exec' at hexec
  cases hexec with
  | none => exact .pure rfl
  | some _ =>
    refine .ite (fun _ => .pure rfl) fun _ => ?_
    exact fun s s' hs => ⟨.ok rfl, hs.known, hs.names, hs.cache⟩

theorem simulates_resultRecord {compiler : Compiler}
    (hR : ∀ provider, compiler.provider = some provider → SchemaCache.KeptBy provider R)
    {auto auto' : Option Span} (hauto : Aligned A auto auto') (returns : ReturnType)
    {shape shape' : QueryShape} (hshape : Aligned A shape shape') :
    Simulates (Aligned A) (Aligned A) (Session.Alike A R own)
      (compiler.resultRecord auto returns shape) (compiler.resultRecord auto' returns shape') := by
  unfold resultRecord
  cases hauto with
  | none => exact .pure rfl
  | some hspan =>
    cases hprovider : compiler.provider with
    | none => exact .throw ⟨rfl, hspan⟩
    | some provider =>
      intro s s' hs
      have hderive := ResultRecord.simulates_derive (hR provider hprovider) returns.element.text
        hshape.fields hshape.tables s.cache s'.cache hs.cache
      exact ⟨aligned_map hderive.1 fun _ _ h => congrArg some h, hs.known, hs.names, hderive.2⟩

theorem simulates_inTemplate {α : Type} [Alignable α] {x x' : Checked α} (h : Aligned A x x') :
    Simulates (Aligned A) (Aligned A) (Session.Alike A R own) (inTemplate x) (inTemplate x') :=
  .ofOutcome (aligned_mapError h fun _ _ => TemplateFault.aligned_inMethod)

theorem simulates_compileMethod {compiler : Compiler}
    (hR : ∀ provider, compiler.provider = some provider → SchemaCache.KeptBy provider R)
    {source source' : MethodSource} (h : Aligned A source source')
    (hown : own source.name.qualified) :
    Simulates (Aligned A) (Aligned A) (Session.Alike A R own) (compiler.compileMethod source)
      (compiler.compileMethod source') := by
  have hdecode := MethodOptions.aligned_decode h.options
  refine .bind (.ofOutcome hdecode) fun options options' hoptions => ?_
  refine .bind (simulates_takeName h hown) fun _ _ _ => ?_
  rw [← h.body.text, ← h.name]
  refine .ite (fun _ => .throw_bind ⟨rfl, h.headerSpan⟩ _ _) fun _ => ?_
  have hkeyword := Query.aligned_leadingKeyword .sql h.body h.slice
  refine .bind (simulates_inTemplate hkeyword) fun keyword keyword' hkeyword => ?_
  rw [show keyword.value = keyword'.value from hkeyword.value]
  refine .bind (simulates_warnExec hoptions _) fun _ _ _ => ?_
  refine .bind (.ofOutcome (MethodOptions.aligned_classify hoptions hkeyword)) fun c c' hc => ?_
  obtain rfl : c = c' := hc
  obtain ⟨kind, returns⟩ := c
  dsimp only
  rw [aligned_isSome hoptions.dynamic]
  refine .bind (simulates_inTemplate (aligned_methodBody _ _ h.body h.bodyStart)) fun b b' hb => ?_
  obtain rfl : b = b' := hb
  have hshape := aligned_statementShape kind h.body h.slice
  refine .bind (simulates_inTemplate hshape) fun shape shape' hshape => ?_
  refine .bind (simulates_resultRecord hR hoptions.auto returns hshape) fun r r' hr => ?_
  obtain rfl : r = r' := hr
  have htag := congrArg (Option.map ExecKind.tag) (MethodOptions.execKind_eq hoptions)
  rw [Option.map_map, Option.map_map] at htag
  refine .pure ⟨rfl, rfl, rfl, rfl, hshape.fields, hshape.tables, htag, rfl, rfl, ?_⟩
  exact h.headerSpan.merge ⟨h.bodyStart, h.body.stop⟩

end Compiler

end QueryTemplate
