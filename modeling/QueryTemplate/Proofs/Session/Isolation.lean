import QueryTemplate.Proofs.Session.History

/-! # What a cache hides

The descriptions that a session has looked up before show in nothing that a run returns. From two
sessions that have the same names and the same warnings, each with a cache that is faithful to the
provider, a run has one outcome, and it leaves two such sessions behind: so the warnings of a file
are its own as well, not only its methods.
-/

namespace QueryTemplate

/-- The sessions have the same names and the same warnings, and their caches are faithful. -/
structure Compiler.UpToCache (compiler : Compiler) (s s' : Session) : Prop where
  names : s.names = s'.names
  warnings : s.warnings = s'.warnings
  trusts : compiler.Trusts s.cache
  trusts' : compiler.Trusts s'.cache

/-- Whether a run has one outcome from any two sessions that are the same up to their caches, and
leaves such sessions behind. -/
def Compile.IgnoresCache {α : Type} (compiler : Compiler) (x : Compile α) : Prop :=
  ∀ s s', compiler.UpToCache s s' → (x s).1 = (x s').1 ∧ compiler.UpToCache (x s).2 (x s').2

namespace Compile.IgnoresCache

variable {compiler : Compiler} {α β : Type}

theorem ofOutcome (x : Except MethodFault α) :
    IgnoresCache compiler (ExceptT.mk (Pure.pure x) : Compile α) :=
  fun _ _ hs => ⟨rfl, hs⟩

theorem pure (a : α) : IgnoresCache compiler (Pure.pure a : Compile α) :=
  fun _ _ hs => ⟨rfl, hs⟩

theorem throw (fault : MethodFault) :
    IgnoresCache compiler (MonadExcept.throw fault : Compile α) :=
  fun _ _ hs => ⟨rfl, hs⟩

theorem throw_bind (fault : MethodFault) (f : α → Compile β) :
    IgnoresCache compiler (MonadExcept.throw fault >>= f) :=
  fun _ _ hs => ⟨rfl, hs⟩

theorem bind {x : Compile α} {f : α → Compile β} (hx : IgnoresCache compiler x)
    (hf : ∀ a, IgnoresCache compiler (f a)) : IgnoresCache compiler (x >>= f) := by
  intro s s' hs
  obtain ⟨houtcome, hleft⟩ := hx s s' hs
  rw [bind_run, bind_run, houtcome]
  cases (x s').1 with
  | ok a => exact hf a _ _ hleft
  | error fault => exact ⟨rfl, hleft⟩

theorem ite {c : Prop} [Decidable c] {x y : Compile α} (ht : IgnoresCache compiler x)
    (he : IgnoresCache compiler y) : IgnoresCache compiler (if c then x else y) := by
  by_cases h : c
  · rw [if_pos h]
    exact ht
  · rw [if_neg h]
    exact he

theorem mapM {f : β → Compile α} (hf : ∀ b, IgnoresCache compiler (f b)) (xs : List β) :
    IgnoresCache compiler (xs.mapM f) := by
  induction xs with
  | nil => exact .pure []
  | cons b xs ih =>
    rw [List.mapM_cons]
    exact (hf b).bind fun _ => ih.bind fun _ => .pure _

end Compile.IgnoresCache

/-! ## The record of a query -/

theorem ResultRecord.eq_of_aligned {x x' : Except MethodFault ResultRecord}
    (h : Aligned (.shift 0) x x') : x = x' := by
  cases h with
  | ok h => exact congrArg Except.ok h
  | error h => rw [MethodFault.eq_shift h, MethodFault.shift_zero]

theorem QueryField.aligned_zero (f : QueryField) : Aligned (.shift 0) f f :=
  ⟨rfl, rfl, rfl, rfl, rfl, Span.aligned_zero f.span⟩

theorem QueryTable.aligned_zero (t : QueryTable) : Aligned (.shift 0) t t :=
  ⟨rfl, rfl, rfl, Span.aligned_zero t.span⟩

/-- From any two faithful caches the same record is derived, or the same fault is met. -/
theorem ResultRecord.derive_of_trusts {compiler : Compiler} {provider : Provider}
    (hprovider : compiler.provider = some provider) (name : Text) (fields : List QueryField)
    (tables : List QueryTable) {cache cache' : SchemaCache} (h : compiler.Trusts cache)
    (h' : compiler.Trusts cache') :
    let run := (derive provider name fields tables).run.run cache
    let run' := (derive provider name fields tables).run.run cache'
    run.1 = run'.1 ∧ compiler.Trusts run.2 ∧ compiler.Trusts run'.2 := by
  intro run run'
  have hrun := simulates_derive (Compiler.keptBy_trusts hprovider) name
    (aligned_zero_of_forall QueryField.aligned_zero fields)
    (aligned_zero_of_forall QueryTable.aligned_zero tables) cache cache' ⟨h, h'⟩
  exact ⟨eq_of_aligned hrun.1, hrun.2⟩

/-! ## Methods and files -/

namespace Compiler

variable {compiler : Compiler}

theorem ignoresCache_takeName (source : MethodSource) :
    Compile.IgnoresCache compiler (takeName source) := by
  intro s s' hs
  rw [takeName_run, takeName_run, hs.names]
  cases s'.names.find? (·.1 == source.name.qualified) with
  | some taken => exact ⟨rfl, hs⟩
  | none => exact ⟨rfl, rfl, hs.warnings, hs.trusts, hs.trusts'⟩

theorem ignoresCache_warnExec (options : MethodOptions) (keyword : Keyword) :
    Compile.IgnoresCache compiler (warnExec options keyword) := by
  unfold warnExec
  cases options.exec with
  | none => exact .pure ()
  | some exec =>
    refine .ite (.pure ()) fun s s' hs => ⟨rfl, hs.names, ?_, hs.trusts, hs.trusts'⟩
    exact congrArg (· ++ [Warning.execIgnored exec.value]) hs.warnings

theorem ignoresCache_inTemplate {α : Type} (x : Checked α) :
    Compile.IgnoresCache compiler (inTemplate x) :=
  .ofOutcome _

theorem ignoresCache_resultRecord (auto : Option Span) (returns : ReturnType)
    (shape : QueryShape) :
    Compile.IgnoresCache compiler (compiler.resultRecord auto returns shape) := by
  unfold resultRecord
  cases auto with
  | none => exact .pure none
  | some span =>
    cases hprovider : compiler.provider with
    | none => exact .throw _
    | some provider =>
      intro s s' hs
      obtain ⟨houtcome, htrusts, htrusts'⟩ := ResultRecord.derive_of_trusts hprovider
        returns.element.text shape.fields shape.tables hs.trusts hs.trusts'
      exact ⟨congrArg (Except.map some) houtcome, hs.names, hs.warnings, htrusts, htrusts'⟩

theorem ignoresCache_compileMethod (source : MethodSource) :
    Compile.IgnoresCache compiler (compiler.compileMethod source) := by
  refine .bind (.ofOutcome _) fun options => .bind (ignoresCache_takeName source) fun _ => ?_
  refine .ite (.throw_bind _ _) (.bind (ignoresCache_inTemplate _) fun keyword => ?_)
  refine .bind (ignoresCache_warnExec options keyword.value) fun _ => ?_
  refine .bind (.ofOutcome _) fun c => ?_
  obtain ⟨kind, returns⟩ := c
  refine .bind (ignoresCache_inTemplate _) fun body => ?_
  refine .bind (ignoresCache_inTemplate _) fun shape => ?_
  exact .bind (ignoresCache_resultRecord options.auto returns shape) fun _ => .pure _

/-- **A file is compiled alike whatever has been looked up before**: from any session with a
faithful cache it has the outcome and the warnings that it has from a new one. -/
theorem compileFile_upToCache {s s' : Session} (hs : compiler.Trusts s.cache)
    (hs' : compiler.Trusts s'.cache) (hwarnings : s.warnings = s'.warnings) (path : Path)
    (text : Text) :
    let run := compiler.compileFile path text s
    let run' := compiler.compileFile path text s'
    run.1 = run'.1 ∧ compiler.UpToCache run.2 run'.2 := by
  intro run run'
  have hnew : compiler.UpToCache { s with names := [] } { s' with names := [] } :=
    ⟨rfl, hwarnings, hs, hs'⟩
  simp only [run, run', compileFile_run, compileText_run]
  cases MethodSource.split text with
  | error fault => exact ⟨rfl, hnew⟩
  | ok sources =>
    have hall : Compile.IgnoresCache compiler (sources.mapM compiler.compileMethod) :=
      .mapM ignoresCache_compileMethod sources
    obtain ⟨houtcome, hleft⟩ := hall _ _ hnew
    refine ⟨?_, hleft⟩
    simp only [houtcome]

end Compiler

end QueryTemplate
