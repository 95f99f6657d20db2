import QueryTemplate.Proofs.Alignment.Session

/-! # Faithful caches

A cache is faithful to a provider if each description it keeps is the provider's answer. Looking
up a table in a faithful cache gives the provider's answer and leaves a faithful cache behind, so
runs from faithful caches cannot be told apart by what they return.
-/

namespace QueryTemplate

namespace SchemaCache

/-- Every description that the cache keeps is what the provider answers. -/
def Faithful (provider : Provider) (cache : SchemaCache) : Prop :=
  ∀ name table, cache.find? name = some table → provider name = .ok table

theorem faithful_empty (provider : Provider) : empty.Faithful provider :=
  fun _ _ h => absurd h (by simp [empty, find?])

theorem find?_cons (name : Text) (table : SchemaTable) (entries : List (Text × SchemaTable))
    (asked asked' : List Text) (other : Text) :
    find? ⟨(name, table) :: entries, asked⟩ other =
      if name = other then some table else find? ⟨entries, asked'⟩ other := by
  simp only [find?, List.find?_cons]
  by_cases h : name = other
  · simp [h]
  · simp [h, beq_eq_false_iff_ne.2 h]

/-- A lookup either finds a description and changes nothing, or asks the provider, whose
description is kept. -/
theorem describe_cases (provider : Provider) (name : Text) (cache : SchemaCache) :
    (∃ table, cache.find? name = some table ∧ describe provider name cache = (.ok table, cache)) ∨
    (∃ table, cache.find? name = none ∧ provider name = .ok table ∧
      describe provider name cache =
        (.ok table, ⟨(name, table) :: cache.entries, cache.asked ++ [name]⟩)) ∨
    (∃ cause, cache.find? name = none ∧ provider name = .error cause ∧
      describe provider name cache = (.error cause, ⟨cache.entries, cache.asked ++ [name]⟩)) := by
  cases hfind : cache.find? name with
  | some table => exact .inl ⟨table, rfl, by simp only [describe, hfind]⟩
  | none =>
    cases hanswer : provider name with
    | ok table => exact .inr (.inl ⟨table, rfl, rfl, by simp only [describe, hfind, hanswer]⟩)
    | error cause => exact .inr (.inr ⟨cause, rfl, rfl, by simp only [describe, hfind, hanswer]⟩)

theorem Faithful.answer {provider : Provider} {cache : SchemaCache} (h : cache.Faithful provider)
    (name : Text) : (describe provider name cache).1 = provider name := by
  rcases describe_cases provider name cache with
    ⟨table, hfind, hrun⟩ | ⟨table, _, hanswer, hrun⟩ | ⟨cause, _, hanswer, hrun⟩
  · rw [hrun, h name table hfind]
  · rw [hrun, hanswer]
  · rw [hrun, hanswer]

theorem Faithful.describe {provider : Provider} {cache : SchemaCache} (h : cache.Faithful provider)
    (name : Text) : (describe provider name cache).2.Faithful provider := by
  rcases describe_cases provider name cache with
    ⟨table, _, hrun⟩ | ⟨table, _, hanswer, hrun⟩ | ⟨cause, _, _, hrun⟩
  · rw [hrun]
    exact h
  · rw [hrun]
    intro other found hfound
    rw [find?_cons _ _ _ _ cache.asked] at hfound
    by_cases hname : name = other
    · rw [if_pos hname] at hfound
      rw [← hname, hanswer, Option.some.inj hfound]
    · rw [if_neg hname] at hfound
      exact h other found hfound
  · rw [hrun]
    exact h

end SchemaCache

namespace Compiler

/-- The cache is faithful to the provider of the compiler, if it has one. -/
def Trusts (compiler : Compiler) (cache : SchemaCache) : Prop :=
  ∀ provider, compiler.provider = some provider → cache.Faithful provider

theorem trusts_empty (compiler : Compiler) : compiler.Trusts .empty :=
  fun provider _ => SchemaCache.faithful_empty provider

theorem keptBy_trusts {compiler : Compiler} {provider : Provider}
    (h : compiler.provider = some provider) :
    SchemaCache.KeptBy provider fun cache cache' =>
      compiler.Trusts cache ∧ compiler.Trusts cache' := by
  have hdescribe {cache : SchemaCache} (hcache : compiler.Trusts cache) (name : Text) :
      compiler.Trusts (SchemaCache.describe provider name cache).2 := by
    intro other hother
    obtain rfl : provider = other := Option.some.inj (h.symm.trans hother)
    exact (hcache provider h).describe name
  intro name cache cache' ⟨hcache, hcache'⟩
  refine ⟨?_, hdescribe hcache name, hdescribe hcache' name⟩
  rw [(hcache provider h).answer, (hcache' provider h).answer]

/-- Sessions in which the same names are taken, up to their places and to names of others, and
whose caches are faithful. -/
abbrev Agree (compiler : Compiler) (A : Alignment) (own : Text → Prop) : Session → Session → Prop :=
  Session.Alike A (fun cache cache' => compiler.Trusts cache ∧ compiler.Trusts cache') own

theorem simulates_compileAll (compiler : Compiler) {A : Alignment} {own : Text → Prop}
    {sources sources' : List MethodSource} (h : Aligned A sources sources')
    (hown : ∀ source ∈ sources, own source.name.qualified) :
    Simulates (Aligned A) (Aligned A) (compiler.Agree A own) (sources.mapM compiler.compileMethod)
      (sources'.mapM compiler.compileMethod) := by
  refine .mapM (((List.forall₂_and_left _ _).2 ⟨hown, h⟩).imp fun source source' hsource => ?_)
  exact simulates_compileMethod (fun _ => keptBy_trusts) hsource.2 hsource.1

/-- Compiling a file starts without names; a file that cannot be divided leaves it at that. -/
theorem compileText_run (compiler : Compiler) (text : Text) (s : Session) :
    compiler.compileText text s = match MethodSource.split text with
      | .ok sources =>
        (sources.mapM compiler.compileMethod : Compile _) { s with names := [] }
      | .error fault => (.error fault, { s with names := [] }) := by
  cases h : MethodSource.split text <;> simp only [compileText, h] <;> rfl

theorem compileFile_run (compiler : Compiler) (path : Path) (text : Text) (s : Session) :
    compiler.compileFile path text s =
      (match (compiler.compileText text s).1 with
        | .ok methods => .ok ⟨path, methods⟩
        | .error fault => .error (.locate path text fault), (compiler.compileText text s).2) := by
  have hrun : compiler.compileFile path text s = (match (compiler.compileText text s).1 with
      | .ok methods => pure (.ok ⟨path, methods⟩)
      | .error fault => pure (.error (.locate path text fault)) :
        StateM Session (Except FileFault CompiledFile)) (compiler.compileText text s).2 := rfl
  rw [hrun]
  cases (compiler.compileText text s).1 <;> rfl

end Compiler

end QueryTemplate
