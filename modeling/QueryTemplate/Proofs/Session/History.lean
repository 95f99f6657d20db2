import QueryTemplate.Proofs.File.Composition

/-! # Sessions with a history

A session that has compiled files and methods, with or without success, compiles a file like a new
one: the names are forgotten, and the cache cannot be told from an empty one by its answers. What
the provider is asked for shows the cache, since no name is asked for again once it is described.
-/

namespace QueryTemplate

/-! ## Places that do not move -/

@[simp] theorem QueryField.shift_zero (f : QueryField) : f.shift 0 = f := rfl

@[simp] theorem QueryTable.shift_zero (t : QueryTable) : t.shift 0 = t := rfl

theorem Method.shift_zero (m : Method) : m.shift 0 = m := by
  simp [Method.shift, funext QueryField.shift_zero, funext QueryTable.shift_zero]

theorem MethodFault.shift_zero (fault : MethodFault) : MethodFault.shift 0 fault = fault := by
  obtain ⟨cause, span⟩ := fault
  cases cause <;> rfl

theorem aligned_zero_of_forall {α : Type} [Alignable α] (h : ∀ x : α, Aligned (.shift 0) x x)
    (xs : List α) : Aligned (.shift 0) xs xs :=
  List.forall₂_same.2 fun x _ => h x

theorem Span.aligned_zero (s : Span) : Aligned (.shift 0) s s := ⟨rfl, rfl⟩

theorem WrittenOption.aligned_zero (w : WrittenOption) : Aligned (.shift 0) w w :=
  ⟨rfl, rfl, Span.aligned_zero w.span⟩

theorem MethodSource.aligned_zero (m : MethodSource) : Aligned (.shift 0) m m where
  name := rfl
  options := aligned_zero_of_forall WrittenOption.aligned_zero m.options
  headerSpan := Span.aligned_zero _
  nameSpan := Span.aligned_zero _
  body := Fragment.aligned_shift 0 m.body.offset m.body.text
  bodyStart := rfl
  slice s s' hs := by rw [Span.eq_shift hs, Span.shift_zero]

/-! ## Caches on a provider -/

namespace SchemaCache

variable {provider : Provider}

/-- The caches on a provider: all that can be done with one is to look up tables in it and to drop
descriptions from it. -/
inductive Reachable (provider : Provider) : SchemaCache → Prop where
  | empty : Reachable provider .empty
  | describe {cache : SchemaCache} (name : Text) :
    Reachable provider cache → Reachable provider (cache.describe provider name).2
  | invalidate {cache : SchemaCache} (name : Text) :
    Reachable provider cache → Reachable provider (cache.invalidate name)
  | clear {cache : SchemaCache} : Reachable provider cache → Reachable provider cache.clear

theorem find?_invalidate (name other : Text) (cache : SchemaCache) :
    (cache.invalidate name).find? other = if other = name then none else cache.find? other := by
  simp only [find?, invalidate, List.find?_filter]
  by_cases h : other = name
  · rw [if_pos h]
    simp [h]
  · rw [if_neg h]
    congr 2
    funext entry
    by_cases hentry : entry.1 = other <;> simp [hentry, h]

theorem Reachable.faithful {cache : SchemaCache} (h : Reachable provider cache) :
    cache.Faithful provider := by
  induction h with
  | empty => exact faithful_empty provider
  | describe name _ ih => exact ih.describe name
  | invalidate name _ ih =>
    intro other table hfind
    rw [find?_invalidate] at hfind
    by_cases h : other = name
    · rw [if_pos h] at hfind
      cases hfind
    · rw [if_neg h] at hfind
      exact ih other table hfind
  | clear _ _ => exact fun _ _ h => nomatch h

/-- What the provider was asked for since `start`: no name comes again once it is described, and
every name that is described is kept. -/
def AsksOnce (provider : Provider) (start : List Text) (cache : SchemaCache) : Prop :=
  ∃ asked, cache.asked = start ++ asked ∧
    asked.Pairwise (fun a b => (∃ table, provider a = .ok table) → b ≠ a) ∧
    ∀ name ∈ asked, (∃ table, provider name = .ok table) → (cache.find? name).isSome

/-- A name that is not kept may be asked for, if it is kept once it is described. -/
theorem AsksOnce.ask {start : List Text} {cache cache' : SchemaCache} {name : Text}
    (h : AsksOnce provider start cache) (hfind : cache.find? name = none)
    (hlog : cache'.asked = cache.asked ++ [name])
    (hold : ∀ other, (cache.find? other).isSome → (cache'.find? other).isSome)
    (hnew : (∃ table, provider name = .ok table) → (cache'.find? name).isSome) :
    AsksOnce provider start cache' := by
  obtain ⟨asked, hasked, honce, hkept⟩ := h
  refine ⟨asked ++ [name], ?_, ?_, ?_⟩
  · rw [hlog, hasked, List.append_assoc]
  · refine List.pairwise_append.2 ⟨honce, List.pairwise_singleton _ _, ?_⟩
    rintro _ ha b hb hdescribed rfl
    have hsome := hkept b ha hdescribed
    rw [List.mem_singleton.1 hb, hfind] at hsome
    cases hsome
  · intro other hother hdescribed
    rcases List.mem_append.1 hother with hother | hother
    · exact hold other (hkept other hother hdescribed)
    · obtain rfl := List.mem_singleton.1 hother
      exact hnew hdescribed

theorem AsksOnce.describe {start : List Text} {cache : SchemaCache}
    (h : AsksOnce provider start cache) (name : Text) :
    AsksOnce provider start (describe provider name cache).2 := by
  rcases describe_cases provider name cache with
    ⟨table, _, hrun⟩ | ⟨table, hfind, _, hrun⟩ | ⟨cause, hfind, hanswer, hrun⟩
  · rw [hrun]
    exact h
  · rw [hrun]
    refine h.ask hfind rfl (fun other hother => ?_) fun _ => ?_
    · rw [find?_cons _ _ _ _ cache.asked]
      by_cases hname : name = other
      · rw [if_pos hname]
        rfl
      · rw [if_neg hname]
        exact hother
    · rw [find?_cons _ _ _ _ cache.asked, if_pos rfl]
      rfl
  · rw [hrun]
    refine h.ask hfind rfl (fun _ hother => hother) ?_
    rintro ⟨table, htable⟩
    rw [hanswer] at htable
    cases htable

end SchemaCache

/-! ## Calls -/

inductive Call where
  | file (path : Path) (text : Text)
  | method (source : MethodSource)
deriving DecidableEq, Repr

namespace Compiler

variable {compiler : Compiler}

/-- The session that a call leaves, whatever comes out of it. -/
def call (compiler : Compiler) (s : Session) : Call → Session
  | .file path text => (compiler.compileFile path text s).2
  | .method source => (compiler.compileMethod source s).2

def history (compiler : Compiler) (calls : List Call) (s : Session) : Session :=
  calls.foldl compiler.call s

/-- Whether looking up tables keeps a property of caches. -/
def KeepsCache (compiler : Compiler) (P : SchemaCache → Prop) : Prop :=
  ∀ provider, compiler.provider = some provider → ∀ name cache, P cache →
    P (SchemaCache.describe provider name cache).2

theorem compileAll_keeps {P : SchemaCache → Prop} (hP : compiler.KeepsCache P)
    (sources : List MethodSource) {s : Session} (hs : P s.cache) :
    P ((sources.mapM compiler.compileMethod : Compile _) s).2.cache := by
  have hR : ∀ provider, compiler.provider = some provider →
      SchemaCache.KeptBy provider fun cache cache' => cache = cache' ∧ P cache := by
    intro provider hprovider name cache cache' ⟨heq, hcache⟩
    subst heq
    exact ⟨rfl, rfl, hP provider hprovider name cache hcache⟩
  have hentry (entry : Text × Span) : Aligned (.shift 0) entry entry :=
    ⟨rfl, Span.aligned_zero entry.2⟩
  have hnames : Aligned (.shift 0) s.names s.names := aligned_zero_of_forall hentry _
  have hself : Session.Alike (.shift 0) (fun cache cache' => cache = cache' ∧ P cache)
      (fun _ => True) s s :=
    ⟨fun _ _ => trivial, ⟨s.names, [], by simp, hnames, by simp⟩, rfl, hs⟩
  have hsources : Aligned (.shift 0) sources sources :=
    aligned_zero_of_forall MethodSource.aligned_zero sources
  have hrun := Simulates.mapM
    (hsources.imp fun _ _ hsource => simulates_compileMethod hR hsource trivial) s s hself
  exact hrun.2.cache.2

theorem call_keeps {P : SchemaCache → Prop} (hP : compiler.KeepsCache P) (c : Call) {s : Session}
    (hs : P s.cache) : P (compiler.call s c).cache := by
  cases c with
  | file path text =>
    rw [call, compileFile_run, compileText_run]
    cases MethodSource.split text with
    | error fault => exact hs
    | ok sources =>
      exact compileAll_keeps hP sources (s := { s with names := [] }) hs
  | method source =>
    have hrun := compileAll_keeps hP [source] hs
    rw [List.mapM_cons, bind_run] at hrun
    rw [call]
    generalize compiler.compileMethod source s = run at hrun
    rcases run with ⟨_ | _, _⟩ <;> exact hrun

theorem history_keeps {P : SchemaCache → Prop} (hP : compiler.KeepsCache P) (calls : List Call)
    {s : Session} (hs : P s.cache) : P (compiler.history calls s).cache := by
  induction calls generalizing s with
  | nil => exact hs
  | cons c calls ih => exact ih (call_keeps hP c hs)

theorem keepsCache_trusts : compiler.KeepsCache compiler.Trusts := by
  intro provider hprovider name cache hcache
  exact (keptBy_trusts hprovider name cache cache ⟨hcache, hcache⟩).2.1

/-! ## Outcomes -/

/-- From any session with a faithful cache, a file is compiled as from the empty one. -/
theorem compileFile_of_trusts {s : Session} (hs : compiler.Trusts s.cache) (path : Path)
    (text : Text) : (compiler.compileFile path text s).1 = compiler.compiled path text := by
  cases hsplit : MethodSource.split text with
  | error fault =>
    simp only [compiled, compileFile_run, compileText_run, hsplit]
  | ok sources =>
    have hnew : compiler.Agree (.shift 0) (fun _ => True) .empty { s with names := [] } :=
      ⟨fun _ _ => trivial, ⟨[], [], rfl, .nil, by simp⟩, compiler.trusts_empty, hs⟩
    have hrun := (simulates_compileAll compiler
      (aligned_zero_of_forall MethodSource.aligned_zero sources) (fun _ _ => trivial) _ _ hnew).1
    rw [compiled_eq hsplit, compileFile_of_split hsplit]
    generalize ((sources.mapM compiler.compileMethod : Compile _) .empty).1 = x,
      ((sources.mapM compiler.compileMethod : Compile _) { s with names := [] }).1 = y at hrun
    cases hrun with
    | ok h =>
      have hmap := eq_map_of_aligned (fun _ _ => Method.eq_shift) h
      rw [hmap, funext Method.shift_zero, List.map_id']
    | error h => rw [MethodFault.eq_shift h, MethodFault.shift_zero]

/-- **A used session behaves like a new one**, whatever it was asked to compile before, and the
provider is not asked for a name again once it has described it. -/
theorem compileFile_history (markers : Markers) {provider : Provider} {s : Session}
    (hs : SchemaCache.Reachable provider s.cache) (calls : List Call) (path : Path)
    (text : Text) :
    let compiler : Compiler := ⟨markers, some provider⟩
    let run := compiler.compileFile path text (compiler.history calls s)
    run.1 = compiler.compiled path text ∧
      ∃ asked, run.2.cache.asked = s.cache.asked ++ asked ∧
        asked.Pairwise fun a b => (∃ table, provider a = .ok table) → b ≠ a := by
  intro compiler run
  have htrusts : compiler.Trusts s.cache := by
    intro other hother
    obtain rfl : provider = other := Option.some.inj hother
    exact hs.faithful
  have honce : compiler.KeepsCache (SchemaCache.AsksOnce provider s.cache.asked) := by
    intro other hother name cache hcache
    obtain rfl : provider = other := Option.some.inj hother
    exact hcache.describe name
  have hstart : SchemaCache.AsksOnce provider s.cache.asked s.cache :=
    ⟨[], (List.append_nil _).symm, .nil, by simp⟩
  refine ⟨compileFile_of_trusts (history_keeps keepsCache_trusts calls htrusts) path text, ?_⟩
  have hrun := call_keeps honce (.file path text) (history_keeps honce calls hstart)
  obtain ⟨asked, hasked, hpairwise, _⟩ := hrun
  exact ⟨asked, hasked, hpairwise⟩

/-- The table of two automatic methods is asked for once, and one that is not described each
time. -/
theorem compileFile_history_retry :
    let provider : Provider := fun name =>
      if name = ['t'] then .ok ⟨name, [], [⟨['x'], [], "INT".toList, false, false⟩]⟩
      else .error (.tableNotFound name)
    let described : Text := "--name: a returns=A auto\nSELECT x FROM t\n".toList
    let missing : Text := "--name: b returns=B auto\nSELECT x FROM u\n".toList
    let compiler : Compiler := ⟨.standard, some provider⟩
    let run := compiler.compileFile ⟨[]⟩ described
      (compiler.history [.file ⟨[]⟩ missing, .file ⟨[]⟩ described, .file ⟨[]⟩ missing] .empty)
    run.1 = compiler.compiled ⟨[]⟩ described ∧ run.2.cache.asked = [['u'], ['t'], ['u']] := by
  intro provider described missing compiler run
  have hcache : SchemaCache.Reachable provider Session.empty.cache := .empty
  have hrun := compileFile_history .standard hcache
    [.file ⟨[]⟩ missing, .file ⟨[]⟩ described, .file ⟨[]⟩ missing] ⟨[]⟩ described
  exact ⟨hrun.1, by decide +kernel⟩

end Compiler

end QueryTemplate
