import QueryTemplate.CommandLine.Run
import QueryTemplate.Proofs.Json.RoundTrip
import QueryTemplate.Proofs.Session.Isolation
import QueryTemplate.Proofs.Session.Markers

/-! # Compiling and checking files

Both commands carry one session from file to file, also past files that are refused. What it
carries is a cache that is faithful to the schema, so each file has the outcome and the notices
that it has on its own. Checking goes through all files with the standard markers and compiling
stops at the first that is refused; as markers refuse no file, the two agree on whether there is
one. What compiling writes is JSON, so there it also matters whether the paths are texts.
-/

namespace QueryTemplate

namespace Compiler

/-- Whether a file is refused does not depend on the markers. -/
theorem exists_compiled_iff (markers markers' : Markers) (provider : Option Provider)
    (path : Path) (text : Text) :
    (∃ file, compiled ⟨markers, provider⟩ path text = .ok file) ↔
      ∃ file, compiled ⟨markers', provider⟩ path text = .ok file := by
  have hfiles := @sameFault_compiled markers markers' provider path text
  generalize compiled ⟨markers, provider⟩ path text = x,
    compiled ⟨markers', provider⟩ path text = x' at hfiles
  cases hfiles <;> simp

theorem location_of_compiled {compiler : Compiler} {path : Path} {text : Text}
    {file : CompiledFile} (h : compiler.compiled path text = .ok file) : file.location = path := by
  rw [compiled, compileFile_run] at h
  generalize (compiler.compileText text .empty).1 = outcome at h
  cases outcome with
  | error fault => cases h
  | ok methods =>
    cases h
    rfl

end Compiler

namespace Command

variable {compiler : Compiler} {files : Files}

/-! ## One file -/

/-- What becomes of a file that is the only one. -/
def outcomeAlone (compiler : Compiler) (files : Files) (announce : Bool) (path : Path) :
    FileOutcome :=
  (compilePath compiler files announce path .empty).1

/-- The file can be read, and compiled by itself it gives `file`. -/
def Gives (compiler : Compiler) (files : Files) (path : Path) (file : CompiledFile) : Prop :=
  ∃ text, readText files path = .ok text ∧ compiler.compiled path text = .ok file

/-- The file can be compiled by itself, its path is a text, and `value` is the object with that text
and the compiled methods. -/
def Shows (compiler : Compiler) (files : Files) (path : Path) (value : JsonValue) : Prop :=
  ∃ file t, Gives compiler files path file ∧ path.text? = some t ∧
    value = .ofPairs [("path", .ofText t), ("methods", .ofList Method.toJson file.methods)]

/-- A step that cannot fail hands on its value and its session. -/
theorem bind_apply {α β : Type} (x : StateM Session α) (f : α → StateM Session β) (s : Session) :
    (x >>= f) s = f (x s).1 (x s).2 := rfl

theorem compilePath_of_error {path : Path} {reason : Text} (h : readText files path = .error reason)
    (announce : Bool) (s : Session) :
    compilePath compiler files announce path s = (⟨none, [unreadable path reason]⟩, s) := by
  unfold compilePath
  rw [h]
  rfl

theorem compilePath_of_ok {path : Path} {text : Text} (h : readText files path = .ok text)
    (announce : Bool) (s : Session) :
    compilePath compiler files announce path s =
      let run := compiler.compileFile path text { s with warnings := [] }
      let warnings := run.2.warnings.map Notice.warning
      (match run.1 with
        | .ok file => ⟨some file, warnings⟩
        | .error fault =>
          let line := if announce then [Notice.line ("✗ ".toList ++ fault.message)] else []
          ⟨none, warnings ++ line ++ [fileReport text fault]⟩, run.2) := by
  have hstart : (modify fun s => { s with warnings := [] } : StateM Session PUnit) s =
      ((), { s with warnings := [] }) := rfl
  rw [compilePath, h]
  dsimp only
  rw [bind_apply, hstart, bind_apply]
  dsimp only
  generalize compiler.compileFile path text { s with warnings := [] } = run
  obtain ⟨_ | _, _⟩ := run <;> rfl

variable (files) in
/-- Behind any other files, a file comes out as if it were the only one, and the cache is left
faithful. -/
theorem compilePath_of_trusts {s : Session} (hs : compiler.Trusts s.cache) (announce : Bool)
    (path : Path) :
    (compilePath compiler files announce path s).1 = outcomeAlone compiler files announce path ∧
      compiler.Trusts (compilePath compiler files announce path s).2.cache := by
  unfold outcomeAlone
  cases h : readText files path with
  | error reason =>
    rw [compilePath_of_error h, compilePath_of_error h]
    exact ⟨rfl, hs⟩
  | ok text =>
    obtain ⟨houtcome, hleft⟩ := @Compiler.compileFile_upToCache compiler
      { s with warnings := [] } .empty hs compiler.trusts_empty rfl path text
    rw [compilePath_of_ok h, compilePath_of_ok h]
    dsimp only
    rw [houtcome, hleft.warnings]
    exact ⟨rfl, hleft.trusts⟩

theorem compiled_outcomeAlone_eq_some_iff (announce : Bool) {path : Path}
    {file : CompiledFile} :
    (outcomeAlone compiler files announce path).compiled = some file ↔
      Gives compiler files path file := by
  unfold outcomeAlone Gives
  cases h : readText files path with
  | error reason => simp [compilePath_of_error h]
  | ok text =>
    rw [compilePath_of_ok h]
    change (match (compiler.compiled path text) with
      | .ok file => (⟨some file, _⟩ : FileOutcome)
      | .error _ => ⟨none, _⟩).compiled = some file ↔ _
    cases hcompiled : compiler.compiled path text <;> simp [hcompiled]

/-- A file that is refused is not passed over in silence. -/
theorem notices_outcomeAlone_ne_nil {announce : Bool} {path : Path}
    (h : (outcomeAlone compiler files announce path).compiled = none) :
    (outcomeAlone compiler files announce path).notices ≠ [] := by
  unfold outcomeAlone at h ⊢
  cases htext : readText files path with
  | error reason =>
    rw [compilePath_of_error htext]
    exact List.cons_ne_nil _ _
  | ok text =>
    rw [compilePath_of_ok htext] at h ⊢
    dsimp only at h ⊢
    generalize compiler.compileFile path text { Session.empty with warnings := [] } = run at h ⊢
    obtain ⟨_ | _, _⟩ := run
    · exact List.append_ne_nil_of_right_ne_nil _ (List.cons_ne_nil _ _)
    · cases h

theorem exists_gives_iff (markers markers' : Markers) (provider : Option Provider) (path : Path) :
    (∃ file, Gives ⟨markers, provider⟩ files path file) ↔
      ∃ file, Gives ⟨markers', provider⟩ files path file := by
  unfold Gives
  cases readText files path with
  | error reason => simp
  | ok text => simpa using Compiler.exists_compiled_iff markers markers' provider path text

theorem gives_fileJson_iff {path : Path} {value : JsonValue} :
    (∃ file, Gives compiler files path file ∧ fileJson file = .ok value) ↔
      Shows compiler files path value := by
  have hlocation {file : CompiledFile} (h : Gives compiler files path file) :
      file.location = path := by
    obtain ⟨text, -, hcompiled⟩ := h
    exact Compiler.location_of_compiled hcompiled
  constructor
  · rintro ⟨file, hgives, hjson⟩
    rw [fileJson, hlocation hgives] at hjson
    cases htext : path.text? with
    | none =>
      rw [htext] at hjson
      cases hjson
    | some t =>
      rw [htext] at hjson
      exact ⟨file, t, hgives, htext, (Except.ok.inj hjson).symm⟩
  · rintro ⟨file, t, hgives, htext, rfl⟩
    refine ⟨file, hgives, ?_⟩
    rw [fileJson, hlocation hgives, htext]

theorem exists_shows_iff {path : Path} :
    (∃ value, Shows compiler files path value) ↔
      (∃ file, Gives compiler files path file) ∧ path.text?.isSome := by
  rw [Option.isSome_iff_exists]
  constructor
  · rintro ⟨_, file, t, hgives, htext, -⟩
    exact ⟨⟨file, hgives⟩, t, htext⟩
  · rintro ⟨⟨file, hgives⟩, t, htext⟩
    exact ⟨_, file, t, hgives, htext, rfl⟩

/-! ## All files -/

variable (files) in
theorem mapM_compilePath {s : Session} (hs : compiler.Trusts s.cache) (announce : Bool)
    (paths : List Path) :
    (paths.mapM (compilePath compiler files announce) s).1 =
      paths.map (outcomeAlone compiler files announce) := by
  induction paths generalizing s with
  | nil => rfl
  | cons path paths ih =>
    obtain ⟨houtcome, hleft⟩ := compilePath_of_trusts files hs announce path
    rw [List.mapM_cons, List.map_cons, ← houtcome, ← ih hleft]
    rfl

theorem compileAll_cons (path : Path) (paths : List Path) (s : Session) :
    (compileAll compiler files (path :: paths) s).1.1 =
      (compilePath compiler files false path s).1.compiled.bind fun file =>
        (compileAll compiler files paths (compilePath compiler files false path s).2).1.1.map
          (file :: ·) := by
  rw [compileAll, bind_apply]
  cases (compilePath compiler files false path s).1.compiled <;> rfl

/-- All files are compiled exactly if each of them gives what it gives alone. -/
theorem compileAll_eq_some_iff {s : Session} (hs : compiler.Trusts s.cache) {paths : List Path}
    {compiled : List CompiledFile} :
    (compileAll compiler files paths s).1.1 = some compiled ↔
      List.Forall₂ (Gives compiler files) paths compiled := by
  induction paths generalizing s compiled with
  | nil =>
    change some [] = some compiled ↔ _
    rw [Option.some.injEq, List.forall₂_nil_left_iff, eq_comm]
  | cons path paths ih =>
    obtain ⟨houtcome, hleft⟩ := compilePath_of_trusts files hs false path
    -- What is left is compiled from the session behind the first file, which is faithful as well.
    rw [compileAll_cons, houtcome, List.forall₂_cons_left_iff]
    simp only [← compiled_outcomeAlone_eq_some_iff false, ← ih hleft]
    cases (outcomeAlone compiler files false path).compiled with
    | none => simp
    | some file => simp [eq_comm (b := compiled)]

theorem exists_forall₂_iff {α β : Type} {r : α → β → Prop} {xs : List α} :
    (∃ ys, List.Forall₂ r xs ys) ↔ ∀ x ∈ xs, ∃ y, r x y := by
  induction xs with
  | nil => simp
  | cons x xs ih => simp [List.forall₂_cons_left_iff, ← ih]

/-- Two steps from element to element are one. -/
theorem exists_forall₂_and_iff {α β γ : Type} {r : α → β → Prop} {q : β → γ → Prop} {xs : List α}
    {zs : List γ} :
    (∃ ys, List.Forall₂ r xs ys ∧ List.Forall₂ q ys zs) ↔
      List.Forall₂ (fun x z => ∃ y, r x y ∧ q y z) xs zs := by
  induction xs generalizing zs with
  | nil => simp
  | cons x xs ih =>
    simp only [List.forall₂_cons_left_iff, ← ih]
    constructor
    · rintro ⟨_, ⟨y, ys, hy, hys, rfl⟩, hall⟩
      obtain ⟨z, zs, hz, hzs, rfl⟩ := List.forall₂_cons_left_iff.1 hall
      exact ⟨z, zs, ⟨y, hy, hz⟩, ⟨ys, hys, hzs⟩, rfl⟩
    · rintro ⟨z, zs, ⟨y, hy, hz⟩, ⟨ys, hys, hzs⟩, rfl⟩
      exact ⟨y :: ys, ⟨y, ys, hy, hys, rfl⟩, .cons hz hzs⟩

/-! ## The commands -/

section

variable {schema : Option Path} {provider : Option Provider}

theorem runCheck_of_loadSchema (h : loadSchema files schema = .ok provider) (paths : List Path) :
    runCheck files paths schema =
      let outcomes := paths.map (outcomeAlone ⟨.standard, provider⟩ files true)
      ⟨if outcomes.all (·.compiled.isSome) then 0 else 1,
        (outcomes.filterMap (·.compiled)).flatMap approval, outcomes.flatMap (·.notices)⟩ := by
  have hrun := mapM_compilePath files (s := .empty)
    (Compiler.trusts_empty ⟨.standard, provider⟩) true paths
  rw [← hrun]
  unfold runCheck
  rw [h]
  rfl

theorem runCheck_status_eq_zero_iff (h : loadSchema files schema = .ok provider)
    (paths : List Path) :
    (runCheck files paths schema).status = 0 ↔
      ∀ path ∈ paths, ∃ file, Gives ⟨.standard, provider⟩ files path file := by
  rw [runCheck_of_loadSchema h]
  simp [← compiled_outcomeAlone_eq_some_iff true, Option.isSome_iff_exists]

/-- What checking says of some files is what it says of each of them alone. -/
theorem runCheck_flatMap (h : loadSchema files schema = .ok provider) (paths : List Path) :
    (runCheck files paths schema).output =
        paths.flatMap (fun path => (runCheck files [path] schema).output) ∧
      (runCheck files paths schema).notices =
        paths.flatMap (fun path => (runCheck files [path] schema).notices) := by
  simp only [runCheck_of_loadSchema h]
  induction paths with
  | nil => simp
  | cons path paths ih =>
    rw [List.flatMap_cons, List.flatMap_cons, ← ih.1, ← ih.2]
    cases hfirst : (outcomeAlone ⟨.standard, provider⟩ files true path).compiled with
    | none => simp [hfirst]
    | some file => simp [hfirst]

theorem runCheck_single (h : loadSchema files schema = .ok provider) (path : Path) :
    ((runCheck files [path] schema).status = 0 → (runCheck files [path] schema).output ≠ []) ∧
      ((runCheck files [path] schema).status ≠ 0 → (runCheck files [path] schema).output = [] ∧
        (runCheck files [path] schema).notices ≠ []) := by
  simp only [runCheck_of_loadSchema h]
  cases hfile : (outcomeAlone ⟨.standard, provider⟩ files true path).compiled with
  | none => simp [hfile, notices_outcomeAlone_ne_nil hfile]
  | some file => simp [hfile, approval]

theorem runCompile_of_loadSchema (h : loadSchema files schema = .ok provider) (paths : List Path)
    (isPretty : Bool) (markers : Markers) :
    runCompile files paths schema isPretty markers =
      match (compileAll ⟨markers, provider⟩ files paths .empty).1 with
      | (some compiled, notices) => print isPretty notices ((compiled.mapM fileJson).map .array)
      | (none, notices) => ⟨1, [], notices⟩ := by
  unfold runCompile
  rw [h]
  rfl

/-- The values that compiling has to write, if there are any. -/
theorem exists_compiled_values_iff {paths : List Path} {values : List JsonValue} :
    (∃ compiled, (compileAll compiler files paths .empty).1.1 = some compiled ∧
        compiled.mapM fileJson = .ok values) ↔
      List.Forall₂ (Shows compiler files) paths values := by
  have hstart : compiler.Trusts Session.empty.cache := compiler.trusts_empty
  simp only [compileAll_eq_some_iff hstart, mapM_eq_ok_iff, exists_forall₂_and_iff,
    gives_fileJson_iff]

/-- Compiling succeeds if each file can be shown, and writes what shows them in order. -/
theorem runCompile_of_shows (h : loadSchema files schema = .ok provider) {paths : List Path}
    (isPretty : Bool) {markers : Markers} {values : List JsonValue}
    (hshows : List.Forall₂ (Shows ⟨markers, provider⟩ files) paths values) :
    (runCompile files paths schema isPretty markers).status = 0 ∧
      JsonValue.parse? (runCompile files paths schema isPretty markers).output =
        some (.array values) := by
  obtain ⟨compiled, hall, hvalues⟩ := exists_compiled_values_iff.2 hshows
  rw [runCompile_of_loadSchema h]
  generalize (compileAll ⟨markers, provider⟩ files paths .empty).1 = run at hall
  obtain ⟨found, notices⟩ := run
  obtain rfl : found = some compiled := hall
  dsimp only
  rw [hvalues]
  refine ⟨rfl, ?_⟩
  cases isPretty with
  | false => exact JsonValue.parse?_line_of_scans (JsonValue.scans_compact _)
  | true => exact JsonValue.parse?_line_of_scans (JsonValue.scans_pretty 0 _)

/-- Compiling fails without output if a file cannot be shown. -/
theorem runCompile_of_not_shows (h : loadSchema files schema = .ok provider) {paths : List Path}
    (isPretty : Bool) {markers : Markers}
    (hshows : ¬∃ values, List.Forall₂ (Shows ⟨markers, provider⟩ files) paths values) :
    (runCompile files paths schema isPretty markers).status = 1 ∧
      (runCompile files paths schema isPretty markers).output = [] := by
  have hall (compiled : List CompiledFile) (values : List JsonValue)
      (hcompiled : (compileAll ⟨markers, provider⟩ files paths .empty).1.1 = some compiled) :
      compiled.mapM fileJson ≠ .ok values := fun hvalues =>
    hshows ⟨values, exists_compiled_values_iff.1 ⟨compiled, hcompiled, hvalues⟩⟩
  rw [runCompile_of_loadSchema h]
  generalize (compileAll ⟨markers, provider⟩ files paths .empty).1 = run at hall
  obtain ⟨_ | compiled, notices⟩ := run
  · exact ⟨rfl, rfl⟩
  · cases hvalues : compiled.mapM fileJson with
    | ok values => exact absurd hvalues (hall compiled values rfl)
    | error reason =>
      dsimp only
      rw [hvalues]
      exact ⟨rfl, rfl⟩

theorem runCompile_status_eq_zero_iff (h : loadSchema files schema = .ok provider)
    (paths : List Path) (isPretty : Bool) (markers : Markers) :
    (runCompile files paths schema isPretty markers).status = 0 ↔
      ∀ path ∈ paths, ∃ value, Shows ⟨markers, provider⟩ files path value := by
  rw [← exists_forall₂_iff]
  by_cases hall : ∃ values, List.Forall₂ (Shows ⟨markers, provider⟩ files) paths values
  · obtain ⟨values, hshows⟩ := hall
    exact iff_of_true (runCompile_of_shows h isPretty hshows).1 ⟨values, hshows⟩
  · refine iff_of_false ?_ hall
    rw [(runCompile_of_not_shows h isPretty hall).1]
    exact Nat.one_ne_zero

/-- **Compiling and checking agree, and no file influences another.** For any files and markers and
any schema that can be loaded: checking says of each file what it says of that file alone, in its
output if the file is in order and in a notice if it is not, and succeeds exactly if every file can
be read and compiles. Compiling succeeds exactly if checking does and every path is a text; then its
output is a JSON text for the list of what shows the files, in order, each as for that file alone,
and else it has no output. -/
theorem run_check_compile (hschema : loadSchema files schema = .ok provider) (paths : List Path)
    (isPretty : Bool) (markers : Markers) :
    let checked (paths : List Path) := (Command.check paths schema).run files
    let compiled (paths : List Path) := (Command.compile paths schema isPretty markers).run files
    ((checked paths).output = paths.flatMap (fun path => (checked [path]).output) ∧
      (checked paths).notices = paths.flatMap (fun path => (checked [path]).notices) ∧
      (∀ path, ((checked [path]).status = 0 → (checked [path]).output ≠ []) ∧
        ((checked [path]).status ≠ 0 →
          (checked [path]).output = [] ∧ (checked [path]).notices ≠ [])) ∧
      ((checked paths).status = 0 ↔
        ∀ path ∈ paths, ∃ file, Gives ⟨.standard, provider⟩ files path file) ∧
      ((checked paths).status = 0 ↔ ∀ path ∈ paths, (checked [path]).status = 0)) ∧
    ((compiled paths).status = 0 ↔
      (checked paths).status = 0 ∧ ∀ path ∈ paths, path.text?.isSome) ∧
    ((compiled paths).status = 0 → ∃ values,
      JsonValue.parse? (compiled paths).output = some (.array values) ∧
        List.Forall₂ (fun path value => Shows ⟨markers, provider⟩ files path value ∧
          JsonValue.parse? (compiled [path]).output = some (.array [value])) paths values) ∧
    ((compiled paths).status ≠ 0 → (compiled paths).output = []) := by
  intro checked compiled
  have hchecked := runCheck_status_eq_zero_iff hschema paths
  have hcompiled := runCompile_status_eq_zero_iff hschema paths isPretty markers
  refine ⟨⟨(runCheck_flatMap hschema paths).1, (runCheck_flatMap hschema paths).2,
    runCheck_single hschema, hchecked, ?_⟩, ?_, fun hsuccess => ?_, fun hfailure => ?_⟩
  · simp only [checked, run, hchecked, runCheck_status_eq_zero_iff hschema, List.mem_singleton,
      forall_eq]
  · simp only [checked, compiled, run, hchecked, hcompiled, exists_shows_iff,
      exists_gives_iff markers .standard provider, forall₂_and]
  · obtain ⟨values, hshows⟩ := exists_forall₂_iff.2 (hcompiled.1 hsuccess)
    refine ⟨values, (runCompile_of_shows hschema isPretty hshows).2, hshows.imp ?_⟩
    exact fun path value hvalue =>
      ⟨hvalue, (runCompile_of_shows hschema isPretty (.cons hvalue .nil)).2⟩
  · have hshows : ¬∃ values, List.Forall₂ (Shows ⟨markers, provider⟩ files) paths values :=
      fun hall => hfailure (hcompiled.2 (exists_forall₂_iff.1 hall))
    exact (runCompile_of_not_shows hschema isPretty hshows).2

end

/-- Files are in order behind one that cannot be read and one that is refused, but nothing is
written for them; without those two they are compiled, each to the same value. -/
theorem run_check_compile_refused :
    let a : Path := .ofText ['a']
    let b : Path := .ofText ['b']
    let c : Path := .ofText ['c']
    let files : Files := fun path =>
      if path = a then .ok "--name: a\nDELETE FROM t WHERE x=$\x7bp\x7d\n".toUTF8
      else if path = b then .ok "--name: a\nSELECT\n".toUTF8
      else .error .absent
    let method : Method :=
      { name := ⟨none, ['a']⟩, isMutation := true, kind := .mutation .result,
        body := .static ⟨"DELETE FROM t WHERE x=:".toList, [['p']], []⟩, fields := [], tables := [],
        execTag := none, returns := some ⟨.execResult, false⟩, resultRecord := none,
        span := ⟨0, 37⟩ }
    let value : JsonValue :=
      .ofPairs [("path", .ofText ['a']), ("methods", .ofList Method.toJson [method])]
    let checked (paths : List Path) := (Command.check paths none).run files
    let compiled (paths : List Path) := (Command.compile paths none true ⟨[':'], []⟩).run files
    loadSchema files none = .ok none ∧
      (checked [a, b, c, a]).status = 1 ∧
      (checked [a, b, c, a]).output =
        [a, b, c, a].flatMap (fun path => (checked [path]).output) ∧
      (checked [b]).notices ≠ [] ∧
      (compiled [a, b, c, a]).output = [] ∧
      (checked [a, a]).status = 0 ∧ (compiled [a, a]).status = 0 ∧
      JsonValue.parse? (compiled [a, a]).output = some (.array [value, value]) := by
  intro a b c files method value checked compiled
  have hschema : loadSchema files none = .ok none := rfl
  have hmixed : (checked [a, b, c, a]).status = 1 := by decide +kernel
  have hrefused : (checked [b]).status = 1 := by decide +kernel
  have hsound : (checked [a, a]).status = 0 := by decide +kernel
  have htext : readText files a = .ok "--name: a\nDELETE FROM t WHERE x=$\x7bp\x7d\n".toList := by
    decide +kernel
  have hfile : Compiler.compiled ⟨⟨[':'], []⟩, none⟩ a
      "--name: a\nDELETE FROM t WHERE x=$\x7bp\x7d\n".toList = .ok ⟨a, [method]⟩ := by
    decide +kernel
  have hvalue {v : JsonValue} (h : Shows ⟨⟨[':'], []⟩, none⟩ files a v) : v = value := by
    obtain ⟨file, t, ⟨text, hread, hcompiled⟩, hpath, rfl⟩ := h
    obtain rfl := Except.ok.inj (htext.symm.trans hread)
    obtain rfl := Except.ok.inj (hfile.symm.trans hcompiled)
    obtain rfl := Option.some.inj hpath
    rfl
  obtain ⟨⟨houtput, -, hsingle, -⟩, hstatus, -, hnothing⟩ :=
    run_check_compile hschema [a, b, c, a] true ⟨[':'], []⟩
  obtain ⟨-, hstatus', hvalues, -⟩ := run_check_compile hschema [a, a] true ⟨[':'], []⟩
  have hcompiled : (compiled [a, a]).status = 0 := hstatus'.2 ⟨hsound, by decide⟩
  obtain ⟨values, hparse, hall⟩ := hvalues hcompiled
  obtain ⟨v, _, hfirst, hrest, rfl⟩ := List.forall₂_cons_left_iff.1 hall
  obtain ⟨w, _, hsecond, hnone, rfl⟩ := List.forall₂_cons_left_iff.1 hrest
  obtain rfl := List.forall₂_nil_left_iff.1 hnone
  rw [hvalue hfirst.1, hvalue hsecond.1] at hparse
  refine ⟨hschema, hmixed, houtput, ((hsingle b).2 (by rw [hrefused]; decide)).2,
    hnothing fun h => ?_, hsound, hcompiled, hparse⟩
  exact absurd (hmixed.symm.trans (hstatus.1 h).1) (by decide)

/-- A file in order at a path that is no text passes when it is checked and cannot be written when
it is compiled; and if one of the files is named by the empty path, the arguments are refused, and
the files beside it are not checked. -/
theorem run_check_compile_unwritable :
    let source := "--name: a\nDELETE FROM t\n".toUTF8
    let path : Path := ⟨[.stray [0xff]]⟩
    let files : Files := fun p => if p = path then .ok source else .error .absent
    let read : Text → Except Refusal ByteArray := fun t =>
      if t = ['a'] then .ok source else .error .absent
    ((Command.check [path] none).run files).status = 0 ∧
      ((Command.compile [path] none false .standard).run files).status = 1 ∧
      ((Command.compile [path] none false .standard).run files).output = [] ∧
      (runProgram read ["check".toList, ['a']]).status = 0 ∧
      (runProgram read ["check".toList, ['a']]).output ≠ [] ∧
      runProgram read ["check".toList, ['a'], []] = ⟨2, [], []⟩ := by
  decide +kernel

end Command

end QueryTemplate
