import QueryTemplate.Proofs.Session.History
import QueryTemplate.Proofs.Template.Printing

/-! # What markers decide

Markers are written into the texts of statements and decide nothing else. A template that is
refused with some markers is refused with all of them, for the same reason. The only segments that
can come and go are constant ones, which are left out when nothing is written into them; so with
markers that are not empty the methods differ in the texts of their statements at most.
-/

namespace QueryTemplate

/-! ## Texts left out -/

def Statement.withoutText (s : Statement) : Statement := { s with text := [] }

def Segment.withoutText : Segment → Segment
  | constant body => constant body.withoutText
  | conditional condition body => conditional condition body.withoutText
  | loop element collection separator body => loop element collection separator body.withoutText

def MethodBody.withoutTexts : MethodBody → MethodBody
  | static statement => static statement.withoutText
  | dynamic segments => dynamic (segments.map Segment.withoutText)

def Method.withoutTexts (m : Method) : Method := { m with body := m.body.withoutTexts }

def CompiledFile.withoutTexts (file : CompiledFile) : CompiledFile :=
  { file with methods := file.methods.map Method.withoutTexts }

theorem Segment.isDynamic_withoutText (s : Segment) : s.withoutText.isDynamic = s.isDynamic := by
  cases s <;> rfl

theorem BlockOpening.withoutText_segment (opening : BlockOpening) (s : Statement) :
    (opening.segment s).withoutText = opening.segment s.withoutText := by
  cases opening <;> rfl

/-! ## Statements and segments -/

def Markers.AllWritten (markers markers' : Markers) : Prop :=
  ∀ sort, markers.text sort ≠ [] ∧ markers'.text sort ≠ []

section

variable {markers markers' : Markers}

/-- The statements that the same pieces make with two pairs of markers. -/
structure Statement.SamePieces (markers markers' : Markers) (s s' : Statement) : Prop where
  withoutText : s.withoutText = s'.withoutText
  isEmpty : markers.AllWritten markers' → s.isEmpty = s'.isEmpty

theorem Statement.samePieces_ofPieces (pieces : List Piece) :
    SamePieces markers markers' (ofPieces markers pieces) (ofPieces markers' pieces) := by
  refine ⟨rfl, fun hwritten => ?_⟩
  rw [isEmpty, isEmpty, ofPieces, ofPieces, Bool.eq_iff_iff, List.isEmpty_iff, List.isEmpty_iff,
    Piece.write_eq_nil_iff fun sort => (hwritten sort).1,
    Piece.write_eq_nil_iff fun sort => (hwritten sort).2]

/-- The segments are the same but for the texts of statements, if no marker is empty; if one is, at
least both or none of them have a dynamic one. -/
structure Segment.SameParts (markers markers' : Markers) (segments segments' : List Segment) :
    Prop where
  isDynamic : segments.any isDynamic = segments'.any isDynamic
  withoutText : markers.AllWritten markers' →
    segments.map Segment.withoutText = segments'.map Segment.withoutText

namespace Segment

theorem SameParts.append {xs xs' ys ys' : List Segment} (hx : SameParts markers markers' xs xs')
    (hy : SameParts markers markers' ys ys') :
    SameParts markers markers' (xs ++ ys) (xs' ++ ys') := by
  refine ⟨?_, fun hwritten => ?_⟩
  · rw [List.any_append, List.any_append, hx.isDynamic, hy.isDynamic]
  · rw [List.map_append, List.map_append, hx.withoutText hwritten, hy.withoutText hwritten]

theorem SameParts.cons {x x' : Segment} {ys ys' : List Segment}
    (hx : x.withoutText = x'.withoutText) (hy : SameParts markers markers' ys ys') :
    SameParts markers markers' (x :: ys) (x' :: ys') := by
  have hdynamic : x.isDynamic = x'.isDynamic := by
    rw [← isDynamic_withoutText, hx, isDynamic_withoutText]
  refine ⟨?_, fun hwritten => ?_⟩
  · rw [List.any_cons, List.any_cons, hdynamic, hy.isDynamic]
  · rw [List.map_cons, List.map_cons, hx, hy.withoutText hwritten]

theorem sameFault_resolve (source : Fragment) :
    Except.Related Eq (Statement.SamePieces markers markers') (resolve markers source)
      (resolve markers' source) := by
  rw [resolve, resolve, Statement.resolve, Statement.resolve]
  cases Piece.scan source.offset source.text with
  | ok pieces => exact .ok (Statement.samePieces_ofPieces pieces)
  | error fault => exact .error rfl

theorem sameFault_constants (source : Fragment) :
    Except.Related Eq (SameParts markers markers') (constants markers source)
      (constants markers' source) := by
  refine (sameFault_resolve source).map fun s s' hs => ⟨?_, fun hwritten => ?_⟩
  · cases s.isEmpty <;> cases s'.isEmpty <;> rfl
  · rw [hs.isEmpty hwritten]
    cases s'.isEmpty with
    | true => rfl
    | false => simp [withoutText, hs.withoutText]

theorem sameFault_block (directive : Directive) (source : Fragment) :
    Except.Related Eq (fun x x' => x.1.withoutText = x'.1.withoutText ∧ x.2 = x'.2)
      (block markers directive source) (block markers' directive source) := by
  unfold block
  cases BlockOpening.ofDirective directive with
  | error fault => exact .error rfl
  | ok opening =>
    dsimp only
    cases blockBody opening.kind directive source with
    | error fault => exact .error rfl
    | ok parts =>
      obtain ⟨body, after⟩ := parts
      refine (sameFault_resolve body).map fun s s' hs => ⟨?_, rfl⟩
      rw [BlockOpening.withoutText_segment, BlockOpening.withoutText_segment, hs.withoutText]

theorem sameFault_parts (source : Fragment) :
    Except.Related Eq (SameParts markers markers') (parts markers source)
      (parts markers' source) := by
  induction hn : source.text.length using Nat.strongRecOn generalizing source with
  | ind n ih =>
    rw [parts_eq markers, parts_eq markers']
    cases hfirst : Directive.first? source with
    | none => exact sameFault_constants source
    | some found =>
      obtain ⟨before, found⟩ := found
      have hlead := @sameFault_constants markers markers' before
      dsimp only
      generalize constants markers before = x, constants markers' before = x' at hlead
      cases hlead with
      | error h => exact .error h
      | ok hlead =>
        cases found with
        | error fault => exact .error rfl
        | ok found =>
          obtain ⟨directive, inside⟩ := found
          have hblock := @sameFault_block markers markers' directive inside
          dsimp only
          generalize hb : block markers directive inside = y,
            block markers' directive inside = y' at hblock
          cases hblock with
          | error h => exact .error h
          | @ok z z' h =>
            obtain ⟨segment, after⟩ := z
            obtain ⟨segment', after'⟩ := z'
            obtain ⟨hsegment, rfl⟩ :
              segment.withoutText = segment'.withoutText ∧ after = after' := h
            have hshorter := Nat.lt_trans (block_length hb) (Directive.first?_length hfirst)
            exact (ih _ (hn ▸ hshorter) after rfl).map fun _ _ hlater =>
              hlead.append (.cons hsegment hlater)

theorem sameFault_divide (source : Fragment) :
    Except.Related Eq (SameParts markers markers') (divide markers source)
      (divide markers' source) := by
  have hparts := @sameFault_parts markers markers' source
  unfold divide
  generalize parts markers source = x, parts markers' source = x' at hparts
  cases hparts with
  | error h => exact .error h
  | @ok segments segments' h =>
    dsimp only
    rw [h.isDynamic]
    cases segments'.any isDynamic with
    | true => exact .ok h
    | false => exact .error rfl

end Segment

/-! ## Methods -/

namespace Compiler

theorem sameFault_methodBody (isDynamic : Bool) (source : Fragment) :
    Except.Related Eq (fun body body' => markers.AllWritten markers' →
        body.withoutTexts = body'.withoutTexts)
      (methodBody markers isDynamic source) (methodBody markers' isDynamic source) := by
  unfold methodBody
  cases isDynamic with
  | true =>
    exact (Segment.sameFault_divide source).map fun _ _ h hwritten =>
      congrArg MethodBody.dynamic (h.withoutText hwritten)
  | false =>
    cases Directive.find? source.text with
    | some found => exact .error rfl
    | none =>
      exact (Segment.sameFault_resolve source).map fun _ _ h _ =>
        congrArg MethodBody.static h.withoutText

theorem sameFault_compileMethod (provider : Option Provider) (source : MethodSource) :
    Simulates Eq (fun m m' => markers.AllWritten markers' → m.withoutTexts = m'.withoutTexts) Eq
      (compileMethod ⟨markers, provider⟩ source) (compileMethod ⟨markers', provider⟩ source) := by
  refine .step .refl _ fun options => .step .refl _ fun _ => ?_
  refine .ite (fun _ => .throw_bind rfl _ _) fun _ => ?_
  refine .step .refl _ fun keyword => .step .refl _ fun _ => .step .refl _ fun c => ?_
  obtain ⟨kind, returns⟩ := c
  have hbody := (@sameFault_methodBody markers markers' options.dynamic.isSome source.body).mapError
    fun _ _ => congrArg TemplateFault.inMethod
  refine .bind (.ofOutcome hbody) fun body body' hbody => ?_
  refine .step .refl _ fun shape => .step .refl _ fun record => .pure fun hwritten => ?_
  rw [Method.withoutTexts, Method.withoutTexts, hbody hwritten]

theorem sameFault_compileAll (provider : Option Provider) (sources : List MethodSource) :
    Simulates Eq
      (List.Forall₂ fun m m' => markers.AllWritten markers' → m.withoutTexts = m'.withoutTexts) Eq
      (sources.mapM (compileMethod ⟨markers, provider⟩) : Compile _)
      (sources.mapM (compileMethod ⟨markers', provider⟩)) :=
  .mapM (List.forall₂_same.2 fun source _ => sameFault_compileMethod provider source)

theorem sameFault_compiled (provider : Option Provider) (path : Path) (text : Text) :
    Except.Related Eq
      (fun file file' => markers.AllWritten markers' → file.withoutTexts = file'.withoutTexts)
      (compiled ⟨markers, provider⟩ path text) (compiled ⟨markers', provider⟩ path text) := by
  cases hsplit : MethodSource.split text with
  | error fault =>
    simp only [compiled, compileFile_run, compileText_run, hsplit]
    exact .error rfl
  | ok sources =>
    rw [compiled_eq hsplit, compiled_eq hsplit]
    have hrun := (@sameFault_compileAll markers markers' provider sources .empty _ rfl).1
    generalize ((sources.mapM (compileMethod ⟨markers, provider⟩) : Compile _) .empty).1 = x,
      ((sources.mapM (compileMethod ⟨markers', provider⟩) : Compile _) .empty).1 = x' at hrun
    cases hrun with
    | error h => exact .error (congrArg _ h)
    | @ok ms ms' hms =>
      refine .ok fun hwritten => ?_
      have hmethods : ms.map Method.withoutTexts = ms'.map Method.withoutTexts := by
        rw [← List.forall₂_eq_eq_eq, List.forall₂_map_left_iff, List.forall₂_map_right_iff]
        exact hms.imp fun _ _ hm => hm hwritten
      exact congrArg (CompiledFile.mk path) hmethods

/-- **Markers decide nothing but the texts of statements.** With any two pairs of markers a file is
refused for the same reason, in the same place, or not at all; and if none of the markers is empty,
the compiled methods differ in the texts of their statements only. -/
theorem compileFile_markers (markers markers' : Markers) {provider : Option Provider}
    {s s' : Session} (hs : ∀ p ∈ provider, SchemaCache.Reachable p s.cache)
    (hs' : ∀ p ∈ provider, SchemaCache.Reachable p s'.cache) (path : Path) (text : Text) :
    let outcome := (compileFile ⟨markers, provider⟩ path text s).1
    let outcome' := (compileFile ⟨markers', provider⟩ path text s').1
    outcome.map (fun _ => ()) = outcome'.map (fun _ => ()) ∧
      (markers.AllWritten markers' →
        outcome.map CompiledFile.withoutTexts = outcome'.map CompiledFile.withoutTexts) := by
  intro outcome outcome'
  have hnew : outcome = compiled ⟨markers, provider⟩ path text :=
    compileFile_of_trusts (fun p hp => (hs p hp).faithful) path text
  have hnew' : outcome' = compiled ⟨markers', provider⟩ path text :=
    compileFile_of_trusts (fun p hp => (hs' p hp).faithful) path text
  rw [hnew, hnew']
  have hfiles := @sameFault_compiled markers markers' provider path text
  generalize compiled ⟨markers, provider⟩ path text = x,
    compiled ⟨markers', provider⟩ path text = x' at hfiles
  cases hfiles with
  | ok h => exact ⟨rfl, fun hwritten => congrArg Except.ok (h hwritten)⟩
  | error h => exact ⟨congrArg Except.error h, fun _ => congrArg Except.error h⟩

/-- Constant text that is only a placeholder is a segment of its own whatever its marker is; the
second session has described a table before. -/
theorem compileFile_markers_dynamic :
    let provider : Provider := fun name =>
      .ok ⟨name, [], [⟨['x'], [], "INT".toList, false, false⟩]⟩
    let text : Text := "--name: a returns=A auto dynamic\nSELECT x FROM t ".toList ++
      "%\x7bif p\x7d WHERE x=$\x7bp\x7d %\x7bendif\x7d #\x7bq\x7d".toList
    let markers : Markers := ⟨['$'], [' ', ':']⟩
    let s : Session := ⟨[], (SchemaCache.describe provider ['t'] .empty).2, []⟩
    let outcome := (compileFile ⟨.standard, some provider⟩ ⟨[]⟩ text .empty).1
    let outcome' := (compileFile ⟨markers, some provider⟩ ⟨[]⟩ text s).1
    outcome.map (fun file => file.methods.map Method.body) = .ok [.dynamic
      [.constant ⟨"SELECT x FROM t".toList, [], []⟩,
        .conditional ['p'] ⟨"WHERE x=?".toList, [['p']], []⟩,
        .constant ⟨['%', 'v'], [], [['q']]⟩]] ∧
    outcome'.map (fun file => file.methods.map Method.body) = .ok [.dynamic
      [.constant ⟨"SELECT x FROM t".toList, [], []⟩,
        .conditional ['p'] ⟨"WHERE x=$".toList, [['p']], []⟩,
        .constant ⟨[' ', ':'], [], [['q']]⟩]] ∧
    outcome.map (fun _ => ()) = outcome'.map (fun _ => ()) ∧
    outcome.map CompiledFile.withoutTexts = outcome'.map CompiledFile.withoutTexts := by
  intro provider text markers s outcome outcome'
  have hnew : ∀ p ∈ some provider, SchemaCache.Reachable p Session.empty.cache :=
    fun _ _ => .empty
  have hused : ∀ p ∈ some provider, SchemaCache.Reachable p s.cache := by
    intro p hp
    obtain rfl := Option.some.inj hp
    exact .describe ['t'] .empty
  have hwritten : Markers.standard.AllWritten markers := by
    intro sort
    cases sort <;> decide
  have hmarkers := compileFile_markers .standard markers hnew hused ⟨[]⟩ text
  exact ⟨by decide +kernel, by decide +kernel, hmarkers.1, hmarkers.2 hwritten⟩

end Compiler

end

end QueryTemplate
