import QueryTemplate.Proofs.File.Composition
import QueryTemplate.Proofs.Forward.Segment
import QueryTemplate.Proofs.Template.Header
import QueryTemplate.Proofs.Text.Stretch

/-! # Places in methods and files

No place in a compiled method or in the fault that refuses a file runs backward. A compilation
goes from session to session, so the names that are taken keep places that do not run backward, too:
a fault can show one of them.
-/

namespace QueryTemplate

instance : Placed ExecKind := .plain
instance : Placed ReturnType := .plain
instance : Placed StatementKind := .plain
instance : Placed MethodBody := .plain
instance : Placed ResultRecord := .plain
instance : Placed ResultColumn := .plain
instance : Placed (Except SchemaCause SchemaTable) := .plain

instance : Placed MethodCause where
  Forward
    | .duplicateMethod _ first => Forward first
    | _ => True

instance : Placed WrittenOption := ⟨fun w => Forward w.span⟩

instance : Placed MethodOptions where
  Forward options := Forward options.exec ∧ Forward options.returns ∧
    Forward options.dynamic ∧ Forward options.auto

instance : Placed MethodSource where
  Forward m := Forward m.options ∧ Forward m.headerSpan ∧ Forward m.nameSpan

instance : Placed Method where
  Forward m := Forward m.fields ∧ Forward m.tables ∧ Forward m.span

theorem TemplateFault.forward_inMethod {fault : TemplateFault} (h : Forward fault) :
    Forward fault.inMethod := ⟨trivial, h.2⟩

theorem forward_foldlM {α β ε : Type} [Placed α] [Placed β] [Placed ε]
    {f : β → α → Except ε β} {xs : List α} (hxs : Forward xs)
    (hf : ∀ b a, Forward b → Forward a → Forward (f b a)) {b : β} (hb : Forward b) :
    Forward (xs.foldlM f b) := by
  induction xs generalizing b with
  | nil => exact hb
  | cons x xs ih =>
    obtain ⟨hx, hrest⟩ := forward_cons.1 hxs
    rw [List.foldlM_cons]
    exact forward_bind (hf _ _ hb hx) fun _ h => ih hrest h

theorem forward_mapM {α β ε : Type} [Placed β] [Placed ε] {f : α → Except ε β}
    (hf : ∀ a, Forward (f a)) (xs : List α) : Forward (xs.mapM f) := by
  induction xs with
  | nil => exact forward_ok.2 forward_nil
  | cons x xs ih =>
    rw [List.mapM_cons]
    exact forward_bind (hf x) fun _ hy =>
      forward_bind ih fun _ hys => forward_ok.2 (forward_cons.2 ⟨hy, hys⟩)

/-! ## Options -/

namespace MethodOptions

variable {options : MethodOptions} (hoptions : Forward options)
include hoptions

theorem forward_add {w : WrittenOption} (hw : Forward w) : Forward (options.add w) := by
  obtain ⟨hexec, hreturns, hdynamic, hauto⟩ := hoptions
  have hfault (cause : MethodCause) (hcause : Forward cause) :
      Forward (⟨cause, w.span⟩ : MethodFault) := ⟨hcause, hw⟩
  unfold add set
  split
  · exact hfault _ trivial
  · refine forward_ite (fun _ => hfault _ trivial) fun _ => ?_
    split
    · exact hfault _ trivial
    · split
      · exact ⟨forward_some.2 ⟨trivial, hw⟩, hreturns, hdynamic, hauto⟩
      · exact hfault _ trivial
    · exact hfault _ trivial
    · split
      · exact ⟨hexec, forward_some.2 ⟨trivial, hw⟩, hdynamic, hauto⟩
      · exact hfault _ trivial
    · exact ⟨hexec, hreturns, forward_some.2 hw, hauto⟩
    · exact ⟨hexec, hreturns, hdynamic, forward_some.2 hw⟩
    · exact hfault _ trivial
    · exact hfault _ trivial

omit hoptions in
theorem forward_decode {written : List WrittenOption} (h : Forward written) :
    Forward (decode written) :=
  forward_foldlM h (fun _ _ ho hw => forward_add ho hw)
    ⟨forward_none, forward_none, forward_none, forward_none⟩

theorem forward_classify {keyword : Located Keyword} (hkeyword : Forward keyword) :
    Forward (options.classify keyword) := by
  obtain ⟨-, hreturns, -, hauto⟩ := hoptions
  refine forward_ite (fun _ => ?_) fun _ => ?_
  · unfold classifyMutation
    split
    · rename_i h
      rw [h] at hauto
      exact ⟨trivial, forward_some.1 hauto⟩
    · dsimp only
      split
      · exact ⟨trivial, trivial⟩
      · rename_i h
        rw [h] at hreturns
        refine forward_ite (fun _ => ⟨trivial, trivial⟩) fun _ => ?_
        exact ⟨trivial, (forward_some.1 hreturns).2⟩
  · unfold classifyQuery
    split
    · exact ⟨trivial, hkeyword.2⟩
    · rename_i h
      rw [h] at hreturns
      have hspan := (forward_some.1 hreturns).2
      dsimp only
      split
      · exact ⟨trivial, hspan⟩
      · exact forward_ite (fun _ => ⟨trivial, hspan⟩) fun _ => ⟨trivial, trivial⟩
      · exact ⟨trivial, trivial⟩

end MethodOptions

/-! ## Division of a file -/

/-- The space at the beginning of a text that is not blank is kept when its end is trimmed. -/
theorem Text.size_le_trimEnd {t : Text} (h : ¬isBlank t) :
    size (t.takeWhile isSpace) ≤ size (trimEnd t) := by
  obtain ⟨space, ht, hlast⟩ := trimEnd_append t
  have hkept : trimEnd t <+: t := ⟨space, ht.symm⟩
  rcases List.prefix_or_prefix_of_prefix (List.takeWhile_prefix isSpace) hkept with hlead | hlead
  · obtain ⟨rest, hrest⟩ := hlead
    rw [← hrest, size_append]
    exact Nat.le_add_right ..
  · rcases hlast with hnil | ⟨c, hc, hspace⟩
    · exact absurd (trimEnd_eq_nil_iff.1 hnil) h
    · have hmem := List.mem_takeWhile_imp (hlead.subset (List.mem_of_getLast? hc))
      rw [hspace] at hmem
      cases hmem

namespace MethodSource

theorem forward_ofBlock (b : Block) : Forward (ofBlock b) := by
  have hwords : Forward (Text.words (b.header.stop - Text.size b.rest) b.rest) := by
    intro w hw
    obtain ⟨_, _, -, hspan⟩ := (Text.HoldsWords.holdsWords_words _ _).stands w hw
    exact ⟨trivial, by rw [hspan]; exact forward_span_add ..⟩
  unfold ofBlock ofHeader
  dsimp only
  split
  · exact ⟨trivial, forward_span_add ..⟩
  · rename_i word options h
    rw [h] at hwords
    obtain ⟨hword, hoptions⟩ := forward_cons.1 hwords
    split
    · exact ⟨trivial, hword.2⟩
    · refine ⟨?_, forward_span_add .., hword.2⟩
      intro w hw
      obtain ⟨option, hmem, rfl⟩ := List.mem_map.1 hw
      unfold WrittenOption.ofWord
      split <;> exact (hoptions option hmem).2

theorem forward_checkLead (line : Fragment) : Forward (checkLead line) := by
  refine forward_ite (fun _ => trivial) fun h => ⟨trivial, ?_⟩
  have hblank : ¬Text.isBlank line.text := fun hblank => h (by simp [hblank])
  have hindent := Text.size_le_trimEnd hblank
  have hsize := Text.size_trimStart line.text
  simp only [Forward]
  omega

theorem forward_split (file : Text) : Forward (split file) := by
  rw [split_eq]
  refine forward_bind ?_ fun _ _ => forward_mapM forward_ofBlock _
  generalize (group (locate 0 (Text.lines file))).1 = lead
  induction lead with
  | nil => exact forward_ok.2 trivial
  | cons line lead ih => exact forward_bind (forward_checkLead line) fun _ _ => ih

end MethodSource

/-! ## Runs -/

/-- From a state with `P`, the run ends with an outcome in which no place runs backward, and leaves
a state with `P` behind. -/
def KeepsForward {σ α : Type} [Placed α] (P : σ → Prop)
    (x : ExceptT MethodFault (StateM σ) α) : Prop :=
  ∀ s, P s → Forward (x s).1 ∧ P (x s).2

namespace KeepsForward

variable {σ α β : Type} [Placed α] [Placed β] {P : σ → Prop}

theorem bind {x : ExceptT MethodFault (StateM σ) α} {f : α → ExceptT MethodFault (StateM σ) β}
    (hx : KeepsForward P x) (hf : ∀ a, Forward a → KeepsForward P (f a)) :
    KeepsForward P (x >>= f) := by
  intro s hs
  obtain ⟨houtcome, hstate⟩ := hx s hs
  rw [bind_run]
  generalize (x s).1 = outcome at houtcome
  cases outcome with
  | ok a => exact hf a houtcome _ hstate
  | error fault => exact ⟨houtcome, hstate⟩

theorem ofOutcome {x : Except MethodFault α} (h : Forward x) :
    KeepsForward P (ExceptT.mk (Pure.pure x)) :=
  fun _ hs => ⟨h, hs⟩

theorem pure {a : α} (h : Forward a) :
    KeepsForward P (Pure.pure a : ExceptT MethodFault (StateM σ) α) :=
  fun _ hs => ⟨h, hs⟩

theorem throw {fault : MethodFault} (h : Forward fault) :
    KeepsForward P (MonadExcept.throw fault : ExceptT MethodFault (StateM σ) α) :=
  fun _ hs => ⟨h, hs⟩

omit [Placed α] in
theorem throw_bind {fault : MethodFault} (h : Forward fault)
    (f : α → ExceptT MethodFault (StateM σ) β) :
    KeepsForward P (MonadExcept.throw fault >>= f) :=
  fun _ hs => ⟨h, hs⟩

theorem ite {c : Prop} [Decidable c] {x y : ExceptT MethodFault (StateM σ) α}
    (ht : c → KeepsForward P x) (he : ¬c → KeepsForward P y) :
    KeepsForward P (if c then x else y) := by
  by_cases h : c
  · simpa only [if_pos h] using ht h
  · simpa only [if_neg h] using he h

theorem foldlM {f : β → α → ExceptT MethodFault (StateM σ) β} {xs : List α} (hxs : Forward xs)
    (hf : ∀ b a, Forward b → Forward a → KeepsForward P (f b a)) {b : β} (hb : Forward b) :
    KeepsForward P (xs.foldlM f b) := by
  induction xs generalizing b with
  | nil => exact pure hb
  | cons x xs ih =>
    obtain ⟨hx, hrest⟩ := forward_cons.1 hxs
    rw [List.foldlM_cons]
    exact bind (hf _ _ hb hx) fun _ h => ih hrest h

theorem mapM {f : α → ExceptT MethodFault (StateM σ) β} {xs : List α} (hxs : Forward xs)
    (hf : ∀ a, Forward a → KeepsForward P (f a)) : KeepsForward P (xs.mapM f) := by
  induction xs with
  | nil => exact pure forward_nil
  | cons x xs ih =>
    obtain ⟨hx, hrest⟩ := forward_cons.1 hxs
    rw [List.mapM_cons]
    exact bind (hf x hx) fun _ hy => bind (ih hrest) fun _ hys => pure (forward_cons.2 ⟨hy, hys⟩)

end KeepsForward

/-! ## Result records -/

namespace ResultRecord

theorem forward_columns (columns : List ResultColumn) : Forward columns := fun _ _ => trivial

theorem forward_addColumn {span : Span} (hspan : Forward span) (columns : List ResultColumn)
    (column : ResultColumn) : Forward (addColumn span columns column) :=
  forward_ite (fun _ => ⟨trivial, hspan⟩) fun _ => forward_columns _

variable {provider : Provider}

theorem keepsForward_expand (tables : List QueryTable) {field : QueryField}
    (hfield : Forward field) :
    KeepsForward (fun _ => True) (expand provider tables field) := by
  have hfault (cause : MethodCause) (hcause : Forward cause) :
      Forward (⟨cause, field.span⟩ : MethodFault) := ⟨hcause, hfield⟩
  unfold expand
  refine .ite (fun _ => .pure (forward_columns _)) fun _ => ?_
  refine .ite (fun _ => .throw_bind (hfault (.verbatimField _) trivial) _) fun _ => ?_
  refine .ite (fun _ => .throw_bind (hfault (.verbatimTable _) trivial) _) fun _ => ?_
  refine .bind (fun _ _ => ⟨trivial, trivial⟩) fun answer (_ : Forward answer) => ?_
  cases answer with
  | error cause => exact .throw (hfault _ trivial)
  | ok table =>
    refine .ite (fun _ => .pure (forward_columns _)) fun _ => ?_
    split
    · exact .pure (forward_columns _)
    · exact .throw (hfault _ trivial)

theorem keepsForward_derive (name : Text) {fields : List QueryField} (hfields : Forward fields)
    (tables : List QueryTable) :
    KeepsForward (fun _ => True) (derive provider name fields tables) := by
  refine .bind (.foldlM hfields (fun columns field _ hfield => ?_) forward_nil) fun _ _ =>
    .pure trivial
  refine .bind (keepsForward_expand tables hfield) fun more hmore => .ofOutcome ?_
  exact forward_foldlM hmore (fun _ _ _ _ => forward_addColumn hfield ..) (forward_columns columns)

end ResultRecord

/-! ## Sessions -/

/-- No place of a name that is taken runs backward. -/
abbrev Session.NamesForward (s : Session) : Prop := Forward s.names

namespace Compiler

theorem keepsForward_takeName {source : MethodSource} (h : Forward source) :
    KeepsForward Session.NamesForward (takeName source) := by
  intro s hs
  rw [takeName_run]
  split
  · rename_i hfind
    have hfirst := hs _ (List.mem_of_find?_eq_some hfind)
    exact ⟨⟨hfirst.2, h.2.2⟩, hs⟩
  · exact ⟨trivial, forward_cons.2 ⟨⟨trivial, h.2.2⟩, hs⟩⟩

theorem keepsForward_warnExec (options : MethodOptions) (keyword : Keyword) :
    KeepsForward Session.NamesForward (warnExec options keyword) := by
  unfold warnExec
  split
  · exact .ite (fun _ => .pure trivial) fun _ _ hs => ⟨trivial, hs⟩
  · exact .pure trivial

theorem keepsForward_inTemplate {α : Type} [Placed α] {x : Checked α} (h : Forward x) :
    KeepsForward Session.NamesForward (inTemplate x) :=
  .ofOutcome (forward_mapError h fun _ => TemplateFault.forward_inMethod)

theorem keepsForward_resultRecord (compiler : Compiler) {auto : Option Span} (hauto : Forward auto)
    (returns : ReturnType) {shape : QueryShape} (hshape : Forward shape) :
    KeepsForward Session.NamesForward (compiler.resultRecord auto returns shape) := by
  unfold resultRecord
  split
  · exact .pure forward_none
  · exact .throw ⟨trivial, forward_some.1 hauto⟩
  · rename_i provider _
    intro s hs
    have hderive := (@ResultRecord.keepsForward_derive provider returns.element.text _ hshape.1
      shape.tables s.cache trivial).1
    exact ⟨forward_map hderive fun _ _ => forward_some.2 trivial, hs⟩

theorem forward_methodBody (markers : Markers) (isDynamic : Bool) (source : Fragment) :
    Forward (methodBody markers isDynamic source) := by
  refine forward_ite (fun _ => ?_) fun _ => ?_
  · exact forward_map (Segment.forward_divide markers source) fun _ _ => trivial
  · split
    · exact ⟨trivial, forward_span_add ..⟩
    · exact forward_map (Segment.forward_resolve markers source) fun _ _ => trivial

theorem forward_statementShape (kind : StatementKind) (source : Fragment) :
    Forward (statementShape kind source) :=
  forward_ite (fun _ => ⟨forward_nil, forward_nil⟩) fun _ => Query.forward_shape .sql source

theorem keepsForward_compileMethod (compiler : Compiler) {source : MethodSource}
    (h : Forward source) : KeepsForward Session.NamesForward (compiler.compileMethod source) := by
  refine .bind (.ofOutcome (MethodOptions.forward_decode h.1)) fun options hoptions => ?_
  refine .bind (keepsForward_takeName h) fun _ _ => ?_
  have hempty : Forward (⟨.emptyBody source.name.qualified, source.headerSpan⟩ : MethodFault) :=
    ⟨trivial, h.2.1⟩
  refine .ite (fun _ => .throw_bind hempty _) fun _ => ?_
  refine .bind (keepsForward_inTemplate (Query.forward_leadingKeyword .sql _))
    fun keyword hkeyword => ?_
  refine .bind (keepsForward_warnExec options _) fun _ _ => ?_
  refine .bind (.ofOutcome (MethodOptions.forward_classify hoptions hkeyword))
    fun ⟨kind, returns⟩ _ => ?_
  refine .bind (keepsForward_inTemplate (forward_methodBody ..)) fun body _ => ?_
  refine .bind (keepsForward_inTemplate (forward_statementShape kind _)) fun shape hshape => ?_
  refine .bind (keepsForward_resultRecord compiler hoptions.2.2.2 returns hshape) fun _ _ => ?_
  exact .pure ⟨hshape.1, hshape.2, Span.forward_merge h.2.1⟩

/-- No place in what compiling a text gives runs backward, whatever the session. -/
theorem forward_compileText (compiler : Compiler) (text : Text) (s : Session) :
    Forward (compiler.compileText text s).1 := by
  have hsplit := MethodSource.forward_split text
  rw [compileText_run]
  generalize MethodSource.split text = divided at hsplit
  cases divided with
  | error fault => exact hsplit
  | ok sources =>
    exact (KeepsForward.mapM hsplit (fun _ h => keepsForward_compileMethod compiler h)
      { s with names := [] } forward_nil).1

end Compiler

end QueryTemplate
