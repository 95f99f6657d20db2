import QueryTemplate.Method.Compilation
import QueryTemplate.Proofs.Alignment.Segment

/-! # Methods of aligned sources

Compiling aligned sources gives aligned methods or aligned faults. A session goes along: the names
it knows are aligned up to names that were taken earlier and do not come up again, and the caches
are in a relation that looking up a table keeps.
-/

namespace QueryTemplate

instance : Alignable ExecKind := .plain
instance : Alignable ReturnType := .plain
instance : Alignable (StatementKind × ReturnType) := .plain
instance : Alignable MethodBody := .plain
instance : Alignable ResultRecord := .plain
instance : Alignable (Option ResultRecord) := .plain
instance : Alignable (List ResultColumn) := .plain

structure WrittenOption.Alike (A : Alignment) (w w' : WrittenOption) : Prop where
  key : w.key = w'.key
  value : w.value = w'.value
  span : Aligned A w.span w'.span

instance : Alignable WrittenOption := ⟨WrittenOption.Alike⟩

structure MethodOptions.Alike (A : Alignment) (m m' : MethodOptions) : Prop where
  exec : Aligned A m.exec m'.exec
  returns : Aligned A m.returns m'.returns
  dynamic : Aligned A m.dynamic m'.dynamic
  auto : Aligned A m.auto m'.auto

instance : Alignable MethodOptions := ⟨MethodOptions.Alike⟩

/-- The causes are the same but for the place of the first method of a name. -/
def MethodCause.Alike (A : Alignment) : MethodCause → MethodCause → Prop
  | .duplicateMethod method first, .duplicateMethod method' first' =>
    method = method' ∧ Aligned A first first'
  | cause, cause' => cause = cause'

instance : Alignable MethodCause := ⟨MethodCause.Alike⟩

structure MethodSource.Alike (A : Alignment) (m m' : MethodSource) : Prop where
  name : m.name = m'.name
  options : Aligned A m.options m'.options
  headerSpan : Aligned A m.headerSpan m'.headerSpan
  nameSpan : Aligned A m.nameSpan m'.nameSpan
  body : Aligned A m.body m'.body
  bodyStart : A.Matches m.body.offset m'.body.offset
  slice (s s' : Span) : Aligned A s s' → m.body.slice s = m'.body.slice s'

instance : Alignable MethodSource := ⟨MethodSource.Alike⟩

structure Method.Alike (A : Alignment) (m m' : Method) : Prop where
  name : m.name = m'.name
  isMutation : m.isMutation = m'.isMutation
  kind : m.kind = m'.kind
  body : m.body = m'.body
  fields : Aligned A m.fields m'.fields
  tables : Aligned A m.tables m'.tables
  execTag : m.execTag = m'.execTag
  returns : m.returns = m'.returns
  resultRecord : m.resultRecord = m'.resultRecord
  span : Aligned A m.span m'.span

instance : Alignable Method := ⟨Method.Alike⟩

section

variable {A : Alignment}

theorem TemplateFault.aligned_inMethod {f f' : TemplateFault} (h : Aligned A f f') :
    Aligned A f.inMethod f'.inMethod :=
  ⟨congrArg MethodCause.template h.value, h.span⟩

theorem aligned_foldlM {α β ε : Type} [Alignable α] [Alignable β] [Alignable ε]
    {f f' : β → α → Except ε β} {xs xs' : List α} (hxs : Aligned A xs xs')
    (hf : ∀ b b' a a', Aligned A b b' → Aligned A a a' → Aligned A (f b a) (f' b' a')) {b b' : β}
    (hb : Aligned A b b') : Aligned A (xs.foldlM f b) (xs'.foldlM f' b') := by
  induction hxs generalizing b b' with
  | nil => exact .ok hb
  | cons hx _ ih =>
    rw [List.foldlM_cons, List.foldlM_cons]
    exact aligned_bind (hf _ _ _ _ hb hx) fun _ _ h => ih h

/-! ## Options -/

namespace MethodOptions

instance : Alignable OptionFlaw := .plain

variable {m m' : MethodOptions} (hm : Aligned A m m')
include hm

theorem isSome_spanOf (key : OptionKey) : (m.spanOf key).isSome = (m'.spanOf key).isSome := by
  cases key with
  | exec => rw [spanOf, spanOf, Option.isSome_map, Option.isSome_map, aligned_isSome hm.exec]
  | returns => rw [spanOf, spanOf, Option.isSome_map, Option.isSome_map, aligned_isSome hm.returns]
  | dynamic => exact aligned_isSome hm.dynamic
  | auto => exact aligned_isSome hm.auto

theorem aligned_set (key : OptionKey) {w w' : WrittenOption} (hw : Aligned A w w') :
    Aligned A (m.set key w) (m'.set key w') := by
  unfold set
  rw [hw.value]
  split
  · exact .error rfl
  · split
    · exact .ok ⟨.some ⟨rfl, hw.span⟩, hm.returns, hm.dynamic, hm.auto⟩
    · exact .error rfl
  · exact .error rfl
  · split
    · exact .ok ⟨hm.exec, .some ⟨rfl, hw.span⟩, hm.dynamic, hm.auto⟩
    · exact .error rfl
  · exact .ok ⟨hm.exec, hm.returns, .some hw.span, hm.auto⟩
  · exact .ok ⟨hm.exec, hm.returns, hm.dynamic, .some hw.span⟩
  · exact .error rfl
  · exact .error rfl

theorem aligned_add {w w' : WrittenOption} (hw : Aligned A w w') :
    Aligned A (m.add w) (m'.add w') := by
  unfold add
  rw [hw.key]
  split
  · exact .error ⟨rfl, hw.span⟩
  · rw [isSome_spanOf hm]
    refine aligned_ite (fun _ => .error ⟨rfl, hw.span⟩) fun _ => ?_
    exact aligned_mapError (aligned_set hm _ hw) fun flaw flaw' hflaw =>
      ⟨congrArg (MethodCause.invalidOption _) hflaw, hw.span⟩

omit hm in
theorem aligned_decode {ws ws' : List WrittenOption} (hws : Aligned A ws ws') :
    Aligned A (decode ws) (decode ws') :=
  aligned_foldlM hws (fun _ _ _ _ hm hw => aligned_add hm hw) ⟨.none, .none, .none, .none⟩

theorem execKind_eq : m.exec.map Located.value = m'.exec.map Located.value := by
  have hexec := hm.exec
  generalize m.exec = x, m'.exec = x' at hexec
  cases hexec with
  | none => rfl
  | some h => exact congrArg some h.value

theorem aligned_classifyMutation : Aligned A m.classifyMutation m'.classifyMutation := by
  have hauto := hm.auto
  have hreturns := hm.returns
  simp only [classifyMutation, execKind_eq hm]
  generalize m.auto = x, m'.auto = x' at hauto
  cases hauto with
  | some h => exact .error ⟨rfl, h⟩
  | none =>
    dsimp only
    generalize m.returns = y, m'.returns = y' at hreturns
    cases hreturns with
    | none => exact .ok rfl
    | @some declared declared' h =>
      obtain ⟨hvalue, hspan⟩ : declared.value = declared'.value ∧ Aligned A _ _ := ⟨h.value, h.span⟩
      dsimp only
      rw [hvalue]
      exact aligned_ite (fun _ => .ok rfl) fun _ => .error ⟨rfl, hspan⟩

theorem aligned_classifyQuery {s s' : Span} (hs : Aligned A s s') :
    Aligned A (m.classifyQuery s) (m'.classifyQuery s') := by
  have hreturns := hm.returns
  simp only [classifyQuery, aligned_isSome hm.auto]
  generalize m.returns = x, m'.returns = x' at hreturns
  cases hreturns with
  | none => exact .error ⟨rfl, hs⟩
  | @some y y' h =>
    obtain ⟨declared, span⟩ := y
    obtain ⟨declared', span'⟩ := y'
    obtain rfl : declared = declared' := h.value
    dsimp only
    split
    · exact .error ⟨rfl, h.span⟩
    · exact aligned_ite (fun _ => .error ⟨rfl, h.span⟩) fun _ => .ok rfl
    · exact .ok rfl

theorem aligned_classify {k k' : Located Keyword} (hk : Aligned A k k') :
    Aligned A (m.classify k) (m'.classify k') := by
  have hvalue : k.value = k'.value := hk.value
  unfold classify
  rw [hvalue]
  exact aligned_ite (fun _ => aligned_classifyMutation hm) fun _ => aligned_classifyQuery hm hk.span

end MethodOptions

/-! ## Templates of methods -/

namespace Compiler

theorem aligned_methodBody (markers : Markers) (isDynamic : Bool) {f f' : Fragment}
    (hf : Aligned A f f') (hstart : A.Matches f.offset f'.offset) :
    Aligned A (methodBody markers isDynamic f) (methodBody markers isDynamic f') := by
  refine aligned_ite (fun _ => ?_) fun _ => ?_
  · exact aligned_map (Segment.aligned_divide markers hf hstart) fun _ _ h => congrArg _ h
  · obtain ⟨o, t⟩ := f
    obtain ⟨o', t'⟩ := f'
    obtain rfl : t = t' := hf.text
    cases hs : Text.splitMark? Directive.opener t with
    | none =>
      simp only [Directive.find?, hs]
      exact aligned_map (Segment.aligned_resolve markers hf) fun _ _ h => congrArg _ h
    | some p =>
      obtain ⟨before, after⟩ := p
      obtain rfl := Text.splitMark?_append hs
      simp only [Directive.find?, hs]
      rw [List.append_assoc] at hf
      have hbehind := hf.behind
      refine .error ⟨rfl, Fragment.Alike.start hbehind (by decide), ?_⟩
      exact hbehind.cut Directive.opener after rfl (.inr ⟨_, rfl, by decide⟩)

theorem aligned_statementShape (kind : StatementKind) {f f' : Fragment} (hf : Aligned A f f')
    (hslice : ∀ s s', Aligned A s s' → f.slice s = f'.slice s') :
    Aligned A (statementShape kind f) (statementShape kind f') :=
  aligned_ite (fun _ => .ok ⟨.nil, .nil⟩) fun _ => Query.aligned_shape .sql hf hslice

end Compiler

end

end QueryTemplate
