import Mathlib.Data.List.Nodup
import QueryTemplate.Proofs.Method.Consistency
import QueryTemplate.Proofs.Method.ReturnType

/-! # Which options are accepted

The options of a header are accepted if each of them is known and has a value it can take, and none
is repeated. What they come to then depends on what they are and not on their order. Otherwise the
first option that keeps those up to it from being accepted is the fault.
-/

namespace QueryTemplate

theorem ExecKind.tag_injective : Function.Injective ExecKind.tag := by
  intro kind kind' h
  cases kind <;> cases kind' <;> first | rfl | exact absurd h (by decide)

theorem ExecKind.ofTag?_eq_some_iff {tag : Text} {kind : ExecKind} :
    ofTag? tag = some kind ↔ tag = kind.tag := by
  constructor
  · intro h
    exact (eq_of_beq (List.find?_some (p := fun k : ExecKind => k.tag == tag) h)).symm
  · rintro rfl
    cases kind <;> decide

namespace OptionKey

theorem text_injective : Function.Injective text := by
  intro key key' h
  cases key <;> cases key' <;> first | rfl | exact absurd h (by decide)

/-- Whether an option can have the value, or no value, that is given. -/
def Takes : OptionKey → Option Text → Prop
  | .exec, value => ∃ kind : ExecKind, value = some kind.tag
  | .returns, value => ∃ t type, value = some t ∧ ReturnType.Spells t type
  | .dynamic, value | .auto, value => value = none

/-- What is wrong with the value, or with the lack of one, that an option is given. -/
inductive Refuses : OptionKey → Option Text → OptionFlaw → Prop where
  | execMissing : Refuses .exec none .execMissing
  | execUnknown {tag : Text} : (∀ kind : ExecKind, tag ≠ kind.tag) →
    Refuses .exec (some tag) (.execUnknown tag)
  | returnsMissing : Refuses .returns none .returnsMissing
  | returnsMalformed {t : Text} : (∀ type, ¬ReturnType.Spells t type) →
    Refuses .returns (some t) (.returnsMalformed t)
  | dynamic {value : Text} : Refuses .dynamic (some value) .valueOnFlag
  | auto {value : Text} : Refuses .auto (some value) .valueOnFlag

theorem takes_or_refuses (key : OptionKey) (value : Option Text) :
    key.Takes value ∨ ∃ flaw, key.Refuses value flaw := by
  cases key with
  | exec =>
    cases value with
    | none => exact .inr ⟨_, .execMissing⟩
    | some tag =>
      by_cases h : ∃ kind : ExecKind, tag = kind.tag
      · exact .inl (h.imp fun _ => congrArg some)
      · exact .inr ⟨_, .execUnknown (not_exists.1 h)⟩
  | returns =>
    cases value with
    | none => exact .inr ⟨_, .returnsMissing⟩
    | some t =>
      by_cases h : ∃ type, ReturnType.Spells t type
      · exact .inl ⟨t, h.choose, rfl, h.choose_spec⟩
      · exact .inr ⟨_, .returnsMalformed (not_exists.1 h)⟩
  | dynamic =>
    cases value with
    | none => exact .inl rfl
    | some _ => exact .inr ⟨_, .dynamic⟩
  | auto =>
    cases value with
    | none => exact .inl rfl
    | some _ => exact .inr ⟨_, .auto⟩

theorem Refuses.not_takes {key : OptionKey} {value : Option Text} {flaw : OptionFlaw}
    (h : key.Refuses value flaw) : ¬key.Takes value := by
  cases h with
  | execUnknown htag =>
    rintro ⟨kind, hkind⟩
    exact htag kind (Option.some.inj hkind)
  | returnsMalformed ht =>
    rintro ⟨t, type, heq, htype⟩
    exact ht type (Option.some.inj heq ▸ htype)
  | execMissing => exact fun ⟨_, hkind⟩ => nomatch hkind
  | returnsMissing => exact fun ⟨_, _, heq, _⟩ => nomatch heq
  | dynamic => exact fun hnone => nomatch hnone
  | auto => exact fun hnone => nomatch hnone

end OptionKey

/-- What keeps an option from being accepted behind those in front of it: it is unknown, repeated or
has a value that it cannot take, in this order. -/
inductive WrittenOption.Violates (earlier : List WrittenOption) (w : WrittenOption) :
    MethodCause → Prop where
  | unknown : (∀ key : OptionKey, w.key ≠ key.text) → Violates earlier w (.unknownOption w.key)
  | repeated {key : OptionKey} : w.key = key.text → key.IsWritten earlier →
    Violates earlier w (.invalidOption key .repeated)
  | refused {key : OptionKey} {flaw : OptionFlaw} : w.key = key.text → ¬key.IsWritten earlier →
    key.Refuses w.value flaw → Violates earlier w (.invalidOption key flaw)

namespace MethodOptions

/-- Whether a header may list the options: every key is known and has a value that it can take, and
no key is repeated. -/
structure Accepts (written : List WrittenOption) : Prop where
  valid : ∀ w ∈ written, ∃ key : OptionKey, w.key = key.text ∧ key.Takes w.value
  distinct : (written.map WrittenOption.key).Nodup

/-- The options hold what is written, each in its place, and nothing else. -/
structure Gathers (written : List WrittenOption) (options : MethodOptions) : Prop where
  exec (kind : ExecKind) (span : Span) : options.exec = some ⟨kind, span⟩ ↔
    ⟨OptionKey.exec.text, some kind.tag, span⟩ ∈ written
  returns (type : ReturnType) (span : Span) : options.returns = some ⟨type, span⟩ ↔
    ∃ t, ⟨OptionKey.returns.text, some t, span⟩ ∈ written ∧ ReturnType.Spells t type
  dynamic (span : Span) : options.dynamic = some span ↔
    ⟨OptionKey.dynamic.text, none, span⟩ ∈ written
  auto (span : Span) : options.auto = some span ↔ ⟨OptionKey.auto.text, none, span⟩ ∈ written

variable {written before after : List WrittenOption} {options options' : MethodOptions}
  {w : WrittenOption} {key : OptionKey}

theorem Gathers.unique (h : Gathers written options) (h' : Gathers written options') :
    options = options' := by
  obtain ⟨exec, returns, dynamic, auto⟩ := options
  obtain ⟨exec', returns', dynamic', auto'⟩ := options'
  obtain rfl : exec = exec' :=
    Option.ext fun ⟨kind, span⟩ => (h.exec kind span).trans (h'.exec kind span).symm
  obtain rfl : returns = returns' :=
    Option.ext fun ⟨type, span⟩ => (h.returns type span).trans (h'.returns type span).symm
  obtain rfl : dynamic = dynamic' :=
    Option.ext fun span => (h.dynamic span).trans (h'.dynamic span).symm
  obtain rfl : auto = auto' := Option.ext fun span => (h.auto span).trans (h'.auto span).symm
  rfl

theorem Accepts.perm {written' : List WrittenOption} (h : Accepts written)
    (hperm : written.Perm written') : Accepts written' :=
  ⟨fun w hw => h.valid w (hperm.mem_iff.2 hw), (hperm.map _).nodup_iff.1 h.distinct⟩

theorem Gathers.perm {written' : List WrittenOption} (h : Gathers written options)
    (hperm : written.Perm written') : Gathers written' options := by
  constructor <;> intros <;> simp only [h.exec, h.returns, h.dynamic, h.auto, hperm.mem_iff]

/-! ## One more option -/

theorem isWritten_iff_mem : key.IsWritten written ↔ key.text ∈ written.map WrittenOption.key :=
  List.mem_map.symm

theorem accepts_concat (h : Accepts before) (hkey : w.key = key.text)
    (hnew : ¬key.IsWritten before) (htakes : key.Takes w.value) : Accepts (before ++ [w]) := by
  refine ⟨fun v hv => ?_, ?_⟩
  · rcases List.mem_append.1 hv with hv | hv
    · exact h.valid v hv
    · rw [List.mem_singleton.1 hv]
      exact ⟨key, hkey, htakes⟩
  · rw [List.map_append, List.map_singleton, hkey, ← List.concat_eq_append]
    exact List.Nodup.concat (mt isWritten_iff_mem.2 hnew) h.distinct

theorem not_accepts_of_violates {cause : MethodCause} (h : w.Violates before cause) :
    ¬Accepts (before ++ w :: after) := by
  intro haccepts
  obtain ⟨key, hkey, htakes⟩ := haccepts.valid w (by simp)
  have hdistinct := haccepts.distinct
  rw [List.map_append, List.map_cons] at hdistinct
  have hnew : w.key ∉ before.map WrittenOption.key := fun hmem =>
    (List.nodup_append.1 hdistinct).2.2 _ hmem _ (List.mem_cons_self ..) rfl
  cases h with
  | unknown hunknown => exact hunknown key hkey
  | repeated hother hwritten => exact hnew (hother ▸ isWritten_iff_mem.1 hwritten)
  | refused hother _ hrefuses =>
    obtain rfl := OptionKey.text_injective (hkey.symm.trans hother)
    exact hrefuses.not_takes htakes

/-- An option of a key that is not written yet is the only one of that key. -/
theorem mem_concat_iff_of_new (hnew : ¬key.IsWritten before) {value value' : Option Text}
    {span span' : Span} : (⟨key.text, value', span'⟩ : WrittenOption) ∈
      before ++ [⟨key.text, value, span⟩] ↔ value' = value ∧ span' = span := by
  have hnot : (⟨key.text, value', span'⟩ : WrittenOption) ∉ before :=
    fun hmem => hnew ⟨_, hmem, rfl⟩
  simp [hnot]

theorem mem_concat_iff_of_ne {other : OptionKey} (hne : other ≠ key) {value value' : Option Text}
    {span span' : Span} : (⟨other.text, value', span'⟩ : WrittenOption) ∈
      before ++ [⟨key.text, value, span⟩] ↔
        (⟨other.text, value', span'⟩ : WrittenOption) ∈ before := by
  have htext : other.text ≠ key.text := OptionKey.text_injective.ne hne
  simp [htext]

/-- Setting an option that is not written yet, with a value that it can take. -/
theorem Gathers.exists_set (h : Gathers before options) (hkey : w.key = key.text)
    (hnew : ¬key.IsWritten before) (htakes : key.Takes w.value) :
    ∃ options', options.set key w = .ok options' ∧ Gathers (before ++ [w]) options' := by
  obtain ⟨_, value, span⟩ := w
  subst hkey
  cases key with
  | exec =>
    obtain ⟨kind, rfl⟩ : ∃ kind : ExecKind, value = some kind.tag := htakes
    refine ⟨{ options with exec := some ⟨kind, span⟩ }, ?_, ?_, ?_, ?_, ?_⟩
    · simp only [set, ExecKind.ofTag?_eq_some_iff.2 rfl]
    · intro kind' span'
      rw [mem_concat_iff_of_new hnew]
      simp [ExecKind.tag_injective.eq_iff, eq_comm]
    · have hne : OptionKey.returns ≠ .exec := by decide
      exact fun type span' => by simp only [mem_concat_iff_of_ne hne, h.returns]
    · exact fun span' => by rw [mem_concat_iff_of_ne (by decide), h.dynamic]
    · exact fun span' => by rw [mem_concat_iff_of_ne (by decide), h.auto]
  | returns =>
    obtain ⟨t, type, rfl, htype⟩ : ∃ t type, value = some t ∧ ReturnType.Spells t type := htakes
    refine ⟨{ options with returns := some ⟨type, span⟩ }, ?_, ?_, ?_, ?_, ?_⟩
    · simp only [set, ReturnType.parse?_eq_some_iff.2 htype]
    · exact fun kind span' => by rw [mem_concat_iff_of_ne (by decide), h.exec]
    · intro type' span'
      simp only [mem_concat_iff_of_new hnew]
      constructor
      · intro heq
        cases heq
        exact ⟨t, ⟨rfl, rfl⟩, htype⟩
      · rintro ⟨_, ⟨heq, rfl⟩, htype'⟩
        cases heq
        have hparse := ReturnType.parse?_eq_some_iff.2 htype
        rw [ReturnType.parse?_eq_some_iff.2 htype'] at hparse
        rw [Option.some.inj hparse]
    · exact fun span' => by rw [mem_concat_iff_of_ne (by decide), h.dynamic]
    · exact fun span' => by rw [mem_concat_iff_of_ne (by decide), h.auto]
  | dynamic =>
    obtain rfl : value = none := htakes
    refine ⟨{ options with dynamic := some span }, rfl, ?_, ?_, ?_, ?_⟩
    · exact fun kind span' => by rw [mem_concat_iff_of_ne (by decide), h.exec]
    · have hne : OptionKey.returns ≠ .dynamic := by decide
      exact fun type span' => by simp only [mem_concat_iff_of_ne hne, h.returns]
    · intro span'
      rw [mem_concat_iff_of_new hnew]
      simp [eq_comm]
    · exact fun span' => by rw [mem_concat_iff_of_ne (by decide), h.auto]
  | auto =>
    obtain rfl : value = none := htakes
    refine ⟨{ options with auto := some span }, rfl, ?_, ?_, ?_, ?_⟩
    · exact fun kind span' => by rw [mem_concat_iff_of_ne (by decide), h.exec]
    · have hne : OptionKey.returns ≠ .auto := by decide
      exact fun type span' => by simp only [mem_concat_iff_of_ne hne, h.returns]
    · exact fun span' => by rw [mem_concat_iff_of_ne (by decide), h.dynamic]
    · intro span'
      rw [mem_concat_iff_of_new hnew]
      simp [eq_comm]

theorem set_of_refuses {flaw : OptionFlaw} (h : key.Refuses w.value flaw)
    (options : MethodOptions) : options.set key w = .error flaw := by
  obtain ⟨_, value, span⟩ := w
  cases h with
  | execMissing => rfl
  | returnsMissing => rfl
  | dynamic => rfl
  | auto => rfl
  | @execUnknown tag htag =>
    have hnone : ExecKind.ofTag? tag = none := by
      rw [Option.eq_none_iff_forall_not_mem]
      exact fun kind hkind => htag kind (ExecKind.ofTag?_eq_some_iff.1 hkind)
    simp only [set, hnone]
  | @returnsMalformed t ht =>
    have hnone : ReturnType.parse? t = none := by
      rw [Option.eq_none_iff_forall_not_mem]
      exact fun type htype => ht type (ReturnType.parse?_eq_some_iff.1 htype)
    simp only [set, hnone]

theorem add_of_key (hkey : w.key = key.text) (options : MethodOptions) : options.add w =
    if (options.spanOf key).isSome then .error ⟨.invalidOption key .repeated, w.span⟩
    else (options.set key w).mapError fun flaw => ⟨.invalidOption key flaw, w.span⟩ := by
  rw [add, OptionKey.ofText?_eq_some_iff.2 hkey]

theorem add_of_violates (h : decode before = .ok options) {cause : MethodCause}
    (hviolates : w.Violates before cause) : options.add w = .error ⟨cause, w.span⟩ := by
  cases hviolates with
  | unknown hunknown =>
    have hnone : OptionKey.ofText? w.key = none := by
      rw [Option.eq_none_iff_forall_not_mem]
      exact fun key hkey => hunknown key (OptionKey.ofText?_eq_some_iff.1 hkey)
    rw [add, hnone]
  | repeated hkey hwritten =>
    rw [add_of_key hkey, if_pos ((isSome_spanOf_decode h _).2 hwritten)]
  | refused hkey hnew hrefuses =>
    rw [add_of_key hkey, if_neg (mt (isSome_spanOf_decode h _).1 hnew), set_of_refuses hrefuses]
    rfl

/-- An option is accepted behind others, or it violates what they ask for. -/
theorem accepts_or_violates (before : List WrittenOption) (w : WrittenOption) :
    (∃ key : OptionKey, w.key = key.text ∧ ¬key.IsWritten before ∧ key.Takes w.value) ∨
      ∃ cause, w.Violates before cause := by
  by_cases hknown : ∃ key : OptionKey, w.key = key.text
  · obtain ⟨key, hkey⟩ := hknown
    by_cases hwritten : key.IsWritten before
    · exact .inr ⟨_, .repeated hkey hwritten⟩
    · rcases key.takes_or_refuses w.value with htakes | ⟨flaw, hrefuses⟩
      · exact .inl ⟨key, hkey, hwritten, htakes⟩
      · exact .inr ⟨_, .refused hkey hwritten hrefuses⟩
  · exact .inr ⟨_, .unknown (not_exists.1 hknown)⟩

/-! ## All options -/

theorem decode_append (before after : List WrittenOption) :
    decode (before ++ after) = decode before >>= fun options => after.foldlM add options :=
  List.foldlM_append

/-- Options are decoded up to the first one that is not accepted, or all of them are gathered. The
induction takes the last option off, since an option is judged by those in front of it. -/
theorem decode_cases (written : List WrittenOption) :
    (Accepts written ∧ ∃ options, decode written = .ok options ∧ Gathers written options) ∨
    ∃ before w after cause, written = before ++ w :: after ∧ Accepts before ∧
      w.Violates before cause ∧ decode written = .error ⟨cause, w.span⟩ := by
  induction written using List.reverseRecOn with
  | nil =>
    have hgathers : Gathers [] empty := by constructor <;> simp [empty]
    exact .inl ⟨⟨by simp, List.nodup_nil⟩, empty, rfl, hgathers⟩
  | append_singleton before w ih =>
    rcases ih with ⟨haccepts, options, hdecode, hgathers⟩ |
      ⟨first, v, rest, cause, rfl, hfirst, hviolates, hdecode⟩
    · have hstep : decode (before ++ [w]) = options.add w := by
        rw [decode_append, hdecode]
        exact bind_pure (options.add w)
      rcases accepts_or_violates before w with ⟨key, hkey, hnew, htakes⟩ | ⟨cause, hviolates⟩
      · obtain ⟨options', hset, hgathers'⟩ := hgathers.exists_set hkey hnew htakes
        refine .inl ⟨accepts_concat haccepts hkey hnew htakes, options', ?_, hgathers'⟩
        rw [hstep, add_of_key hkey, if_neg (mt (isSome_spanOf_decode hdecode key).1 hnew), hset]
        rfl
      · exact .inr ⟨before, w, [], cause, rfl, haccepts, hviolates,
          hstep.trans (add_of_violates hdecode hviolates)⟩
    · refine .inr ⟨first, v, rest ++ [w], cause, by simp, hfirst, hviolates, ?_⟩
      rw [decode_append, hdecode]
      rfl

theorem decode_eq_ok_iff :
    decode written = .ok options ↔ Accepts written ∧ Gathers written options := by
  rcases decode_cases written with ⟨haccepts, found, hdecode, hgathers⟩ |
    ⟨before, w, after, cause, rfl, -, hviolates, hdecode⟩
  · rw [hdecode, Except.ok.injEq]
    constructor
    · rintro rfl
      exact ⟨haccepts, hgathers⟩
    · exact fun h => hgathers.unique h.2
  · rw [hdecode]
    exact ⟨fun h => (nomatch h), fun h => absurd h.1 (not_accepts_of_violates hviolates)⟩

theorem exists_decode_iff : (∃ options, decode written = .ok options) ↔ Accepts written := by
  rcases decode_cases written with ⟨haccepts, options, hdecode, -⟩ |
    ⟨before, w, after, cause, rfl, -, hviolates, hdecode⟩
  · exact ⟨fun _ => haccepts, fun _ => ⟨options, hdecode⟩⟩
  · refine ⟨fun ⟨options, hok⟩ => ?_, fun h => absurd h (not_accepts_of_violates hviolates)⟩
    cases hdecode.symm.trans hok

theorem decode_eq_error_iff {fault : MethodFault} : decode written = .error fault ↔
    ∃ before w after, written = before ++ w :: after ∧ Accepts before ∧
      w.Violates before fault.value ∧ fault.span = w.span := by
  constructor
  · intro h
    rcases decode_cases written with ⟨-, options, hdecode, -⟩ |
      ⟨before, w, after, cause, rfl, hbefore, hviolates, hdecode⟩
    · rw [hdecode] at h
      cases h
    · rw [hdecode] at h
      cases h
      exact ⟨before, w, after, rfl, hbefore, hviolates, rfl⟩
  · rintro ⟨before, w, after, rfl, hbefore, hviolates, hspan⟩
    obtain ⟨cause, span⟩ := fault
    obtain rfl : span = w.span := hspan
    rcases decode_cases before with ⟨-, options, hdecode, -⟩ |
      ⟨first, v, rest, other, rfl, -, hother, -⟩
    · rw [decode_append, hdecode]
      change (options.add w >>= fun next => after.foldlM add next) = _
      rw [add_of_violates hdecode hviolates]
      rfl
    · exact absurd hbefore (not_accepts_of_violates hother)

/-- The order of options does not matter as long as each of them keeps its place. -/
theorem decode_eq_ok_of_perm {written' : List WrittenOption} (hperm : written.Perm written')
    (h : decode written = .ok options) : decode written' = .ok options := by
  obtain ⟨haccepts, hgathers⟩ := decode_eq_ok_iff.1 h
  exact decode_eq_ok_iff.2 ⟨haccepts.perm hperm, hgathers.perm hperm⟩

end MethodOptions

end QueryTemplate
