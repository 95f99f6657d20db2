import Mathlib.Data.List.Perm.Basic
import QueryTemplate.Proofs.File.Division
import QueryTemplate.Proofs.Method.Options
import QueryTemplate.Proofs.Session.Faithful

/-! # The order of options

Options stand in one line with a name in front of them. If they change their order, they also
change their places, but nothing else in the file moves. Where an option stands shows in faults
only, so the file is compiled to the same methods, or it is refused either way.
-/

namespace QueryTemplate

def Alignment.all : Alignment where
  Matches _ _ := True
  min _ _ := trivial
  max _ _ := trivial

theorem Span.aligned_all (s s' : Span) : Aligned .all s s' := ⟨trivial, trivial⟩

/-- Runs that, from the same session, end in the same session, with related values or with faults
that can differ. -/
abbrev Compile.Concurs {α : Type} (r : α → α → Prop) (x x' : Compile α) : Prop :=
  Simulates (fun _ _ => True) r Eq x x'

/-! ## Methods with reordered options -/

/-- The options are the same but for their order and their places. -/
def WrittenOption.Reordered (written written' : List WrittenOption) : Prop :=
  ∃ between, written.Perm between ∧ Aligned .all between written'

theorem MethodOptions.concurs_decode {written written' : List WrittenOption}
    (h : WrittenOption.Reordered written written') :
    Except.Agree (Aligned .all) (decode written) (decode written') := by
  obtain ⟨between, hperm, haligned⟩ := h
  have hdecode := (aligned_decode haligned).agree
  cases hwritten : decode written with
  | ok options =>
    rw [decode_eq_ok_of_perm hperm hwritten] at hdecode
    exact hdecode
  | error fault =>
    cases hbetween : decode between with
    | ok options =>
      rw [decode_eq_ok_of_perm hperm.symm hbetween] at hwritten
      cases hwritten
    | error fault' =>
      rw [hbetween] at hdecode
      generalize decode written' = outcome at hdecode
      cases hdecode
      exact .error trivial

theorem WrittenOption.Reordered.refl (written : List WrittenOption) : Reordered written written :=
  ⟨written, .refl _, List.forall₂_same.2 fun _ _ => ⟨rfl, rfl, Span.aligned_all _ _⟩⟩

/-- Words in another order write the same options in that order. -/
theorem WrittenOption.reordered_ofWord {words words' : List (Located Text)}
    (h : (words.map Located.value).Perm (words'.map Located.value))
    (later : List (Located Text)) :
    Reordered ((words ++ later).map ofWord) ((words' ++ later).map ofWord) := by
  obtain ⟨between, hvalues, hperm⟩ : Relation.Comp (· = List.map Located.value ·) List.Perm
      (words'.map Located.value) words := by
    rw [List.eq_map_comp_perm]
    exact h.symm
  refine ⟨(between ++ later).map ofWord, (hperm.symm.append_right later).map _, ?_⟩
  have haligned : Aligned .all (between ++ later) (words' ++ later) := by
    refine aligned_append ?_ (List.forall₂_same.2 fun _ _ => ⟨rfl, Span.aligned_all _ _⟩)
    rw [← List.forall₂_eq_eq_eq, List.forall₂_map_left_iff, List.forall₂_map_right_iff] at hvalues
    exact hvalues.flip.imp fun _ _ hvalue => ⟨hvalue.symm, Span.aligned_all _ _⟩
  exact aligned_list_map haligned fun _ _ => aligned_ofWord

structure MethodSource.Reordered (m m' : MethodSource) : Prop where
  name : m.name = m'.name
  options : WrittenOption.Reordered m.options m'.options
  headerSpan : m.headerSpan = m'.headerSpan
  nameSpan : m.nameSpan = m'.nameSpan
  body : m.body = m'.body

theorem MethodSource.Reordered.refl (m : MethodSource) : m.Reordered m :=
  ⟨rfl, .refl _, rfl, rfl, rfl⟩

namespace Compiler

variable {options options' : MethodOptions}

theorem warnExec_eq (h : Aligned .all options options') (keyword : Keyword) :
    warnExec options keyword = warnExec options' keyword := by
  have hexec := h.exec
  unfold warnExec
  generalize options.exec = exec, options'.exec = exec' at hexec
  cases hexec with
  | none => rfl
  | @some exec exec' h =>
    have hvalue : exec.value = exec'.value := h.value
    dsimp only
    rw [hvalue]

theorem concurs_resultRecord (compiler : Compiler) {auto auto' : Option Span}
    (h : Aligned .all auto auto') (returns : ReturnType) (shape : QueryShape) :
    Compile.Concurs Eq (compiler.resultRecord auto returns shape)
      (compiler.resultRecord auto' returns shape) := by
  cases h with
  | none => exact .refl (fun _ => trivial) _
  | some =>
    unfold resultRecord
    cases compiler.provider with
    | none => exact .throw trivial
    | some provider => exact .refl (fun _ => trivial) _

theorem takeName_eq {m m' : MethodSource} (h : m.Reordered m') : takeName m = takeName m' := by
  unfold takeName
  rw [h.name, h.nameSpan]

theorem concurs_compileMethod (compiler : Compiler) {m m' : MethodSource} (h : m.Reordered m') :
    Compile.Concurs Eq (compiler.compileMethod m) (compiler.compileMethod m') := by
  unfold compileMethod
  refine .bind (.ofOutcome (MethodOptions.concurs_decode h.options)) fun options options' ho => ?_
  have hspan : m.span = m'.span := by
    rw [MethodSource.span, MethodSource.span, h.headerSpan, h.body]
  have htag : options.exec.map (·.value.tag) = options'.exec.map (·.value.tag) := by
    have htag := congrArg (Option.map ExecKind.tag) (MethodOptions.execKind_eq ho)
    rwa [Option.map_map, Option.map_map] at htag
  have htrue (e : MethodFault) : True := trivial
  rw [takeName_eq h, h.body, h.headerSpan, h.name, hspan, htag, aligned_isSome ho.dynamic]
  refine .step htrue _ fun _ => ?_
  split_ifs
  · exact .throw_bind trivial _ _
  refine .step htrue _ fun keyword => ?_
  rw [warnExec_eq ho]
  refine .step htrue _ fun _ => ?_
  have hkeyword : Aligned .all keyword keyword := ⟨rfl, Span.aligned_all _ _⟩
  have hclassify := MethodOptions.aligned_classify ho hkeyword
  refine .bind (.ofOutcome hclassify.agree) fun c c' hc => ?_
  obtain rfl : c = c' := hc
  refine .step htrue _ fun body => .step htrue _ fun shape => ?_
  refine (compiler.concurs_resultRecord ho.auto _ shape).bind fun record record' hrecord => ?_
  rw [show record = record' from hrecord]
  exact .refl htrue _

end Compiler

/-! ## Header lines -/

namespace Text

/-- Whether the text is one word: it is not empty and has no white space. -/
structure IsWholeWord (word : Text) : Prop where
  ne_nil : word ≠ []
  noSpace : ∀ c ∈ word, isSpace c = false

instance (word : Text) : Decidable word.IsWholeWord :=
  decidable_of_iff (word ≠ [] ∧ word.all (!isSpace ·)) <| by
    simp only [List.all_eq_true, Bool.not_eq_true']
    exact ⟨fun h => ⟨h.1, h.2⟩, fun h => ⟨h.ne_nil, h.noSpace⟩⟩

/-- The words, each with a blank in front of it. -/
def withBlanks (words : List Text) : Text := words.flatMap (' ' :: ·)

/-- A word that white space follows is the first one of a text. -/
theorem words_append {word rest : Text} (h : IsWholeWord word)
    (hrest : ∀ c ∈ rest.head?, isSpace c) (o : Nat) :
    words o (word ++ rest) = ⟨word, ⟨o, o + size word⟩⟩ :: words (o + size word) rest := by
  obtain ⟨hne, hword⟩ := h
  induction word generalizing o with
  | nil => exact absurd rfl hne
  | cons c word ih =>
    obtain ⟨hc, hword⟩ := List.forall_mem_cons.1 hword
    rw [List.cons_append]
    conv_lhs => unfold words
    cases word with
    | nil =>
      cases rest with
      | nil => simp [hc, words]
      | cons d rest =>
        have hd : isSpace d := hrest d rfl
        simp only [List.nil_append, hc, size_cons, size_nil, Nat.add_zero]
        generalize words (o + c.utf8Size) (d :: rest) = later
        cases later <;> simp [hd]
    | cons d word =>
      have hd : isSpace d = false := hword d (List.mem_cons_self ..)
      rw [ih _ (List.cons_ne_nil _ _) hword]
      simp [hc, hd, Nat.add_assoc]

theorem head_withBlanks {list : List Text} {rest : Text} (hrest : ∀ c ∈ rest.head?, isSpace c) :
    ∀ c ∈ (withBlanks list ++ rest).head?, isSpace c := by
  cases list with
  | nil => exact hrest
  | cons _ _ =>
    intro c hc
    cases hc
    decide

theorem words_withBlanks_cons {word : Text} {list : List Text} {rest : Text}
    (hword : IsWholeWord word) (hrest : ∀ c ∈ rest.head?, isSpace c) (o : Nat) :
    words o (withBlanks (word :: list) ++ rest) =
      ⟨word, ⟨o + 1, o + 1 + size word⟩⟩ ::
        words (o + 1 + size word) (withBlanks list ++ rest) := by
  have hblanks : withBlanks (word :: list) ++ rest =
      ' ' :: (word ++ (withBlanks list ++ rest)) := by simp [withBlanks]
  have hblank (t : Text) : words o (' ' :: t) = words (o + 1) t := rfl
  rw [hblanks, hblank, words_append hword (head_withBlanks hrest)]

theorem words_withBlanks {list : List Text} {rest : Text}
    (hwords : ∀ word ∈ list, IsWholeWord word)
    (hrest : ∀ c ∈ rest.head?, isSpace c) (o : Nat) : ∃ located,
      located.map Located.value = list ∧ words o (withBlanks list ++ rest) =
        located ++ words (o + size (withBlanks list)) rest := by
  induction list generalizing o with
  | nil => exact ⟨[], rfl, rfl⟩
  | cons word list ih =>
    obtain ⟨hword, hlist⟩ := List.forall_mem_cons.1 hwords
    obtain ⟨located, hvalues, hlocated⟩ := ih hlist (o + 1 + size word)
    refine ⟨⟨word, ⟨o + 1, o + 1 + size word⟩⟩ :: located, congrArg (word :: ·) hvalues, ?_⟩
    have hsize : o + size (withBlanks (word :: list)) =
        o + 1 + size word + size (withBlanks list) := by
      rw [withBlanks, List.flatMap_cons, List.cons_append, size_cons, size_append,
        ← Nat.add_assoc, ← Nat.add_assoc]
      rfl
    rw [words_withBlanks_cons hword hrest, hlocated, hsize, List.cons_append]

theorem size_eq_of_perm {t t' : Text} (h : t.Perm t') : size t = size t' := by
  induction h with
  | nil => rfl
  | cons c _ ih => rw [size_cons, size_cons, ih]
  | swap c d t => simp only [size_cons, Nat.add_left_comm]
  | trans _ _ ih ih' => exact ih.trans ih'

/-- A text without a line feed is a line with what follows it up to the first one. -/
theorem lines_line {u : Text} (hne : u ≠ []) (hu : '\n' ∉ u) (t : Text) :
    lines (u ++ t) = (u ++ (lines t).headD []) :: (lines t).tail := by
  induction u with
  | nil => exact absurd rfl hne
  | cons c u ih =>
    simp only [List.mem_cons, not_or] at hu
    rw [List.cons_append, lines, if_neg (Ne.symm hu.1)]
    cases u with
    | nil => cases h : lines t <;> simp [h]
    | cons d u =>
      rw [ih (List.cons_ne_nil _ _) hu.2]
      rfl

theorem head_lines (t : Text) : ((lines t).headD []).head? = t.head? := by
  cases t with
  | nil => rfl
  | cons c rest =>
    rw [lines]
    split_ifs
    · rfl
    · cases lines rest <;> rfl

theorem trimEnd_append_cons {c : Char} (hc : isSpace c = false) (u t : Text) :
    trimEnd (u ++ c :: t) = u ++ c :: trimEnd t := by
  induction u with
  | nil =>
    rw [List.nil_append, List.nil_append, trimEnd]
    cases trimEnd t <;> simp [hc]
  | cons d u ih =>
    rw [List.cons_append, List.cons_append, trimEnd, ih]
    cases u <;> rfl

end Text

namespace MethodSource

def headerLine (name : Text) (options : List Text) : Text :=
  commentMark ++ ' ' :: headerTag ++ Text.withBlanks (name :: options)

variable {name : Text} {options options' : List Text}

theorem size_headerLine (h : options.Perm options') :
    Text.size (headerLine name options) = Text.size (headerLine name options') :=
  Text.size_eq_of_perm (((h.cons name).flatMap_right _).append_left _)

theorem headerRest?_headerLine (ending : Text) :
    headerRest? (headerLine name options ++ ending) =
      some (Text.withBlanks (name :: options) ++ ending) := rfl

theorem notMem_headerLine (hname : Text.IsWholeWord name)
    (hoptions : ∀ word ∈ options, Text.IsWholeWord word) : '\n' ∉ headerLine name options := by
  have hword {word : Text} (h : Text.IsWholeWord word) : '\n' ∉ word := fun hmem =>
    absurd (h.noSpace _ hmem) (by decide)
  have hblanks : '\n' ∉ Text.withBlanks (name :: options) := by
    simp only [Text.withBlanks, List.mem_flatMap, List.mem_cons, not_exists, not_and, not_or]
    rintro word (rfl | hmem)
    · exact ⟨by decide, hword hname⟩
    · exact ⟨by decide, hword (hoptions word hmem)⟩
  rw [headerLine, List.mem_append, not_or]
  exact ⟨by decide, hblanks⟩

theorem exists_concat_headerLine (hname : Text.IsWholeWord name)
    (hoptions : ∀ word ∈ options, Text.IsWholeWord word) :
    ∃ lead c, headerLine name options = lead ++ [c] ∧ Text.isSpace c = false := by
  obtain ⟨init, word, hwords⟩ := List.eq_nil_or_concat' (name :: options) |>.resolve_left (by simp)
  have hword : Text.IsWholeWord word := by
    have hmem : word ∈ name :: options := by simp [hwords]
    rcases List.mem_cons.1 hmem with rfl | hmem
    · exact hname
    · exact hoptions _ hmem
  obtain ⟨lead, c, rfl⟩ := List.eq_nil_or_concat' word |>.resolve_left hword.ne_nil
  refine ⟨commentMark ++ ' ' :: headerTag ++ Text.withBlanks init ++ ' ' :: lead, c, ?_,
    hword.noSpace c (by simp)⟩
  rw [headerLine, hwords]
  simp [Text.withBlanks]

/-- What a header line with a name and options is read to. -/
theorem ofHeader_headerLine (hname : Text.IsWholeWord name)
    (hoptions : ∀ word ∈ options, Text.IsWholeWord word) {ending : Text}
    (hending : ∀ c ∈ ending.head?, Text.isSpace c) (o : Nat) (body : Text) :
    let stop := o + Text.size (headerLine name options)
    let nameSpan : Span := ⟨o + 9, o + 9 + Text.size name⟩
    ∃ located, located.map Located.value = options ∧
      ofHeader ⟨o, headerLine name options ++ ending⟩
          (Text.withBlanks (name :: options) ++ ending) body =
        (parseName? name).elim (.error ⟨.invalidName name, nameSpan⟩) fun parsed =>
          .ok ⟨parsed, (located ++ Text.words stop ending).map WrittenOption.ofWord,
            ⟨o, stop + Text.size (Text.trimEnd ending)⟩, nameSpan,
            ⟨stop + Text.size ending, body⟩⟩ := by
  intro stop nameSpan
  have hstop : stop = o + 8 + 1 + Text.size name + Text.size (Text.withBlanks options) := by
    simp only [stop, headerLine, Text.withBlanks, List.flatMap_cons, List.cons_append,
      Text.size_append, Text.size_cons, ← Nat.add_assoc]
    rfl
  obtain ⟨located, hvalues, hlocated⟩ :=
    Text.words_withBlanks hoptions hending (o + 8 + 1 + Text.size name)
  rw [← hstop] at hlocated
  refine ⟨located, hvalues, ?_⟩
  obtain ⟨lead, c, hlast, hc⟩ := exists_concat_headerLine hname hoptions
  have htrim : Text.trimEnd (headerLine name options ++ ending) =
      headerLine name options ++ Text.trimEnd ending := by
    rw [hlast, List.append_assoc, List.append_assoc]
    exact Text.trimEnd_append_cons hc lead ending
  have hbase : Fragment.stop ⟨o, headerLine name options ++ ending⟩ -
      Text.size (Text.withBlanks (name :: options) ++ ending) = o + 8 := by
    rw [Fragment.stop_sub_size (List.append_assoc ..)]
    rfl
  have hend : Fragment.stop ⟨o, headerLine name options ++ ending⟩ = stop + Text.size ending := by
    rw [Fragment.stop, Text.size_append, ← Nat.add_assoc]
  rw [ofHeader, hbase, Text.words_withBlanks_cons hname hending, hlocated, htrim, hend,
    Text.size_append, ← Nat.add_assoc]
  dsimp only
  cases parseName? name <;> rfl

/-- Options in another order are read in that order, and nothing else changes. -/
theorem concurs_ofHeader (hname : Text.IsWholeWord name)
    (hoptions : ∀ word ∈ options, Text.IsWholeWord word) (hperm : options.Perm options')
    {ending : Text} (hending : ∀ c ∈ ending.head?, Text.isSpace c) (o : Nat) (body : Text) :
    Except.Agree Reordered
      (ofHeader ⟨o, headerLine name options ++ ending⟩
        (Text.withBlanks (name :: options) ++ ending) body)
      (ofHeader ⟨o, headerLine name options' ++ ending⟩
        (Text.withBlanks (name :: options') ++ ending) body) := by
  have hoptions' : ∀ word ∈ options', Text.IsWholeWord word := fun word hmem =>
    hoptions word (hperm.mem_iff.2 hmem)
  obtain ⟨located, hvalues, hsource⟩ := ofHeader_headerLine hname hoptions hending o body
  obtain ⟨located', hvalues', hsource'⟩ := ofHeader_headerLine hname hoptions' hending o body
  rw [hsource, hsource', ← size_headerLine hperm]
  cases parseName? name with
  | none => exact .error trivial
  | some parsed =>
    rw [← hvalues, ← hvalues'] at hperm
    exact .ok ⟨rfl, WrittenOption.reordered_ofWord hperm _, rfl, rfl, rfl⟩

/-! ## Files -/

/-- A file in which a header line follows whole lines. Its blocks are those in front of the line,
the one that the line starts, and those behind it. -/
theorem group_headerLine {before : Text} (hbefore : before.EndsLine) (hname : Text.IsWholeWord name)
    (hoptions : ∀ word ∈ options, Text.IsWholeWord word) (after : Text) :
    let start := Text.size before
    let ending := (Text.lines after).headD []
    let later := locate (start + Text.size (headerLine name options) + Text.size ending)
      (Text.lines after).tail
    group (locate 0 (Text.lines (before ++ (headerLine name options ++ after)))) =
      ((group (locate 0 (Text.lines before))).1, (group (locate 0 (Text.lines before))).2 ++
        ⟨⟨start, headerLine name options ++ ending⟩, Text.withBlanks (name :: options) ++ ending,
          (group later).1⟩ :: (group later).2) := by
  intro start ending later
  have hne : headerLine name options ≠ [] := List.cons_ne_nil _ _
  have hline := Text.lines_line hne (notMem_headerLine hname hoptions) after
  have hstart : 0 + Text.size (Text.lines before).flatten = start := by
    rw [Nat.zero_add, Text.flatten_lines]
  have hlater : locate start (Text.lines (headerLine name options ++ after)) =
      ⟨start, headerLine name options ++ ending⟩ :: later := by
    rw [hline, locate, Text.size_append, ← Nat.add_assoc]
  have hgroup : group (locate start (Text.lines (headerLine name options ++ after))) =
      ([], ⟨⟨start, headerLine name options ++ ending⟩, Text.withBlanks (name :: options) ++ ending,
        (group later).1⟩ :: (group later).2) := by
    rw [hlater, group_cons, headerRest?_headerLine]
  rw [Text.lines_append hbefore, locate_append, hstart, group_append _ (by rw [hgroup]), hgroup]

theorem concurs_split {before after : Text} (hbefore : before.EndsLine)
    (hname : Text.IsWholeWord name) (hoptions : ∀ word ∈ options, Text.IsWholeWord word)
    (hafter : ∀ c ∈ after.head?, Text.isSpace c) (hperm : options.Perm options') :
    Except.Agree (List.Forall₂ Reordered)
      (split (before ++ (headerLine name options ++ after)))
      (split (before ++ (headerLine name options' ++ after))) := by
  have hoptions' : ∀ word ∈ options', Text.IsWholeWord word := fun word hmem =>
    hoptions word (hperm.mem_iff.2 hmem)
  rw [split_eq, split_eq, group_headerLine hbefore hname hoptions,
    group_headerLine hbefore hname hoptions', ← size_headerLine hperm]
  refine .bind (.refl (fun _ => trivial) (fun _ => rfl) _) fun _ _ (_ : _ = _) => .mapM ?_
  have hsame (blocks : List Block) : List.Forall₂
      (fun b b' => Except.Agree Reordered (ofBlock b) (ofBlock b')) blocks blocks :=
    List.forall₂_same.2 fun b _ => .refl (fun _ => trivial) Reordered.refl _
  have hending : ∀ c ∈ ((Text.lines after).headD []).head?, Text.isSpace c := by
    rwa [Text.head_lines]
  exact List.rel_append (hsame _) (.cons (concurs_ofHeader hname hoptions hperm hending _ _)
    (hsame _))

end MethodSource

namespace Compiler

theorem concurs_compileText (compiler : Compiler) {text text' : Text}
    (h : Except.Agree (List.Forall₂ MethodSource.Reordered) (MethodSource.split text)
      (MethodSource.split text')) :
    Compile.Concurs Eq (compiler.compileText text) (compiler.compileText text') := by
  rintro s _ rfl
  rw [compileText_run, compileText_run]
  generalize MethodSource.split text = sources, MethodSource.split text' = sources' at h
  cases h with
  | ok h =>
    have hmethods := Simulates.mapM (h.imp fun _ _ => compiler.concurs_compileMethod)
    rw [List.forall₂_eq_eq_eq] at hmethods
    exact hmethods _ _ rfl
  | error _ => exact ⟨.error trivial, rfl⟩

/-- **The order of options does not matter.** A file in which the options of a header line change
their order is compiled to the very same methods, or it is refused either way, and the session that
is left is the same. Options are accepted by what they are, and else the first one that is not
accepted behind those in front of it is the fault. -/
theorem compileFile_perm (compiler : Compiler) (path : Path) {before after name : Text}
    {options options' : List Text} (hbefore : before.EndsLine) (hname : Text.IsWholeWord name)
    (hoptions : ∀ word ∈ options, Text.IsWholeWord word)
    (hafter : ∀ c ∈ after.head?, Text.isSpace c) (hperm : options.Perm options') (s : Session) :
    let file (options : List Text) := before ++ (MethodSource.headerLine name options ++ after)
    let run := compiler.compileFile path (file options) s
    let run' := compiler.compileFile path (file options') s
    (∀ compiled, run.1 = .ok compiled ↔ run'.1 = .ok compiled) ∧ run.2 = run'.2 ∧
      ∀ written, ((∃ decoded, MethodOptions.decode written = .ok decoded) ↔
          MethodOptions.Accepts written) ∧
        ∀ fault, MethodOptions.decode written = .error fault ↔ ∃ before w after,
          written = before ++ w :: after ∧ MethodOptions.Accepts before ∧
            w.Violates before fault.value ∧ fault.span = w.span := by
  intro file run run'
  obtain ⟨houtcome, hsession⟩ := compiler.concurs_compileText
    (MethodSource.concurs_split hbefore hname hoptions hafter hperm) s s rfl
  have hrun : run = _ := compiler.compileFile_run path (file options) s
  have hrun' : run' = _ := compiler.compileFile_run path (file options') s
  refine ⟨fun compiled => ?_, by rw [hrun, hrun', hsession], fun written =>
    ⟨MethodOptions.exists_decode_iff, fun fault => MethodOptions.decode_eq_error_iff⟩⟩
  rw [hrun, hrun']
  generalize (compiler.compileText (file options) s).1 = outcome,
    (compiler.compileText (file options') s).1 = outcome' at houtcome
  cases houtcome with
  | ok h => rw [h]
  | error _ => exact ⟨fun h => (nomatch h), fun h => (nomatch h)⟩

/-- Every option is given, and the two orders have no option in the same place. -/
theorem compileFile_perm_all_options :
    let provider : Provider := fun name =>
      .ok ⟨name, [], [⟨['x'], [], "INT".toList, false, false⟩]⟩
    let before : Text := "-- users\n".toList
    let after : Text := "\nSELECT x FROM t %\x7bif p\x7dWHERE y=$\x7bp\x7d%\x7bendif\x7d\n".toList
    let options := ["auto".toList, "returns=[A]".toList, "exec=affect".toList, "dynamic".toList]
    let options' := ["returns=[A]".toList, "dynamic".toList, "auto".toList, "exec=affect".toList]
    let m : Method := ⟨⟨none, ['a']⟩, false, .multiRow,
      .dynamic [.constant ⟨"SELECT x FROM t".toList, [], []⟩,
        .conditional ['p'] ⟨"WHERE y=?".toList, [['p']], []⟩],
      [⟨some ['t'], ['x'], none, false, false, ⟨64, 65⟩⟩], [⟨['t'], none, false, ⟨71, 72⟩⟩],
      some "affect".toList, some ⟨.named ['A'], true⟩,
      some ⟨['A'], [⟨['x'], "INT".toList, [], "t.x".toList⟩]⟩, ⟨9, 101⟩⟩
    let compile (options : List Text) := compileFile ⟨.standard, some provider⟩ ⟨[]⟩
      (before ++ (MethodSource.headerLine ['a'] options ++ after)) .empty
    options.Perm options' ∧ (compile options).1 = .ok ⟨⟨[]⟩, [m]⟩ ∧
      (compile options').1 = .ok ⟨⟨[]⟩, [m]⟩ ∧ (compile options').2 = (compile options).2 := by
  intro provider before after options options' m compile
  have hbefore : before.EndsLine := .inr rfl
  have hname : Text.IsWholeWord ['a'] := by decide
  have hoptions : ∀ word ∈ options, Text.IsWholeWord word := by decide +kernel
  have hafter : ∀ c ∈ after.head?, Text.isSpace c := by
    intro c hc
    cases hc
    decide
  have hperm : options.Perm options' := by decide +kernel
  have hcompiled : (compile options).1 = .ok ⟨⟨[]⟩, [m]⟩ := by decide +kernel
  obtain ⟨hsame, hsession, -⟩ := compileFile_perm ⟨.standard, some provider⟩ ⟨[]⟩ hbefore hname
    hoptions hafter hperm .empty
  exact ⟨hperm, hcompiled, (hsame _).1 hcompiled, hsession.symm⟩

end Compiler

end QueryTemplate
