import QueryTemplate.Proofs.File.Consistency
import QueryTemplate.Proofs.Template.Runs

/-! # Plain statements

What is handed on to the database is plain text. With markers that have no part in the syntax of
templates, no statement of a compiled method opens a placeholder or a directive, whatever stands
around the placeholders and directives of its template, and its only white space is single blanks
between words.
-/

namespace QueryTemplate

/-! ## Plain texts -/

namespace Text

/-- The characters that open a placeholder or a directive in front of a brace. -/
def sigils : List Char := ['$', '#', '%']

/-- Whether the text opens nothing and has no white space but single blanks between words. -/
structure IsPlain (t : Text) : Prop where
  unopened : ∀ sigil ∈ sigils, ¬[sigil, '\x7b'] <:+: t
  trimmed : t.IsTrimmed
  blanks : ∀ c ∈ t, isSpace c → c = ' '
  single : ∀ c d, [c, d] <:+: t → ¬(isSpace c ∧ isSpace d)

def Neighbours (c d : Char) : Prop := ¬(d = '\x7b' ∧ c ∈ sigils) ∧ ¬(isSpace c ∧ isSpace d)

instance (c d : Char) : Decidable (Neighbours c d) :=
  inferInstanceAs (Decidable (_ ∧ _))

theorem isChain_iff_forall_pair {R : Char → Char → Prop} {t : Text} :
    t.IsChain R ↔ ∀ c d, [c, d] <:+: t → R c d := by
  constructor
  · intro h c d hstands
    have hpair : List.IsChain R [c, d] := List.IsChain.infix h hstands
    exact List.isChain_pair.1 hpair
  · intro h
    rw [List.isChain_iff_forall_rel_of_append_cons_cons]
    rintro c d before after rfl
    apply h
    exact ⟨before, after, by simp⟩

theorem isPlain_iff {t : Text} :
    t.IsPlain ↔ t.IsTrimmed ∧ (∀ c ∈ t, isSpace c → c = ' ') ∧ t.IsChain Neighbours := by
  rw [isChain_iff_forall_pair]
  constructor
  · intro h
    refine ⟨h.trimmed, h.blanks, fun c d hstands => ⟨?_, h.single c d hstands⟩⟩
    rintro ⟨rfl, hc⟩
    exact h.unopened c hc hstands
  · rintro ⟨htrimmed, hblanks, hpairs⟩
    refine ⟨?_, htrimmed, hblanks, fun c d hstands => (hpairs c d hstands).2⟩
    intro sigil hsigil hstands
    exact (hpairs sigil '\x7b' hstands).1 ⟨rfl, hsigil⟩

theorem neighbours_blank {c : Char} (h : isSpace c = false) :
    Neighbours c ' ' ∧ Neighbours ' ' c := by
  refine ⟨⟨?_, ?_⟩, ⟨?_, ?_⟩⟩
  · simp
  · simp [h]
  · simp [sigils]
  · simp [h]

theorem isPlain_nil : IsPlain [] := by
  rw [isPlain_iff]
  exact ⟨⟨by simp, by simp⟩, by simp, .nil⟩

/-- A text without white space is plain if its neighbours are. -/
theorem isPlain_of_word {t : Text} (hword : ∀ c ∈ t, isSpace c = false)
    (h : t.IsChain fun c d => ¬(d = '\x7b' ∧ c ∈ sigils)) : t.IsPlain := by
  rw [isPlain_iff]
  refine ⟨⟨?_, ?_⟩, ?_, ?_⟩
  · exact fun c hc => hword c (List.mem_of_mem_head? hc)
  · exact fun c hc => hword c (List.mem_of_getLast? hc)
  · intro c hc hspace
    simp [hword c hc] at hspace
  · rw [isChain_iff_forall_pair] at h ⊢
    intro c d hstands
    have hc : c ∈ t := hstands.subset (by simp)
    exact ⟨h c d hstands, by simp [hword c hc]⟩

theorem IsPlain.besides {a b : Text} (ha : a.IsPlain) (hb : b.IsPlain) : (a.besides b).IsPlain := by
  rw [Text.besides]
  split_ifs with hna hnb
  · exact hb
  · exact ha
  · rw [isPlain_iff] at ha hb ⊢
    obtain ⟨hatrimmed, hablanks, hachain⟩ := ha
    obtain ⟨hbtrimmed, hbblanks, hbchain⟩ := hb
    refine ⟨⟨?_, ?_⟩, ?_, ?_⟩
    · intro c hc
      rw [List.head?_append_of_ne_nil _ hna] at hc
      exact hatrimmed.head c hc
    · intro c hc
      rw [List.getLast?_append_of_ne_nil _ (List.cons_ne_nil _ _),
        List.getLast?_cons_of_ne_nil hnb] at hc
      exact hbtrimmed.last c hc
    · intro c hc hspace
      rcases List.mem_append.1 hc with hc | hc
      · exact hablanks c hc hspace
      · rcases List.mem_cons.1 hc with rfl | hc
        · rfl
        · exact hbblanks c hc hspace
    · apply hachain.append
      · apply hbchain.cons
        exact fun c hc => (neighbours_blank (hbtrimmed.head c hc)).2
      · rintro c hc _ ⟨⟩
        exact (neighbours_blank (hatrimmed.last c hc)).1

theorem isPlain_joinWords {ws : List Text} (h : ∀ w ∈ ws, w.IsPlain) : (joinWords ws).IsPlain := by
  induction ws with
  | nil => exact isPlain_nil
  | cons w ws ih =>
    obtain ⟨hw, hws⟩ := List.forall_mem_cons.1 h
    rw [joinWords_cons]
    exact hw.besides (ih hws)

end Text

/-! ## Statements -/

/-- Whether markers are words that have no part in the syntax of templates: they open nothing, and
neither do they together with the text around them. -/
structure Markers.ArePlain (markers : Markers) : Prop where
  written : ∀ sort, markers.text sort ≠ []
  words : ∀ sort, ∀ c ∈ markers.text sort, Text.isSpace c = false
  unopened : ∀ sort, (markers.text sort).IsChain fun c d => ¬(d = '\x7b' ∧ c ∈ Text.sigils)
  head : ∀ sort, ∀ c ∈ (markers.text sort).head?, c ≠ '\x7b'
  last : ∀ sort, ∀ c ∈ (markers.text sort).getLast?, c ∉ Text.sigils

theorem Markers.arePlain_standard : Markers.standard.ArePlain where
  written sort := by cases sort <;> decide
  words sort := by cases sort <;> simp [Markers.standard, Markers.text] <;> decide
  unopened sort := by cases sort <;> decide
  head sort := by cases sort <;> simp [Markers.standard, Markers.text]
  last sort := by cases sort <;> simp [Markers.standard, Markers.text, Text.sigils]

variable {markers : Markers}

namespace Piece

theorem not_opens_of_opened? {c d : Char} (h : opened? c d = none) (hdirective : c ≠ '%') :
    ¬(d = '\x7b' ∧ c ∈ Text.sigils) := by
  rintro ⟨rfl, hc⟩
  simp only [Text.sigils, List.mem_cons, List.not_mem_nil, or_false] at hc
  rcases hc with rfl | rfl | rfl
  · cases h
  · cases h
  · exact hdirective rfl

/-- The texts of neighbouring pieces open nothing together, if there is no directive in the text
that the pieces are read from. -/
theorem isChain_written (hmarkers : markers.ArePlain) {o : Nat} {t : Text} {ps : List Piece}
    (h : scan o t = .ok ps) (hdirective : ¬Directive.opener <:+: t) :
    ps.IsChain fun p q => ∀ c ∈ (written markers p).getLast?, ∀ d ∈ (written markers q).head?,
      ¬(d = '\x7b' ∧ c ∈ Text.sigils) := by
  apply (isChain_of_scan h).imp
  intro p q hpq c hc d hd hopens
  cases p with
  | placeholder sort _ => exact hmarkers.last sort c hc hopens.2
  | literal c' =>
    cases q with
    | placeholder sort _ => exact hmarkers.head sort d hd hopens.1
    | literal d' =>
      obtain rfl : c' = c := Option.some.inj hc
      obtain rfl : d' = d := Option.some.inj hd
      obtain ⟨hstands, hopened⟩ := hpq c' d' rfl rfl
      refine not_opens_of_opened? hopened ?_ hopens
      rintro rfl
      rw [hopens.1] at hstands
      exact hdirective hstands

/-- The text of a run is a plain word. -/
theorem isPlain_runText (hmarkers : markers.ArePlain) {o : Nat} {t : Text} {ps run : List Piece}
    (h : scan o t = .ok ps) (hdirective : ¬Directive.opener <:+: t) (hrun : run ∈ runs ps) :
    (runText markers run).IsPlain := by
  obtain ⟨hstands, hblank⟩ := infix_of_mem_runs hrun
  have hchain := List.IsChain.infix (isChain_written hmarkers h hdirective) hstands
  apply Text.isPlain_of_word
  · intro c hc
    obtain ⟨p, hp, hcp⟩ := List.mem_flatMap.1 hc
    cases p with
    | literal d =>
      rw [List.mem_singleton.1 hcp]
      exact Bool.eq_false_iff.2 (hblank _ hp)
    | placeholder sort _ => exact hmarkers.words sort c hcp
  · have hne : [] ∉ run.map (written markers) := by
      intro hmem
      obtain ⟨p, -, hp⟩ := List.mem_map.1 hmem
      exact written_ne_nil hmarkers.written p hp
    rw [runText, List.flatMap, List.isChain_flatten hne, List.isChain_map]
    refine ⟨?_, hchain⟩
    intro text htext
    obtain ⟨p, -, rfl⟩ := List.mem_map.1 htext
    cases p with
    | literal c => exact .singleton c
    | placeholder sort _ => exact hmarkers.unopened sort

end Piece

/-- A text without directives resolves to a plain one. -/
theorem Resolves.isPlain (hmarkers : markers.ArePlain) {t : Text} {s : Statement}
    (h : Resolves markers t s) (hdirective : ¬Directive.opener <:+: t) : s.text.IsPlain := by
  obtain ⟨ps, hps, rfl⟩ := h.exists_pieces
  have htext : (Statement.ofPieces markers ps).text =
      Text.joinWords ((Piece.runs ps).map (Piece.runText markers)) :=
    (Piece.write_eq_joinWords hmarkers.written ps).1
  rw [htext]
  apply Text.isPlain_joinWords
  intro word hword
  obtain ⟨run, hrun, rfl⟩ := List.mem_map.1 hword
  exact Piece.isPlain_runText hmarkers hps hdirective hrun

/-! ## Bodies and methods -/

theorem Segment.isPlain_ofConstant {s : Statement} (h : s.text.IsPlain) :
    ∀ segment ∈ ofConstant s, segment.body.text.IsPlain := by
  intro segment hsegment
  rw [ofConstant] at hsegment
  split_ifs at hsegment
  · cases hsegment
  · rw [List.mem_singleton.1 hsegment]
    exact h

/-- The induction goes over the blocks: the two texts of a block hold no directive, and neither does
the text behind the last one. -/
theorem TemplateBlock.Yields.isPlain (hmarkers : markers.ArePlain) {blocks : List TemplateBlock}
    {last : Text} {segments : List Segment} (h : Yields markers blocks last segments)
    (hblocks : ∀ b ∈ blocks, b.IsWellFormed) (hlast : ¬Directive.opener <:+: last) :
    ∀ segment ∈ segments, segment.body.text.IsPlain := by
  induction h with
  | last hresolves => exact Segment.isPlain_ofConstant (hresolves.isPlain hmarkers hlast)
  | @block b _ _ lead body segments hlead hbody _ ih =>
    obtain ⟨hb, hrest⟩ := List.forall_mem_cons.1 hblocks
    intro segment hsegment
    rcases List.mem_append.1 hsegment with hsegment | hsegment
    · exact Segment.isPlain_ofConstant (hlead.isPlain hmarkers hb.lead) segment hsegment
    · rcases List.mem_cons.1 hsegment with rfl | hsegment
      · rw [Segment.body_segment]
        exact hbody.isPlain hmarkers hb.body
      · exact ih hrest hlast segment hsegment

namespace Compiler

theorem isPlain_of_methodBody (hmarkers : markers.ArePlain) {isDynamic : Bool} {source : Fragment}
    {body : MethodBody} (h : methodBody markers isDynamic source = .ok body) :
    ∀ s ∈ body.statements, s.text.IsPlain := by
  rw [methodBody] at h
  split_ifs at h
  · obtain ⟨segments, hsegments, rfl⟩ := Checked.map_eq_ok h
    obtain ⟨blocks, last, -, hblocks, hlast, hyields⟩ :=
      Segment.grammar_of_parts (Segment.divide_eq_ok_iff_parts.1 hsegments).1
    intro s hs
    obtain ⟨segment, hsegment, rfl⟩ := List.mem_map.1 hs
    exact hyields.isPlain hmarkers hblocks hlast segment hsegment
  · split at h
    · cases h
    · rename_i hfind
      obtain ⟨statement, hresolve, rfl⟩ := Checked.map_eq_ok h
      rw [Directive.find?, Option.map_eq_none_iff, Text.splitMark?_eq_none_iff (by decide)] at hfind
      intro s hs
      rw [List.mem_singleton.1 hs]
      exact (Segment.resolve_eq_ok_iff.1 hresolve).isPlain hmarkers hfind

/-- What holds of every method that is compiled holds of the methods of a file. -/
theorem forall_of_compileFile {compiler : Compiler} {P : Method → Prop}
    (hP : ∀ source m s s', compiler.compileMethod source s = (.ok m, s') → P m)
    {path : Path} {text : Text} {s : Session} {file : CompiledFile}
    (h : (compiler.compileFile path text s).1 = .ok file) : ∀ m ∈ file.methods, P m := by
  have hall (sources : List MethodSource) (ms : List Method) (s s' : Session)
      (hrun : (sources.mapM compiler.compileMethod : Compile _) s = (.ok ms, s')) :
      ∀ m ∈ ms, P m := by
    induction sources generalizing s ms with
    | nil =>
      cases hrun
      simp
    | cons source sources ih =>
      rw [List.mapM_cons] at hrun
      obtain ⟨m, t, hm, hrun⟩ := exists_of_bind_run hrun
      obtain ⟨later, t', hlater, hrun⟩ := exists_of_bind_run hrun
      cases hrun
      exact List.forall_mem_cons.2 ⟨hP source m s t hm, ih later t hlater⟩
  rw [compileFile_run, compileText_run] at h
  cases hsplit : MethodSource.split text with
  | error _ =>
    rw [hsplit] at h
    cases h
  | ok sources =>
    rw [hsplit] at h
    dsimp only at h
    rcases hrun : (sources.mapM compiler.compileMethod : Compile _) { s with names := [] }
      with ⟨_ | ms, t⟩
    · rw [hrun] at h
      cases h
    · rw [hrun] at h
      cases h
      exact hall sources ms _ t hrun

/-- **No template syntax is handed on.** With the standard markers, every statement of a compiled
file is plain. -/
theorem compileFile_isPlain (provider : Option Provider) (s : Session) (path : Path) (text : Text)
    {file : CompiledFile} (h : (compileFile ⟨.standard, provider⟩ path text s).1 = .ok file) :
    ∀ m ∈ file.methods, ∀ statement ∈ m.body.statements, statement.text.IsPlain := by
  refine forall_of_compileFile ?_ h
  intro source m s s' hm
  obtain ⟨-, -, _, _, _, _, body, _, _, _, _, -, -, hbody, -, -, rfl⟩ := exists_of_compileMethod hm
  exact isPlain_of_methodBody Markers.arePlain_standard hbody

/-- Sigils and braces that stand beside placeholders and at the ends of segments, and a sigil with
white space between it and a brace. -/
theorem compileFile_isPlain_sigils :
    let text : Text := "--name: a\nDELETE FROM t WHERE $$\x7bp\x7d\x7b #\n  # \x7bx #\n".toList ++
      "--name: b dynamic\nDELETE FROM t $%\x7bif p\x7d  #\t#\x7bp\x7d\x7b % ".toList ++
      "%\x7bendif\x7d\x7b\n".toList
    let outcome := (compileFile ⟨.standard, none⟩ ⟨[]⟩ text .empty).1
    let m : Method := ⟨⟨none, ['a']⟩, true, .mutation .result,
      .static ⟨"DELETE FROM t WHERE $?\x7b # # \x7bx #".toList, [['p']], []⟩, [], [], none,
      some ⟨.execResult, false⟩, none, ⟨0, 48⟩⟩
    let n : Method := ⟨⟨none, ['b']⟩, true, .mutation .result,
      .dynamic [.constant ⟨"DELETE FROM t $".toList, [], []⟩,
        .conditional ['p'] ⟨"# %v\x7b %".toList, [], [['p']]⟩, .constant ⟨['\x7b'], [], []⟩],
      [], [], none, some ⟨.execResult, false⟩, none, ⟨48, 110⟩⟩
    outcome = .ok ⟨⟨[]⟩, [m, n]⟩ ∧
      ∀ method ∈ [m, n], ∀ statement ∈ method.body.statements, statement.text.IsPlain := by
  intro text outcome m n
  have h : outcome = .ok ⟨⟨[]⟩, [m, n]⟩ := by decide +kernel
  exact ⟨h, compileFile_isPlain none .empty ⟨[]⟩ text h⟩

end Compiler

end QueryTemplate
