import QueryTemplate.Proofs.Template.Resolution

/-! # Resolving what has been resolved

What is written for a template is a text without placeholders whose words are separated by single
blanks, and such a text resolves to itself. A marker must not open a placeholder for that, neither
alone nor together with a character beside it: a sigil in front of a placeholder and a brace behind
one come together with the marker.
-/

namespace QueryTemplate

/-- Whether markers are words that open no placeholder, neither alone nor together with the text
around them. -/
structure Markers.AreClosed (markers : Markers) : Prop where
  written : ∀ sort, markers.text sort ≠ []
  words : ∀ sort, ∀ c ∈ markers.text sort, Text.isSpace c = false
  unopened : ∀ sort (opener : Placeholder), ¬[opener.mark, '\x7b'] <:+: markers.text sort
  head : ∀ sort, (markers.text sort).head? ≠ some '\x7b'
  last : ∀ sort (opener : Placeholder), (markers.text sort).getLast? ≠ some opener.mark

theorem Markers.areClosed_standard : Markers.standard.AreClosed where
  written sort := by cases sort <;> decide
  words sort := by cases sort <;> simp [Markers.standard, Markers.text] <;> decide
  unopened sort opener := by cases sort <;> cases opener <;> decide
  head sort := by cases sort <;> decide
  last sort opener := by cases sort <;> cases opener <;> decide

namespace Piece

variable {markers : Markers}

/-! ## Texts without placeholders -/

/-- A text in which nothing is opened is read character by character. -/
theorem scan_map_literal {t : Text} (h : t.IsChain fun c d => opened? c d = none) (o : Nat) :
    scan o t = .ok (t.map literal) := by
  induction t generalizing o with
  | nil => rw [scan, List.map_nil]
  | cons c t ih =>
    obtain ⟨hhead, htail⟩ := List.isChain_cons.1 h
    rw [scan_unopened hhead, ih htail, List.map_cons]
    rfl

theorem isChain_of_unopened {t : Text}
    (h : ∀ opener : Placeholder, ¬[opener.mark, '\x7b'] <:+: t) :
    t.IsChain fun c d => opened? c d = none := by
  rw [List.isChain_iff_forall_rel_of_append_cons_cons]
  intro c d before after htext
  rw [opened?_eq_none_iff]
  rintro opener rfl rfl
  exact h opener ⟨before, after, by rw [htext]; simp⟩

theorem filterMap_name?_map_literal (sort : Placeholder) (t : Text) :
    (t.map literal).filterMap (name? sort) = [] := by
  rw [List.filterMap_map, List.filterMap_eq_nil_iff]
  exact fun _ _ => rfl

/-- A word is written as it stands. -/
theorem write_map_literal {word : Text} (h : ∀ c ∈ word, Text.isSpace c = false)
    (started : Bool) : write markers false started (word.map literal) = word := by
  induction word generalizing started with
  | nil => rfl
  | cons c word ih =>
    obtain ⟨hc, hword⟩ := List.forall_mem_cons.1 h
    rw [List.map_cons, write, hc, if_neg Bool.false_ne_true, ih hword]
    rfl

/-! ## Texts that resolve to themselves -/

theorem resolves_of_word {word : Text} (hspace : ∀ c ∈ word, Text.isSpace c = false)
    (hclosed : word.IsChain fun c d => opened? c d = none) :
    Resolves markers word ⟨word, [], []⟩ := by
  rw [Resolves, Statement.resolve, Fragment.ofText, scan_map_literal hclosed]
  refine congrArg Except.ok ?_
  rw [Statement.ofPieces, write_map_literal hspace, filterMap_name?_map_literal,
    filterMap_name?_map_literal]

theorem resolves_besides (hmarkers : ∀ sort, markers.text sort ≠ []) {a b : Text}
    (ha : Resolves markers a ⟨a, [], []⟩) (hb : Resolves markers b ⟨b, [], []⟩) :
    Resolves markers (a.besides b) ⟨a.besides b, [], []⟩ := by
  by_cases hempty : a = [] ∨ b = []
  · rcases hempty with rfl | rfl
    · exact hb
    · rw [Text.besides, if_pos rfl]
      split_ifs
      · exact hb
      · exact ha
  · obtain ⟨hna, hnb⟩ := not_or.1 hempty
    obtain ⟨ps, hps, hpsText⟩ := ha.exists_pieces
    obtain ⟨qs, hqs, hqsText⟩ := hb.exists_pieces
    have htext : a.besides b = a ++ ' ' :: b := by rw [Text.besides, if_neg hna, if_neg hnb]
    have hscan : scan 0 (a.besides b) = .ok (ps ++ literal ' ' :: qs) := by
      rw [htext]
      exact scan_append_blank hps hqs
    rw [Resolves, Statement.resolve, Fragment.ofText, hscan]
    refine congrArg Except.ok ?_
    rw [Statement.ofPieces_append_blank hmarkers, hpsText, hqsText]
    rfl

theorem resolves_joinWords (hmarkers : ∀ sort, markers.text sort ≠ []) {words : List Text}
    (h : ∀ word ∈ words, Resolves markers word ⟨word, [], []⟩) :
    Resolves markers (Text.joinWords words) ⟨Text.joinWords words, [], []⟩ := by
  induction words with
  | nil =>
    have hspace : ∀ c ∈ ([] : Text), Text.isSpace c = false := fun _ hc => nomatch hc
    exact resolves_of_word hspace .nil
  | cons word words ih =>
    obtain ⟨hword, hwords⟩ := List.forall_mem_cons.1 h
    rw [Text.joinWords_cons]
    exact resolves_besides hmarkers hword (ih hwords)

/-! ## What is written -/

/-- Nothing is opened between what is written for neighbouring pieces. -/
theorem isChain_closed (hmarkers : markers.AreClosed) {o : Nat} {t : Text} {ps : List Piece}
    (h : scan o t = .ok ps) :
    ps.IsChain fun p q => ∀ c ∈ (written markers p).getLast?, ∀ d ∈ (written markers q).head?,
      opened? c d = none := by
  apply (isChain_of_scan h).imp
  intro p q hpq c hc d hd
  cases p with
  | placeholder sort _ =>
    rw [opened?_eq_none_iff]
    rintro opener rfl -
    exact hmarkers.last sort opener hc
  | literal c' =>
    obtain rfl : c' = c := Option.some.inj hc
    cases q with
    | placeholder sort _ =>
      rw [opened?_eq_none_iff]
      rintro opener - rfl
      exact hmarkers.head sort hd
    | literal d' =>
      obtain rfl : d' = d := Option.some.inj hd
      exact (hpq c' d' rfl rfl).2

/-- The text of a run is a word that resolves to itself. -/
theorem resolves_runText (hmarkers : markers.AreClosed) {o : Nat} {t : Text} {ps run : List Piece}
    (h : scan o t = .ok ps) (hrun : run ∈ runs ps) :
    Resolves markers (runText markers run) ⟨runText markers run, [], []⟩ := by
  obtain ⟨hstands, hblank⟩ := infix_of_mem_runs hrun
  apply resolves_of_word
  · intro c hc
    obtain ⟨p, hp, hcp⟩ := List.mem_flatMap.1 hc
    cases p with
    | literal d =>
      rw [List.mem_singleton.1 hcp]
      exact Bool.eq_false_iff.2 (hblank _ hp)
    | placeholder sort _ => exact hmarkers.words sort c hcp
  · have hne : [] ∉ run.map (written markers) := by
      intro hmem
      obtain ⟨p, -, hp⟩ := List.mem_map.1 hmem
      exact written_ne_nil hmarkers.written p hp
    rw [runText, List.flatMap, List.isChain_flatten hne, List.isChain_map]
    refine ⟨?_, List.IsChain.infix (isChain_closed hmarkers h) hstands⟩
    intro text htext
    obtain ⟨p, -, rfl⟩ := List.mem_map.1 htext
    cases p with
    | literal c => exact .singleton c
    | placeholder sort _ => exact isChain_of_unopened (hmarkers.unopened sort)

end Piece

namespace Statement

/-- **Resolving is idempotent.** What a template resolves to resolves to itself, without
parameters. -/
theorem resolve_idempotent {markers : Markers} (hmarkers : markers.AreClosed) {t : Text}
    {s : Statement} (h : resolve markers (.ofText t) = .ok s) :
    resolve markers (.ofText s.text) = .ok ⟨s.text, [], []⟩ := by
  obtain ⟨ps, hps, rfl⟩ := Checked.map_eq_ok h
  have htext : (ofPieces markers ps).text =
      Text.joinWords ((Piece.runs ps).map (Piece.runText markers)) :=
    (Piece.write_eq_joinWords hmarkers.written ps).1
  rw [htext]
  apply Piece.resolves_joinWords hmarkers.written
  intro word hword
  obtain ⟨run, hrun, rfl⟩ := List.mem_map.1 hword
  exact Piece.resolves_runText hmarkers hps hrun

/-- Numbered markers begin with a sigil and end with a brace; in the text, sigils stand in front of
placeholders and braces behind them. -/
theorem resolve_idempotent_sigils :
    let markers : Markers := ⟨['$', '1'], ['#', '2', '\x7b']⟩
    let t : Text := " $$\x7ba\x7d\x7bb\x7d\n\u00a0# \x7b##\x7bc\x7d\x7b$ ".toList
    let s : Statement := ⟨"$$1\x7bb\x7d # \x7b##2\x7b\x7b$".toList, [['a']], [['c']]⟩
    markers.AreClosed ∧ resolve markers (.ofText t) = .ok s ∧
      resolve markers (.ofText s.text) = .ok ⟨s.text, [], []⟩ := by
  intro markers t s
  have hmarkers : markers.AreClosed := by
    constructor
    · intro sort
      cases sort <;> decide
    · intro sort
      cases sort <;> simp [markers, Markers.text] <;> decide
    · intro sort opener
      cases sort <;> cases opener <;> decide
    · intro sort
      cases sort <;> decide
    · intro sort opener
      cases sort <;> cases opener <;> decide
  have hresolve : resolve markers (.ofText t) = .ok s := by decide +kernel
  exact ⟨hmarkers, hresolve, resolve_idempotent hmarkers hresolve⟩

end Statement

end QueryTemplate
