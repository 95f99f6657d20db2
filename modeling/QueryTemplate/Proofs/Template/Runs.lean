import QueryTemplate.Proofs.Template.Flattening

/-! # Runs of pieces

White space divides the pieces of a template into runs. What is written is the runs, each of its
placeholders replaced by a marker, with single blanks in between. So what two neighbouring
characters can be is decided by the pieces of one run, or one of the two is a blank.
-/

namespace QueryTemplate

namespace Piece

def written (markers : Markers) : Piece → Text
  | literal c => [c]
  | placeholder sort _ => markers.text sort

/-- The maximal runs of pieces without white space, the empty ones between two pieces of white space
included. -/
def runs (ps : List Piece) : List (List Piece) := ps.splitOnP isBlank

def runText (markers : Markers) (run : List Piece) : Text := run.flatMap (written markers)

theorem runs_cons_of_isBlank {p : Piece} (h : p.isBlank) (ps : List Piece) :
    runs (p :: ps) = [] :: runs ps := by
  rw [runs, List.splitOnP_cons_eq_if_modifyHead, if_pos h, runs]

theorem runs_cons_of_not_isBlank {p : Piece} (h : ¬p.isBlank) {ps run : List Piece}
    {later : List (List Piece)} (hps : runs ps = run :: later) :
    runs (p :: ps) = (p :: run) :: later := by
  rw [runs, List.splitOnP_cons_eq_if_modifyHead, if_neg h, ← runs, hps, List.modifyHead_cons]

theorem exists_runs (ps : List Piece) : ∃ run later, runs ps = run :: later :=
  List.exists_cons_of_ne_nil (List.splitOnP_ne_nil isBlank ps)

variable {markers : Markers}

theorem written_ne_nil (hmarkers : ∀ sort, markers.text sort ≠ []) (p : Piece) :
    written markers p ≠ [] := by
  cases p with
  | literal c => exact List.cons_ne_nil c []
  | placeholder sort _ => exact hmarkers sort

theorem write_cons_of_isBlank {p : Piece} (h : p.isBlank) (spaced started : Bool)
    (ps : List Piece) : write markers spaced started (p :: ps) = write markers true started ps := by
  cases p with
  | literal c => exact if_pos h
  | placeholder _ _ => cases h

theorem write_cons_of_not_isBlank (hmarkers : ∀ sort, markers.text sort ≠ []) {p : Piece}
    (h : ¬p.isBlank) (started : Bool) (ps : List Piece) :
    write markers false started (p :: ps) = written markers p ++ write markers false true ps := by
  cases p with
  | literal c =>
    rw [write, if_neg (show ¬Text.isSpace c from h)]
    rfl
  | placeholder sort _ =>
    have hsome : (markers.text sort).isEmpty = false := by simpa using hmarkers sort
    simp [write, written, hsome]

/-- What is written is the texts of the runs, joined by single blanks. Behind other text, the first
run is written without a blank and goes on with that text. -/
theorem write_eq_joinWords (hmarkers : ∀ sort, markers.text sort ≠ []) (ps : List Piece) :
    write markers false false ps = Text.joinWords ((runs ps).map (runText markers)) ∧
    ∀ run later, runs ps = run :: later →
      write markers false true ps = runText markers run ++
        if Text.joinWords (later.map (runText markers)) = [] then []
        else ' ' :: Text.joinWords (later.map (runText markers)) := by
  induction ps with
  | nil =>
    refine ⟨rfl, ?_⟩
    intro run later h
    obtain ⟨rfl, rfl⟩ := List.cons.inj h
    rfl
  | cons p ps ih =>
    obtain ⟨ihJoined, ihStarted⟩ := ih
    by_cases h : p.isBlank
    · rw [runs_cons_of_isBlank h]
      constructor
      · rw [write_cons_of_isBlank h, write_not_started, ihJoined, List.map_cons,
          Text.joinWords_cons, Text.besides]
        exact (if_pos rfl).symm
      · intro run later heq
        obtain ⟨rfl, rfl⟩ := List.cons.inj heq
        rw [write_cons_of_isBlank h, write_spaced hmarkers, ihJoined]
        rfl
    · obtain ⟨run, later, hps⟩ := exists_runs ps
      have hstarted := ihStarted run later hps
      rw [runs_cons_of_not_isBlank h hps]
      have htext : runText markers (p :: run) = written markers p ++ runText markers run :=
        List.flatMap_cons ..
      constructor
      · have hne : runText markers (p :: run) ≠ [] := by
          rw [htext]
          exact List.append_ne_nil_of_left_ne_nil (written_ne_nil hmarkers p) _
        rw [write_cons_of_not_isBlank hmarkers h, hstarted, List.map_cons, Text.joinWords_cons,
          Text.besides, if_neg hne, htext]
        split_ifs <;> simp
      · intro run' later' heq
        obtain ⟨rfl, rfl⟩ := List.cons.inj heq
        rw [write_cons_of_not_isBlank hmarkers h, hstarted, htext, List.append_assoc]

/-- The first run begins the pieces, and any run stands somewhere among them; none of them holds
white space. -/
theorem infix_of_runs {ps run : List Piece} {later : List (List Piece)}
    (h : runs ps = run :: later) :
    (run <+: ps ∧ ∀ p ∈ run, ¬p.isBlank) ∧ ∀ r ∈ later, r <:+: ps ∧ ∀ p ∈ r, ¬p.isBlank := by
  induction ps generalizing run later with
  | nil =>
    obtain ⟨rfl, rfl⟩ := List.cons.inj h
    simp
  | cons p ps ih =>
    obtain ⟨first, rest, hps⟩ := exists_runs ps
    obtain ⟨⟨hbegins, hfirst⟩, hrest⟩ := ih hps
    by_cases hp : p.isBlank
    · rw [runs_cons_of_isBlank hp, hps] at h
      obtain ⟨rfl, rfl⟩ := List.cons.inj h
      refine ⟨⟨List.nil_prefix, by simp⟩, ?_⟩
      intro r hr
      rcases List.mem_cons.1 hr with rfl | hr
      · exact ⟨List.infix_cons hbegins.isInfix, hfirst⟩
      · exact ⟨List.infix_cons (hrest r hr).1, (hrest r hr).2⟩
    · rw [runs_cons_of_not_isBlank hp hps] at h
      obtain ⟨rfl, rfl⟩ := List.cons.inj h
      refine ⟨⟨List.cons_prefix_cons.2 ⟨rfl, hbegins⟩, List.forall_mem_cons.2 ⟨hp, hfirst⟩⟩, ?_⟩
      intro r hr
      exact ⟨List.infix_cons (hrest r hr).1, (hrest r hr).2⟩

theorem infix_of_mem_runs {ps run : List Piece} (h : run ∈ runs ps) :
    run <:+: ps ∧ ∀ p ∈ run, ¬p.isBlank := by
  obtain ⟨first, later, hps⟩ := exists_runs ps
  obtain ⟨hfirst, hlater⟩ := infix_of_runs hps
  rw [hps] at h
  rcases List.mem_cons.1 h with rfl | h
  · exact ⟨hfirst.1.isInfix, hfirst.2⟩
  · exact hlater run h

/-! ## Neighbours -/

/-- A first piece that is a character is the first character of the text. -/
theorem eq_of_scan_literal {o : Nat} {c d : Char} {t : Text} {ps : List Piece}
    (h : scan o (c :: t) = .ok (literal d :: ps)) : d = c := by
  cases t with
  | nil =>
    rw [scan] at h
    cases h
    rfl
  | cons e t =>
    rw [scan_cons] at h
    split at h
    · obtain ⟨_, _, heq⟩ := Checked.map_eq_ok h
      cases heq
      rfl
    · split at h
      · cases h
      · dsimp only at h
        split_ifs at h
        obtain ⟨_, _, heq⟩ := Checked.map_eq_ok h
        cases heq

/-- Characters that are neighbouring pieces are neighbours in the text, and the two of them do not
open a placeholder. -/
theorem isChain_of_scan {o : Nat} {t : Text} {ps : List Piece} (h : scan o t = .ok ps) :
    ps.IsChain fun p q => ∀ c d, p = literal c → q = literal d →
      [c, d] <:+: t ∧ opened? c d = none := by
  fun_induction scan o t generalizing ps with
  | case1 =>
    cases h
    exact .nil
  | case2 o c =>
    cases h
    exact .singleton _
  | case3 o c d rest hopened ih =>
    obtain ⟨later, hlater, rfl⟩ := Checked.map_eq_ok h
    apply List.IsChain.cons
    · exact (ih hlater).imp fun p q hpq a b hp hq =>
        ⟨List.infix_cons (hpq a b hp hq).1, (hpq a b hp hq).2⟩
    · rintro q hq a b ha rfl
      obtain ⟨later, rfl⟩ : ∃ ps, later = literal b :: ps := by
        cases later with
        | nil => cases hq
        | cons _ ps =>
          cases hq
          exact ⟨ps, rfl⟩
      cases ha
      rw [eq_of_scan_literal hlater]
      exact ⟨⟨[], rest, rfl⟩, hopened⟩
  | case4 => cases h
  | case5 => cases h
  | case6 o c d rest _ _ name after hsplit =>
    rename_i ih
    obtain ⟨later, hlater, rfl⟩ := Checked.map_eq_ok h
    have hstands : after <:+: c :: d :: rest := by
      rw [(Text.splitFirst?_eq_some hsplit).1]
      exact ⟨c :: d :: name ++ ['\x7d'], [], by simp⟩
    apply List.IsChain.cons
    · exact (ih hlater).imp fun p q hpq a b hp hq =>
        ⟨(hpq a b hp hq).1.trans hstands, (hpq a b hp hq).2⟩
    · rintro q _ a b ha -
      cases ha

end Piece

end QueryTemplate
