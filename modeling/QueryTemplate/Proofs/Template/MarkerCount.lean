import Mathlib.Algebra.GroupWithZero.Nat
import QueryTemplate.Proofs.Template.Resolution

/-! # Counting markers

A database counts the markers of a statement to give each parameter its place. Each parameter has
left a marker in the text of its statement, and no other marker is formed there: none across the
edge of a marker or over white space. So there are as many markers as there are parameters, and
those that stand in the template itself, between its placeholders.
-/

namespace QueryTemplate

/-! ## Occurrences -/

namespace Text

/-- How often `mark` stands in a text, counted from left to right without overlaps. -/
def occurrences (mark : Text) : Text → Nat
  | [] => 0
  | c :: rest =>
    if mark <+: c :: rest then occurrences mark (rest.drop (mark.length - 1)) + 1
    else occurrences mark rest
termination_by t => t.length
decreasing_by
  · simp only [List.length_drop, List.length_cons]
    omega
  · exact Nat.lt_succ_self _

theorem occurrences_eq_zero_iff {mark : Text} (h : mark ≠ []) (t : Text) :
    occurrences mark t = 0 ↔ ¬mark <:+: t := by
  induction t with
  | nil => simp [occurrences, h]
  | cons c rest ih =>
    rw [occurrences, List.infix_cons_iff]
    by_cases hlead : mark <+: c :: rest
    · simp [hlead]
    · simp [hlead, ih]

section

variable {x : Char} {tail : Text}

theorem occurrences_append_of_notMem {between : Text} (h : x ∉ between) (t : Text) :
    occurrences (x :: tail) (between ++ t) = occurrences (x :: tail) t := by
  induction between with
  | nil => rfl
  | cons c between ih =>
    obtain ⟨hc, hbetween⟩ := List.ne_and_not_mem_of_not_mem_cons h
    have hnot : ¬x :: tail <+: c :: (between ++ t) := fun hlead =>
      hc (List.cons_prefix_cons.1 hlead).1
    rw [List.cons_append, occurrences, if_neg hnot, ih hbetween]

/-- A mark that cannot overlap with itself is counted wherever it stands. -/
theorem occurrences_cons (h : x ∉ tail) (c : Char) (t : Text) :
    occurrences (x :: tail) (c :: t) =
      occurrences (x :: tail) t + if x :: tail <+: c :: t then 1 else 0 := by
  rw [occurrences]
  by_cases hlead : x :: tail <+: c :: t
  · obtain ⟨-, rest, rfl⟩ := List.cons_prefix_cons.1 hlead
    have hdrop : (tail ++ rest).drop ((x :: tail).length - 1) = rest := List.drop_left
    rw [if_pos hlead, if_pos hlead, hdrop, occurrences_append_of_notMem h]
  · rw [if_neg hlead, if_neg hlead, Nat.add_zero]

end

end Text

def Markers.count (markers : Markers) (t : Text) : Nat :=
  Text.occurrences markers.bind t + Text.occurrences markers.substitute t

theorem Markers.count_standard (t : Text) : Markers.standard.count t =
    Text.occurrences ['?'] t + Text.occurrences ['%', 'v'] t := rfl

theorem Markers.count_standard_cons (c : Char) (t : Text) : Markers.standard.count (c :: t) =
    Markers.standard.count t +
      ((if c = '?' then 1 else 0) + if c = '%' ∧ t.head? = some 'v' then 1 else 0) := by
  have hbind : ['?'] <+: c :: t ↔ c = '?' := by
    rw [List.cons_prefix_cons, eq_comm, and_iff_left List.nil_prefix]
  have hsubstitute : ['%', 'v'] <+: c :: t ↔ c = '%' ∧ t.head? = some 'v' := by
    cases t <;> simp [List.cons_prefix_cons, eq_comm]
  have hcountBind := Text.occurrences_cons (List.not_mem_nil : '?' ∉ []) c t
  have hcountSubstitute := Text.occurrences_cons (by decide : '%' ∉ ['v']) c t
  simp only [hbind, hsubstitute] at hcountBind hcountSubstitute
  rw [count_standard, count_standard, hcountBind, hcountSubstitute]
  omega

namespace Piece

/-! ## Between placeholders -/

/-- The stretches of a template between its placeholders: the one in front of the first placeholder
and the one behind each of them. -/
def stretches : List Piece → List Text
  | [] => [[]]
  | literal c :: ps => (stretches ps).modifyHead (c :: ·)
  | placeholder _ _ :: ps => [] :: stretches ps

/-- The first stretch begins with the character that the template begins with. -/
theorem exists_stretches (ps : List Piece) : ∃ stretch later, stretches ps = stretch :: later ∧
    ∀ c, stretch.head? = some c ↔ ps.head? = some (literal c) := by
  induction ps with
  | nil => exact ⟨[], [], rfl, by simp⟩
  | cons p ps ih =>
    cases p with
    | literal c =>
      obtain ⟨stretch, later, hps, -⟩ := ih
      exact ⟨c :: stretch, later, by rw [stretches, hps, List.modifyHead_cons], by simp⟩
    | placeholder sort name => exact ⟨[], stretches ps, rfl, by simp⟩

def literalCount (ps : List Piece) : Nat := ((stretches ps).map Markers.standard.count).sum

theorem literalCount_literal (c : Char) (ps : List Piece) : literalCount (literal c :: ps) =
    literalCount ps + ((if c = '?' then 1 else 0) +
      if c = '%' ∧ ps.head? = some (literal 'v') then 1 else 0) := by
  obtain ⟨stretch, later, hps, hhead⟩ := exists_stretches ps
  rw [literalCount, literalCount, stretches, hps, List.modifyHead_cons, List.map_cons,
    List.map_cons, List.sum_cons, List.sum_cons, Markers.count_standard_cons]
  simp only [hhead]
  omega

theorem literalCount_placeholder (sort : Placeholder) (name : Text) (ps : List Piece) :
    literalCount (placeholder sort name :: ps) = literalCount ps := by
  rw [literalCount, literalCount, stretches, List.map_cons, List.sum_cons, Markers.count]
  simp [Text.occurrences]

/-! ## What is written -/

theorem text_standard_ne_nil (sort : Placeholder) : Markers.standard.text sort ≠ [] := by
  cases sort <;> decide

/-- What is written behind other text begins with a `v` only if the template does so. -/
theorem head_write_eq_v_iff (ps : List Piece) :
    (write .standard false true ps).head? = some 'v' ↔ ps.head? = some (literal 'v') := by
  cases ps with
  | nil => simp [write]
  | cons p ps =>
    cases p with
    | literal c =>
      rw [write]
      by_cases hc : Text.isSpace c
      · have hne : c ≠ 'v' := by
          rintro rfl
          exact absurd hc (by decide)
        rw [if_pos hc, write_spaced text_standard_ne_nil]
        split_ifs <;> simp [hne]
      · simp [hc]
    | placeholder sort name => cases sort <;> simp [write, Markers.text, Markers.standard]

theorem count_standard_blank (t : Text) :
    Markers.standard.count (' ' :: t) = Markers.standard.count t := by
  simp [Markers.count_standard_cons]

theorem count_standard_marker (sort : Placeholder) (t : Text) :
    Markers.standard.count (Markers.standard.text sort ++ t) = Markers.standard.count t + 1 := by
  cases sort with
  | bind =>
    change Markers.standard.count ('?' :: t) = _
    simp [Markers.count_standard_cons]
  | substitute =>
    change Markers.standard.count ('%' :: 'v' :: t) = _
    simp [Markers.count_standard_cons]

theorem paramCount_literal (markers : Markers) (c : Char) (ps : List Piece) :
    (Statement.ofPieces markers (literal c :: ps)).paramCount =
      (Statement.ofPieces markers ps).paramCount := rfl

theorem paramCount_placeholder (markers : Markers) (sort : Placeholder) (name : Text)
    (ps : List Piece) :
    (Statement.ofPieces markers (placeholder sort name :: ps)).paramCount =
      (Statement.ofPieces markers ps).paramCount + 1 := by
  cases sort
  · exact Nat.succ_add _ _
  · rfl

/-- Each placeholder leaves one marker, and each marker that stands between placeholders is left.
The induction goes over the pieces; what is behind a character matters only where a `%` stands in
front of a `v`. -/
theorem count_write (spaced started : Bool) (ps : List Piece) :
    Markers.standard.count (write .standard spaced started ps) =
      (Statement.ofPieces .standard ps).paramCount + literalCount ps := by
  induction ps generalizing spaced started with
  | nil =>
    rw [write, literalCount, stretches]
    simp [Markers.count, Text.occurrences, Statement.paramCount, Statement.ofPieces]
  | cons p ps ih =>
    cases p with
    | literal c =>
      rw [write, paramCount_literal, literalCount_literal]
      by_cases hc : Text.isSpace c
      · have hbind : c ≠ '?' := by
          rintro rfl
          exact absurd hc (by decide)
        have hsubstitute : c ≠ '%' := by
          rintro rfl
          exact absurd hc (by decide)
        rw [if_pos hc, ih]
        simp [hbind, hsubstitute]
      · have hrest := Markers.count_standard_cons c (write .standard false true ps)
        simp only [head_write_eq_v_iff] at hrest
        have hblank : Markers.standard.count ((if spaced && started then [' ', c] else [c]) ++
            write .standard false true ps) =
              Markers.standard.count (c :: write .standard false true ps) := by
          cases spaced && started
          · rfl
          · exact count_standard_blank _
        rw [if_neg hc, hblank, hrest, ih, Nat.add_assoc]
    | placeholder sort name =>
      have hmarker (started : Bool) : Markers.standard.count
          (Markers.standard.text sort ++ write .standard false started ps) =
            (Statement.ofPieces .standard ps).paramCount + 1 + literalCount ps := by
        rw [count_standard_marker, ih]
        omega
      rw [write, paramCount_placeholder, literalCount_placeholder]
      cases spaced && started
      · exact hmarker _
      · exact (count_standard_blank _).trans (hmarker _)

end Piece

namespace Statement

open Piece

/-- **Every parameter has one marker.** With the standard markers, the text of a statement holds as
many of them as there are parameters, and those that stand in the template between its
placeholders; so it holds no others exactly if none stands there. -/
theorem count_resolve {t : Text} {s : Statement} (h : resolve .standard (.ofText t) = .ok s) :
    ∃ ps, Reads t ps [] ∧
      Markers.standard.count s.text =
        s.paramCount + ((stretches ps).map Markers.standard.count).sum ∧
      (Markers.standard.count s.text = s.paramCount ↔
        ∀ stretch ∈ stretches ps, ∀ sort, ¬Markers.standard.text sort <:+: stretch) := by
  obtain ⟨ps, hps, rfl⟩ := Checked.map_eq_ok h
  have hcount := count_write false false ps
  refine ⟨ps, scan_eq_ok_iff.1 hps, hcount, ?_⟩
  have hzero (stretch : Text) : Markers.standard.count stretch = 0 ↔
      ∀ sort, ¬Markers.standard.text sort <:+: stretch := by
    rw [Markers.count, Nat.add_eq_zero_iff, Text.occurrences_eq_zero_iff (by decide),
      Text.occurrences_eq_zero_iff (by decide)]
    exact ⟨fun hnone sort => by cases sort; exacts [hnone.1, hnone.2],
      fun hnone => ⟨hnone .bind, hnone .substitute⟩⟩
  have hsum : literalCount ps = 0 ↔
      ∀ stretch ∈ stretches ps, ∀ sort, ¬Markers.standard.text sort <:+: stretch := by
    simp only [literalCount, List.sum_eq_zero_iff_forall_eq_nat, List.forall_mem_map, hzero]
  rw [← hsum]
  change Markers.standard.count (write .standard false false ps) = _ ↔ _
  omega

/-- A `%` stands in front of markers and white space and a `v` behind them; a question mark and a
formatting verb stand in the template itself. -/
theorem count_resolve_edges :
    let t : Text := "a%${x}v ? %v%#{ y }v\n%  v$#{z}${w}".toList
    let s : Statement := ⟨"a%?v ? %v%%vv % v$%v?".toList, [['x'], ['w']], [['y'], ['z']]⟩
    resolve .standard (.ofText t) = .ok s ∧ Markers.standard.count s.text = 6 ∧
      s.paramCount = 4 ∧ ∃ ps, Reads t ps [] ∧ Markers.standard.count s.text =
        s.paramCount + ((stretches ps).map Markers.standard.count).sum := by
  intro t s
  have hresolve : resolve .standard (.ofText t) = .ok s := by decide +kernel
  obtain ⟨ps, hps, hcount, -⟩ := count_resolve hresolve
  exact ⟨hresolve, by decide +kernel, rfl, ps, hps, hcount⟩

end Statement

end QueryTemplate
