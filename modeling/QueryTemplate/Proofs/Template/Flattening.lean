import QueryTemplate.Method.Basic
import QueryTemplate.Proofs.Template.Printing

/-! # Templates without their directives

If every directive of a dynamic template is replaced by a blank, a static template is left. It
resolves to what the segments of the dynamic one give when they are put behind one another, so no
parameter is lost, repeated or moved by the division into segments.
-/

namespace QueryTemplate

/-! ## Texts and statements put together -/

namespace Text

/-- The texts that are not empty, joined by single blanks. -/
def joinWords (ts : List Text) : Text := [' '].intercalate (ts.filter (· ≠ []))

/-- A text behind another one, with a blank in between if neither is empty. -/
def besides (a b : Text) : Text :=
  if a = [] then b else if b = [] then a else a ++ ' ' :: b

theorem joinWords_cons (t : Text) (ts : List Text) :
    joinWords (t :: ts) = t.besides (joinWords ts) := by
  rw [joinWords, joinWords, besides]
  by_cases ht : t = []
  · rw [if_pos ht, List.filter_cons_of_neg (by simpa using ht)]
  · rw [if_neg ht, List.filter_cons_of_pos (by simpa using ht)]
    cases hrest : ts.filter (· ≠ []) with
    | nil => simp
    | cons u us =>
      have hmem : u ∈ ts.filter (· ≠ []) := hrest ▸ List.mem_cons_self ..
      have hu : u ≠ [] := by simpa using (List.mem_filter.1 hmem).2
      have hjoined : [' '].intercalate (u :: us) ≠ [] := by
        cases us <;> simp [List.intercalate_cons_cons, hu]
      rw [if_neg hjoined, List.intercalate_cons_cons, List.append_assoc]
      rfl

end Text

namespace Statement

def join (s t : Statement) : Statement :=
  ⟨s.text.besides t.text, s.bindParams ++ t.bindParams, s.substituteParams ++ t.substituteParams⟩

/-- The statements put together: their texts are joined by single blanks, as far as they are not
empty, and their parameters follow one another. -/
def joined (statements : List Statement) : Statement :=
  ⟨Text.joinWords (statements.map text), statements.flatMap bindParams,
    statements.flatMap substituteParams⟩

theorem joined_cons (s : Statement) (ss : List Statement) :
    joined (s :: ss) = s.join (joined ss) := by
  rw [joined, List.map_cons, Text.joinWords_cons]
  rfl

end Statement

/-! ## Pieces behind one another -/

namespace Piece

variable {markers : Markers}

/-- Where a text stands does not matter to its pieces. -/
theorem scan_offset {o : Nat} {t : Text} {ps : List Piece} (h : scan 0 t = .ok ps) :
    scan o t = .ok ps := by
  have haligned := aligned_scan (Fragment.aligned_shift o 0 t)
  rw [Nat.zero_add, h] at haligned
  generalize scan o t = found at haligned
  cases haligned with
  | ok heq => exact congrArg _ (heq : _ = _).symm

/-- A character that opens nothing is a piece of its own. -/
theorem scan_unopened {c : Char} {t : Text} {o : Nat} (h : ∀ d ∈ t.head?, opened? c d = none) :
    scan o (c :: t) = (scan (o + c.utf8Size) t).map (literal c :: ·) := by
  cases t with
  | nil =>
    rw [scan, scan]
    rfl
  | cons d t => rw [scan_cons, h d rfl]

/-- A text and another one behind a blank are read one after the other: no placeholder of the first
one is left open, and none is opened across the blank. -/
theorem scan_append_blank {a b : Text} {ps qs : List Piece} {o o' : Nat} (ha : scan o a = .ok ps)
    (hb : scan 0 b = .ok qs) : scan o' (a ++ ' ' :: b) = .ok (ps ++ literal ' ' :: qs) := by
  induction hn : a.length using Nat.strongRecOn generalizing a ps o o' with
  | ind n ih =>
    have hblank (o : Nat) : scan o (' ' :: b) = .ok (literal ' ' :: qs) := by
      have hhead : ∀ d ∈ b.head?, opened? ' ' d = none := fun _ _ => rfl
      rw [scan_unopened hhead, scan_offset hb]
      rfl
    match a with
    | [] =>
      rw [scan] at ha
      cases ha
      exact hblank o'
    | [c] =>
      rw [scan] at ha
      cases ha
      have hclosed : opened? c ' ' = none := by
        rw [Option.eq_none_iff_forall_not_mem]
        intro sort hsort
        exact absurd (opened?_eq_some hsort).2 (by decide)
      rw [List.cons_append, List.nil_append, scan_cons, hclosed]
      dsimp only
      rw [hblank]
      rfl
    | c :: d :: rest =>
      rw [scan_cons] at ha
      rw [List.cons_append, List.cons_append, scan_cons]
      cases hopened : opened? c d with
      | none =>
        rw [hopened] at ha
        obtain ⟨ps', hps', rfl⟩ := Checked.map_eq_ok ha
        dsimp only
        rw [← List.cons_append, ih _ (by simp [← hn]) hps' rfl]
        rfl
      | some sort =>
        rw [hopened] at ha
        dsimp only at ha ⊢
        cases hsplit : Text.splitFirst? '\x7d' rest with
        | none =>
          rw [hsplit] at ha
          cases ha
        | some p =>
          obtain ⟨name, after⟩ := p
          obtain ⟨rfl, hname⟩ := Text.splitFirst?_eq_some hsplit
          rw [hsplit] at ha
          dsimp only at ha
          rw [List.append_assoc, List.cons_append, Text.splitFirst?_append hname]
          dsimp only
          split_ifs at ha with hblankName
          rw [if_neg hblankName]
          obtain ⟨ps', hps', rfl⟩ := Checked.map_eq_ok ha
          rw [ih _ (by simp [← hn]; omega) hps' rfl]
          rfl

/-- Text in front of which nothing is written yet begins without a blank. -/
theorem write_not_started (spaced : Bool) (ps : List Piece) :
    write markers spaced false ps = write markers false false ps := by
  induction ps generalizing spaced with
  | nil => rfl
  | cons p ps ih =>
    cases p with
    | literal c => simp only [write, Bool.and_false, ih true]
    | placeholder sort name => simp only [write, Bool.and_false]

/-- Behind white space and other text, a blank comes in front of what is written. -/
theorem write_spaced (hmarkers : ∀ sort, markers.text sort ≠ []) (ps : List Piece) :
    write markers true true ps =
      if write markers false false ps = [] then [] else ' ' :: write markers false false ps := by
  induction ps with
  | nil => rfl
  | cons p ps ih =>
    cases p with
    | literal c =>
      rw [write, write]
      by_cases hc : Text.isSpace c
      · rw [if_pos hc, if_pos hc, write_not_started true, ih]
      · rw [if_neg hc, if_neg hc]
        rfl
    | placeholder sort name =>
      have hsome : (markers.text sort).isEmpty = false := by simpa using hmarkers sort
      have hne : write markers false false (placeholder sort name :: ps) ≠ [] := by
        simp [write, hmarkers sort]
      rw [if_neg hne]
      simp [write, hsome]

theorem write_append_blank (hmarkers : ∀ sort, markers.text sort ≠ []) (spaced started : Bool)
    (ps qs : List Piece) :
    write markers spaced started (ps ++ literal ' ' :: qs) =
      write markers spaced started ps ++
        write markers true (started || !ps.all isBlank) qs := by
  induction ps generalizing spaced started with
  | nil =>
    have hblank : write markers spaced started (literal ' ' :: qs) =
        write markers true started qs := if_pos (by decide)
    rw [List.nil_append, hblank]
    simp [write]
  | cons p ps ih =>
    cases p with
    | literal c =>
      rw [List.cons_append, write, write]
      by_cases hc : Text.isSpace c
      · rw [if_pos hc, if_pos hc, ih]
        simp [isBlank, hc]
      · rw [if_neg hc, if_neg hc, ih]
        simp [isBlank, hc]
    | placeholder sort name =>
      have hsome : (markers.text sort).isEmpty = false := by simpa using hmarkers sort
      rw [List.cons_append, write, write, ih]
      simp [isBlank, hsome]

end Piece

namespace Statement

open Piece

variable {markers : Markers}

theorem ofPieces_append_blank (hmarkers : ∀ sort, markers.text sort ≠ []) (ps qs : List Piece) :
    ofPieces markers (ps ++ literal ' ' :: qs) =
      (ofPieces markers ps).join (ofPieces markers qs) := by
  have hnil := write_eq_nil_iff hmarkers false false ps
  have htext : write markers false false (ps ++ literal ' ' :: qs) =
      (write markers false false ps).besides (write markers false false qs) := by
    rw [write_append_blank hmarkers, Text.besides]
    by_cases hps : ps.all isBlank
    · rw [if_pos (hnil.2 hps), hnil.2 hps, hps]
      exact write_not_started true qs
    · rw [if_neg (mt hnil.1 hps), Bool.eq_false_iff.2 hps]
      have hspaced := write_spaced hmarkers qs
      simp only [Bool.not_false, Bool.or_true]
      rw [hspaced]
      split_ifs <;> simp
  rw [ofPieces, htext, join, List.filterMap_append, List.filterMap_append]
  rfl

/-- A statement without text has no parameters, since no marker is empty. -/
theorem eq_empty_of_ofPieces (hmarkers : ∀ sort, markers.text sort ≠ []) {ps : List Piece}
    (h : (ofPieces markers ps).isEmpty) : ofPieces markers ps = ⟨[], [], []⟩ := by
  have htext : write markers false false ps = [] := List.isEmpty_iff.1 h
  have hps := (write_eq_nil_iff hmarkers false false ps).1 htext
  have hname (sort : Placeholder) : ps.filterMap (name? sort) = [] := by
    rw [List.filterMap_eq_nil_iff]
    intro p hp
    have hblank := List.all_eq_true.1 hps p hp
    cases p with
    | literal _ => rfl
    | placeholder _ _ => cases hblank
  rw [ofPieces, hname, hname, htext]

theorem empty_join (s : Statement) : join ⟨[], [], []⟩ s = s := by
  rw [join, Text.besides, if_pos rfl]
  rfl

theorem join_empty (s : Statement) : s.join ⟨[], [], []⟩ = s := by
  have htext : s.text.besides [] = s.text := by
    rw [Text.besides, if_pos rfl]
    split_ifs with h <;> simp [h]
  rw [join, htext, List.append_nil, List.append_nil]

/-- A constant text that is left out leaves nothing out. -/
theorem joined_ofConstant (hmarkers : ∀ sort, markers.text sort ≠ []) (ps : List Piece)
    (ss : List Statement) :
    joined ((Segment.ofConstant (ofPieces markers ps)).map Segment.body ++ ss) =
      (ofPieces markers ps).join (joined ss) := by
  rw [Segment.ofConstant]
  by_cases h : (ofPieces markers ps).isEmpty
  · rw [if_pos h, eq_empty_of_ofPieces hmarkers h, empty_join]
    rfl
  · rw [if_neg h]
    exact joined_cons ..

end Statement

theorem Resolves.exists_pieces {markers : Markers} {t : Text} {s : Statement}
    (h : Resolves markers t s) :
    ∃ ps, Piece.scan 0 t = .ok ps ∧ Statement.ofPieces markers ps = s :=
  Checked.map_eq_ok h

/-! ## Templates -/

namespace Directive

/-- The text with a blank in place of every directive. A directive that is left open stays. -/
def blankOut (t : Text) : Text :=
  match _ : Text.splitMark? opener t with
  | none => t
  | some (before, behind) =>
    match _ : splitHeader? none behind with
    | none => t
    | some (_, after) => before ++ ' ' :: blankOut after
termination_by t.length
decreasing_by
  rename_i hmark _ hheader
  rw [Text.splitMark?_append hmark, splitHeader?_append hheader]
  simp
  omega

theorem blankOut_eq (t : Text) :
    blankOut t = match Text.splitMark? opener t with
      | none => t
      | some (before, behind) =>
        match splitHeader? none behind with
        | none => t
        | some (_, after) => before ++ ' ' :: blankOut after := by
  rw [blankOut]
  split
  · simp_all
  · split <;> simp_all

theorem blankOut_of_not_infix {t : Text} (h : ¬opener <:+: t) : blankOut t = t := by
  rw [blankOut_eq, (Text.splitMark?_eq_none_iff (by decide)).2 h]

theorem blankOut_write {before header : Text} (hbefore : ¬opener <:+: before)
    (hheader : IsHeader header) (after : Text) :
    blankOut (before ++ write header ++ after) = before ++ ' ' :: blankOut after := by
  have hsplit : splitHeader? none (header ++ '\x7d' :: after) = some (header, after) :=
    splitHeader?_eq_some_iff.2 ⟨rfl, hheader⟩
  have htext : before ++ write header ++ after =
      before ++ opener ++ (header ++ '\x7d' :: after) := by simp [write]
  rw [htext, blankOut_eq, splitMark?_opener hbefore]
  dsimp only
  rw [hsplit]

end Directive

theorem TemplateBlock.blankOut_text {b : TemplateBlock} (h : b.IsWellFormed) (rest : Text) :
    Directive.blankOut (b.text ++ rest) =
      b.lead ++ ' ' :: (b.body ++ ' ' :: Directive.blankOut rest) := by
  have htext : b.text ++ rest = b.lead ++ Directive.write b.header ++
      (b.body ++ Directive.write b.closing ++ rest) := by
    rw [text]
    simp only [List.append_assoc]
  rw [htext, Directive.blankOut_write h.lead h.header, Directive.blankOut_write h.body h.closing]

namespace Segment

open TemplateBlock

theorem body_segment (opening : BlockOpening) (s : Statement) : (opening.segment s).body = s := by
  cases opening <;> rfl

/-- What is left of a template is read to pieces that make the statements of its segments. The
induction goes over the blocks, each of which leaves its two texts with a blank behind either. -/
theorem pieces_of_yields {markers : Markers} (hmarkers : ∀ sort, markers.text sort ≠ [])
    {blocks : List TemplateBlock} {last : Text} {segments : List Segment}
    (hblocks : ∀ b ∈ blocks, b.IsWellFormed) (hlast : ¬Directive.opener <:+: last)
    (h : Yields markers blocks last segments) :
    ∃ ps, Piece.scan 0 (Directive.blankOut (blocks.flatMap text ++ last)) = .ok ps ∧
      Statement.ofPieces markers ps = .joined (segments.map body) := by
  induction h with
  | last hresolves =>
    obtain ⟨ps, hps, rfl⟩ := hresolves.exists_pieces
    refine ⟨ps, ?_, ?_⟩
    · rw [List.flatMap_nil, List.nil_append, Directive.blankOut_of_not_infix hlast, hps]
    · have hjoined := Statement.joined_ofConstant hmarkers ps []
      rw [List.append_nil] at hjoined
      rw [hjoined]
      exact (Statement.join_empty _).symm
  | @block b blocks last lead body segments hlead hbody _ ih =>
    obtain ⟨hb, hrest⟩ := List.forall_mem_cons.1 hblocks
    obtain ⟨leadPieces, hleadScan, rfl⟩ := hlead.exists_pieces
    obtain ⟨bodyPieces, hbodyScan, rfl⟩ := hbody.exists_pieces
    obtain ⟨later, hlater, hjoined⟩ := ih hrest hlast
    refine ⟨leadPieces ++ .literal ' ' :: (bodyPieces ++ .literal ' ' :: later), ?_, ?_⟩
    · rw [List.flatMap_cons, List.append_assoc, blankOut_text hb]
      exact Piece.scan_append_blank hleadScan (Piece.scan_append_blank hbodyScan hlater)
    · rw [Statement.ofPieces_append_blank hmarkers, Statement.ofPieces_append_blank hmarkers,
        hjoined, List.map_append, List.map_cons, body_segment,
        Statement.joined_ofConstant hmarkers, Statement.joined_cons]

/-- **Dividing a template and blanking out its directives give the same statement.** -/
theorem resolve_blankOut (markers : Markers) (hmarkers : ∀ sort, markers.text sort ≠ [])
    {source : Fragment} {segments : List Segment} (h : divide markers source = .ok segments)
    (offset : Nat) :
    Statement.resolve markers ⟨offset, Directive.blankOut source.text⟩ =
      .ok (.joined (MethodBody.dynamic segments).statements) := by
  obtain ⟨blocks, last, htext, hblocks, hlast, hyields⟩ :=
    grammar_of_parts (divide_eq_ok_iff_parts.1 h).1
  obtain ⟨ps, hscan, hps⟩ := pieces_of_yields hmarkers hblocks hlast hyields
  rw [Statement.resolve, htext, Piece.scan_offset hscan]
  exact congrArg Except.ok hps

/-- A constant that is left out between two blocks, a body that is empty, and parameters of both
sorts. -/
theorem resolve_blankOut_blocks :
    let source : Text := ("a = $\x7bx\x7d %\x7bif c\x7dor #\x7by\x7d%\x7bendif\x7d " ++
      "%\x7bfor e in l join ','\x7d$\x7be\x7d%\x7bendfor\x7d%\x7bif d\x7d %\x7bendif\x7d" ++
      "$\x7bz\x7d").toList
    let segments : List Segment :=
      [.constant ⟨"a = ?".toList, [['x']], []⟩, .conditional ['c'] ⟨"or %v".toList, [], [['y']]⟩,
        .loop ['e'] ['l'] (some [',']) ⟨['?'], [['e']], []⟩, .conditional ['d'] ⟨[], [], []⟩,
        .constant ⟨['?'], [['z']], []⟩]
    Directive.blankOut source = "a = $\x7bx\x7d  or #\x7by\x7d   $\x7be\x7d    $\x7bz\x7d".toList ∧
      divide .standard ⟨0, source⟩ = .ok segments ∧
      Statement.resolve .standard ⟨0, Directive.blankOut source⟩ =
        .ok ⟨"a = ? or %v ? ?".toList, [['x'], ['e'], ['z']], [['y']]⟩ := by
  intro source segments
  have hmarkers : ∀ sort, Markers.standard.text sort ≠ [] := by
    intro sort
    cases sort <;> decide
  have hdivide : divide .standard ⟨0, source⟩ = .ok segments := by decide +kernel
  exact ⟨by decide +kernel, hdivide, resolve_blankOut .standard hmarkers hdivide 0⟩

end Segment

end QueryTemplate
