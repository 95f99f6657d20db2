import QueryTemplate.Proofs.Template.Resolution

/-! # Parameters of dynamic templates

The placeholders of a dynamic template outside its directives are those of its constant texts and
bodies, in order, and so are the parameters of its segments. Only a constant text that leaves no
text is left out. If it holds a placeholder, the marker of that placeholder is empty, and its name
is lost.
-/

namespace QueryTemplate

def Statement.params (s : Statement) : Placeholder → List Text
  | .bind => s.bindParams
  | .substitute => s.substituteParams

def Segment.params (segments : List Segment) (sort : Placeholder) : List Text :=
  segments.flatMap fun segment => segment.body.params sort

/-- Whether the piece leaves no text of its own: white space, or a placeholder with an empty
marker. -/
def Piece.isSilent (markers : Markers) : Piece → Bool
  | literal c => Text.isSpace c
  | placeholder sort _ => (markers.text sort).isEmpty

namespace Text

/-- The pieces that a text without directives is read to. -/
def pieces (t : Text) : List Piece := (Piece.scan 0 t).toOption.getD []

def names (sort : Placeholder) (t : Text) : List Text := t.pieces.filterMap (Piece.name? sort)

/-- The names of the placeholders of one sort, or none if no piece leaves any text. -/
def keptNames (markers : Markers) (sort : Placeholder) (t : Text) : List Text :=
  if t.pieces.all (Piece.isSilent markers) then [] else t.names sort

end Text

section

variable {markers : Markers} {sort : Placeholder}

namespace Piece

theorem write_eq_nil_iff_isSilent (spaced : Bool) (ps : List Piece) :
    write markers spaced false ps = [] ↔ ps.all (isSilent markers) := by
  induction ps generalizing spaced with
  | nil => simp [write]
  | cons p ps ih =>
    cases p with
    | literal c =>
      rw [write, List.all_cons, isSilent]
      by_cases hc : Text.isSpace c
      · rw [if_pos hc, ih, hc, Bool.true_and]
      · rw [if_neg hc]
        simp [hc]
    | placeholder sort name =>
      rw [write, List.all_cons, isSilent]
      cases hmarker : markers.text sort with
      | nil => simp [ih]
      | cons c marker => simp

/-- A placeholder with a marker leaves text. -/
theorem name?_of_isSilent (hmarker : markers.text sort ≠ []) {p : Piece} (h : p.isSilent markers) :
    p.name? sort = none := by
  cases p with
  | literal c => rfl
  | placeholder other name =>
    refine if_neg ?_
    rintro rfl
    exact hmarker (List.isEmpty_iff.1 h)

end Piece

namespace Text

theorem keptNames_of_marker (hmarker : markers.text sort ≠ []) (t : Text) :
    t.keptNames markers sort = t.names sort := by
  rw [keptNames]
  split_ifs with hsilent
  · refine (List.filterMap_eq_nil_iff.2 fun p hp => ?_).symm
    exact Piece.name?_of_isSilent hmarker (List.all_eq_true.1 hsilent p hp)
  · rfl

end Text

namespace Statement

theorem params_ofPieces (ps : List Piece) :
    (ofPieces markers ps).params sort = ps.filterMap (Piece.name? sort) := by
  cases sort <;> rfl

end Statement

namespace Resolves

variable {t : Text} {s : Statement}

theorem pieces_eq (h : Resolves markers t s) :
    Piece.scan 0 t = .ok t.pieces ∧ Statement.ofPieces markers t.pieces = s := by
  obtain ⟨ps, hps, hs⟩ := h.exists_pieces
  have hpieces : t.pieces = ps := by
    rw [Text.pieces, hps]
    rfl
  rw [hpieces]
  exact ⟨hps, hs⟩

theorem params_eq (h : Resolves markers t s) : s.params sort = t.names sort := by
  rw [← h.pieces_eq.2, Statement.params_ofPieces, Text.names]

/-- A constant text is left out exactly if its pieces leave no text. -/
theorem params_ofConstant (h : Resolves markers t s) :
    Segment.params (Segment.ofConstant s) sort = t.keptNames markers sort := by
  have hempty : s.isEmpty = t.pieces.all (Piece.isSilent markers) := by
    rw [← h.pieces_eq.2, Bool.eq_iff_iff, ← Piece.write_eq_nil_iff_isSilent false]
    exact List.isEmpty_iff
  rw [Segment.ofConstant, hempty, Text.keptNames, ← h.params_eq]
  split_ifs
  · rfl
  · exact List.flatMap_singleton ..

end Resolves

namespace Segment

open TemplateBlock

/-- The names of a template are those of its constant texts and bodies in order, and so are the
parameters of its segments, save for the constant texts that leave no text. The induction goes over
the blocks, each of which leaves its two texts with a blank behind either. -/
theorem params_of_yields {blocks : List TemplateBlock} {last : Text} {segments : List Segment}
    (hblocks : ∀ b ∈ blocks, b.IsWellFormed) (hlast : ¬Directive.opener <:+: last)
    (h : Yields markers blocks last segments) :
    ∃ ps, Piece.scan 0 (Directive.blankOut (blocks.flatMap text ++ last)) = .ok ps ∧ ∀ sort,
      ps.filterMap (Piece.name? sort) =
        (blocks.flatMap fun b => b.lead.names sort ++ b.body.names sort) ++ last.names sort ∧
      params segments sort =
        (blocks.flatMap fun b => b.lead.keptNames markers sort ++ b.body.names sort) ++
          last.keptNames markers sort := by
  induction h with
  | @last last s hresolves =>
    refine ⟨last.pieces, ?_, fun sort => ⟨rfl, ?_⟩⟩
    · rw [List.flatMap_nil, List.nil_append, Directive.blankOut_of_not_infix hlast]
      exact hresolves.pieces_eq.1
    · exact hresolves.params_ofConstant
  | @block b blocks last lead body segments hlead hbody _ ih =>
    obtain ⟨hb, hrest⟩ := List.forall_mem_cons.1 hblocks
    obtain ⟨later, hlater, hnames⟩ := ih hrest hlast
    refine ⟨b.lead.pieces ++ .literal ' ' :: (b.body.pieces ++ .literal ' ' :: later), ?_,
      fun sort => ?_⟩
    · rw [List.flatMap_cons, List.append_assoc, blankOut_text hb]
      exact Piece.scan_append_blank hlead.pieces_eq.1
        (Piece.scan_append_blank hbody.pieces_eq.1 hlater)
    · obtain ⟨hall, hkept⟩ := hnames sort
      have hblank (qs : List Piece) : (Piece.literal ' ' :: qs).filterMap (Piece.name? sort) =
        qs.filterMap (Piece.name? sort) := rfl
      constructor
      · rw [List.filterMap_append, hblank, List.filterMap_append, hblank, hall, List.flatMap_cons]
        simp only [List.append_assoc]
        rfl
      · have hsegments : params (ofConstant lead ++ b.opening.segment body :: segments) sort =
            params (ofConstant lead) sort ++ (body.params sort ++ params segments sort) := by
          rw [params, List.flatMap_append, List.flatMap_cons, body_segment]
          rfl
        rw [hsegments, hlead.params_ofConstant, hbody.params_eq, hkept, List.flatMap_cons]
        simp only [List.append_assoc]

/-- **No parameter is lost but with a constant text that leaves no text.** The names of a template
outside its directives are those of its constant texts and bodies in order. The parameters of the
segments are the same ones without those of the constant texts that are left out, which hold nothing
but white space and placeholders with an empty marker. So they are all there for a sort of
placeholders with a marker that is not empty, whatever the other marker is. -/
theorem params_divide (markers : Markers) {source : Fragment} {segments : List Segment}
    (h : divide markers source = .ok segments) :
    ∃ (blocks : List TemplateBlock) (last : Text) (ps : List Piece),
      source.text = blocks.flatMap text ++ last ∧ (∀ b ∈ blocks, b.IsWellFormed) ∧
      ¬Directive.opener <:+: last ∧ Piece.Reads (Directive.blankOut source.text) ps [] ∧ ∀ sort,
        ps.filterMap (Piece.name? sort) =
          (blocks.flatMap fun b => b.lead.names sort ++ b.body.names sort) ++ last.names sort ∧
        params segments sort =
          (blocks.flatMap fun b => b.lead.keptNames markers sort ++ b.body.names sort) ++
            last.keptNames markers sort ∧
        (markers.text sort ≠ [] → params segments sort = ps.filterMap (Piece.name? sort)) := by
  obtain ⟨blocks, last, htext, hblocks, hlast, hyields⟩ :=
    grammar_of_parts (divide_eq_ok_iff_parts.1 h).1
  obtain ⟨ps, hscan, hnames⟩ := params_of_yields hblocks hlast hyields
  rw [← htext] at hscan
  refine ⟨blocks, last, ps, htext, hblocks, hlast, Piece.scan_eq_ok_iff.1 hscan, fun sort => ?_⟩
  obtain ⟨hall, hkept⟩ := hnames sort
  refine ⟨hall, hkept, fun hmarker => ?_⟩
  rw [hkept, hall]
  simp only [Text.keptNames_of_marker hmarker]

/-- With an empty marker for bound values, the placeholder in front of the block is lost, while the
one in the block and the one behind it are kept. -/
theorem params_divide_empty_marker :
    let markers : Markers := ⟨[], ['%', 'v']⟩
    let source : Text := ("$\x7ba\x7d %\x7bif x\x7d$\x7b b \x7d#\x7bc\x7d%\x7bendif\x7d" ++
      "#\x7bd\x7d$\x7be\x7d").toList
    let segments : List Segment := [.conditional ['x'] ⟨['%', 'v'], [['b']], [['c']]⟩,
      .constant ⟨['%', 'v'], [['e']], [['d']]⟩]
    divide markers ⟨0, source⟩ = .ok segments ∧ markers.text .substitute ≠ [] ∧
      params segments .bind = [['b'], ['e']] ∧
      ∃ ps, Piece.Reads (Directive.blankOut source) ps [] ∧
        params segments .substitute = ps.filterMap (Piece.name? .substitute) := by
  intro markers source segments
  have hdivide : divide markers ⟨0, source⟩ = .ok segments := by decide +kernel
  have hmarker : markers.text .substitute ≠ [] := by decide
  obtain ⟨_, _, ps, -, -, -, hreads, hnames⟩ := params_divide markers hdivide
  exact ⟨hdivide, hmarker, rfl, ps, hreads, (hnames .substitute).2.2 hmarker⟩

/-- A parameter that is lost: the constant text in front of the block is a placeholder with an empty
marker. -/
theorem exists_lost_param :
    let markers : Markers := ⟨[], ['%', 'v']⟩
    let source : Text := "$\x7ba\x7d%\x7bif x\x7db%\x7bendif\x7d".toList
    let segments : List Segment := [.conditional ['x'] ⟨['b'], [], []⟩]
    divide markers ⟨0, source⟩ = .ok segments ∧
      ∃ ps, Piece.Reads (Directive.blankOut source) ps [] ∧
        ps.filterMap (Piece.name? .bind) = [['a']] ∧ params segments .bind = [] := by
  intro markers source segments
  have hscan : Piece.scan 0 (Directive.blankOut source) =
      .ok [.placeholder .bind ['a'], .literal ' ', .literal 'b', .literal ' '] := by
    decide +kernel
  exact ⟨by decide +kernel, _, Piece.scan_eq_ok_iff.1 hscan, rfl, rfl⟩

end Segment

end

end QueryTemplate
