import QueryTemplate.Proofs.Alignment.Segment
import QueryTemplate.Proofs.Forward.Query

/-! # Places in statements and segments

Statements and segments hold no places, so only the faults that end their reading have one: that
of a placeholder, of a directive, or of a token in the header of a directive.
-/

namespace QueryTemplate

instance : Placed Unit := .plain
instance : Placed Statement := .plain
instance : Placed BlockOpening := .plain
instance : Placed (List Piece) := .plain
instance : Placed (List Segment) := .plain
instance : Placed Segment := .plain
instance : Placed Fragment := .plain
instance : Placed HeaderToken := ⟨fun t => Forward t.span⟩
instance : Placed Directive := ⟨fun d => Forward d.span⟩

/-! ## Placeholders -/

theorem Piece.forward_scan (offset : Nat) (text : Text) : Forward (scan offset text) := by
  fun_induction scan offset text with
  | case1 => trivial
  | case2 => trivial
  | case3 offset c d rest _ ih => exact forward_map ih fun _ _ => trivial
  | case4 offset c d rest sort _ _ => exact ⟨trivial, forward_span_add ..⟩
  | case5 offset c d rest sort _ name after _ stop _ =>
    refine ⟨trivial, ?_⟩
    simp only [stop, Forward]
    omega
  | case6 offset c d rest sort _ name after _ stop _ ih => exact forward_map ih fun _ _ => trivial

theorem Segment.forward_resolve (markers : Markers) (source : Fragment) :
    Forward (resolve markers source) :=
  forward_mapError (forward_map (Piece.forward_scan _ _) fun _ _ => trivial)
    fun _ => LexicalFault.forward_inTemplate

/-! ## Directives -/

theorem HeaderToken.forward_scan (offset : Nat) (text : Text) : Forward (scan offset text) := by
  fun_induction scan offset text with
  | case1 => exact forward_nil
  | case2 _ _ _ _ ih => exact ih
  | case3 _ _ _ _ _ _ ih => exact forward_cons.2 ⟨forward_span_add .., ih⟩
  | case4 _ _ _ _ _ _ _ _ _ _ ih => exact forward_cons.2 ⟨forward_span_add .., ih⟩
  | case5 => exact forward_cons.2 ⟨forward_span_add .., forward_nil⟩
  | case6 _ _ _ _ _ _ ih => exact forward_cons.2 ⟨forward_span_add .., ih⟩

theorem Directive.forward_tokens (directive : Directive) : Forward directive.tokens :=
  HeaderToken.forward_scan _ _

theorem Directive.forward_read (offset : Nat) (text : Text) : Forward (read offset text) := by
  unfold read
  split
  · refine ⟨trivial, ?_⟩
    simp only [Forward]
    omega
  · refine ⟨?_, trivial⟩
    simp only [Forward]
    omega

theorem Directive.forward_first? (source : Fragment) : Forward (first? source) := by
  unfold first?
  cases Text.splitMark? opener source.text with
  | none => exact forward_none
  | some _ => exact forward_some.2 ⟨trivial, forward_read ..⟩

/-! ## Blocks -/

variable {directive : Directive} (hdirective : Forward directive)
include hdirective

namespace BlockOpening

theorem forward_loopPart (part : LoopPart) (kind : HeaderKind) {ts : List HeaderToken}
    (hts : Forward ts) : Forward (loopPart directive part kind ts) := by
  cases ts with
  | nil => exact ⟨trivial, hdirective⟩
  | cons t rest =>
    obtain ⟨ht, hrest⟩ := forward_cons.1 hts
    exact forward_ite (fun _ => ⟨trivial, hrest⟩) fun _ => ⟨trivial, ht⟩

theorem forward_ofLoopClause {clause : List HeaderToken} (hclause : Forward clause) :
    Forward (ofLoopClause directive clause) := by
  refine forward_bind (forward_loopPart hdirective _ _ hclause) fun _ h => ?_
  refine forward_bind (forward_loopPart hdirective _ _ h.2) fun _ h => ?_
  refine forward_bind (forward_loopPart hdirective _ _ h.2) fun _ h => ?_
  refine forward_ite (fun _ => trivial) fun _ => ?_
  refine forward_bind (forward_loopPart hdirective _ _ h.2) fun _ h => ?_
  refine forward_bind (forward_loopPart hdirective _ _ h.2) fun ⟨_, rest⟩ h => ?_
  cases rest with
  | nil => trivial
  | cons extra _ => exact ⟨trivial, (forward_cons.1 h.2).1⟩

theorem forward_ofDirective : Forward (ofDirective directive) := by
  have htokens := directive.forward_tokens
  have hfault (cause : TemplateCause) : Forward (⟨cause, directive.span⟩ : TemplateFault) :=
    ⟨trivial, hdirective⟩
  unfold ofDirective
  generalize directive.tokens = ts at htokens
  cases ts with
  | nil => exact hfault _
  | cons t clause =>
    obtain ⟨_, hclause⟩ := forward_cons.1 htokens
    dsimp only
    split
    · exact forward_ite (fun _ => hfault _) fun _ => trivial
    · exact forward_ofLoopClause hdirective hclause
    · exact hfault _
    · exact hfault _

end BlockOpening

namespace Segment

theorem forward_checkClosing (block : BlockKind) : Forward (checkClosing block directive) := by
  have htokens := directive.forward_tokens
  have hfault (cause : TemplateCause) : Forward (⟨cause, directive.span⟩ : TemplateFault) :=
    ⟨trivial, hdirective⟩
  unfold checkClosing
  generalize directive.tokens = ts at htokens
  cases ts with
  | nil => exact hfault _
  | cons t surplus =>
    dsimp only
    split
    · refine forward_ite (fun _ => hfault _) fun _ => ?_
      cases surplus with
      | nil => trivial
      | cons extra _ => exact ⟨trivial, (forward_cons.1 (forward_cons.1 htokens).2).1⟩
    · exact hfault _
    · exact hfault _

theorem forward_blockBody (block : BlockKind) (source : Fragment) :
    Forward (blockBody block directive source) := by
  have hfirst := Directive.forward_first? source
  unfold blockBody
  generalize Directive.first? source = first at hfirst
  match first with
  | none => exact ⟨trivial, hdirective⟩
  | some (_, .error fault) =>
    exact LexicalFault.forward_inTemplate (forward_some.1 hfirst).2
  | some (_, .ok (closing, _)) =>
    have hclosing : Forward closing := (forward_some.1 hfirst).2.1
    exact forward_map (forward_checkClosing hclosing block) fun _ _ => ⟨trivial, trivial⟩

theorem forward_block (markers : Markers) (source : Fragment) :
    Forward (block markers directive source) := by
  have hopening := BlockOpening.forward_ofDirective hdirective
  unfold block
  split
  · rename_i h
    rwa [h] at hopening
  · rename_i opening _
    have hbody := forward_blockBody hdirective opening.kind source
    split
    · rename_i h
      rwa [h] at hbody
    · exact forward_map (forward_resolve ..) fun _ _ => ⟨trivial, trivial⟩

omit hdirective

theorem forward_constants (markers : Markers) (source : Fragment) :
    Forward (constants markers source) :=
  forward_map (forward_resolve ..) fun _ _ => trivial

theorem forward_parts (markers : Markers) (source : Fragment) :
    Forward (parts markers source) := by
  fun_induction parts markers source with
  | case1 source _ => exact forward_constants ..
  | case2 source before found _ fault h =>
    have hlead := forward_constants markers before
    rwa [h] at hlead
  | case3 source before _ lead fault _ h =>
    have hfirst := Directive.forward_first? source
    rw [h] at hfirst
    exact LexicalFault.forward_inTemplate (forward_some.1 hfirst).2
  | case4 source before _ _ directive inside _ _ hblock h =>
    have hfirst := Directive.forward_first? source
    rw [h] at hfirst
    have hnext := forward_block (forward_some.1 hfirst).2.1 markers inside
    rwa [hblock] at hnext
  | case5 => exact forward_map (by assumption) fun _ _ => trivial

theorem forward_divide (markers : Markers) (source : Fragment) :
    Forward (divide markers source) := by
  have hparts := forward_parts markers source
  unfold divide
  split
  · rename_i h
    rwa [h] at hparts
  · exact forward_ite (fun _ => trivial) fun _ => ⟨trivial, Nat.le_add_right ..⟩

end Segment

end QueryTemplate
