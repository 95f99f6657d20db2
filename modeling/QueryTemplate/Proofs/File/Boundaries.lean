import QueryTemplate.Proofs.File.Splitting
import QueryTemplate.Proofs.Session.Faithful

/-! # Places between characters

Comments are blanked out byte by byte, so the template of a method has more places between
characters than the file it comes from. Nothing that is read from it starts or stops inside a run
of blanks, though, and so every place that a compilation reports lies between two characters of
the file.
-/

namespace QueryTemplate

/-- Whether an offset lies between two characters of a text or at one of its ends. -/
def Text.IsCut (t : Text) (n : Nat) : Prop := ∃ before after, t = before ++ after ∧ n = size before

/-- The offsets between the characters of a text, each matched with itself. -/
def Alignment.cuts (t : Text) : Alignment where
  Matches a a' := a' = a ∧ t.IsCut a
  min {_ _ a b} ha hb := by
    obtain ⟨rfl, ha⟩ := ha
    obtain ⟨rfl, hb⟩ := hb
    refine ⟨rfl, ?_⟩
    rcases Nat.le_total a b with h | h
    · rwa [Nat.min_eq_left h]
    · rwa [Nat.min_eq_right h]
  max {_ _ a b} ha hb := by
    obtain ⟨rfl, ha⟩ := ha
    obtain ⟨rfl, hb⟩ := hb
    refine ⟨rfl, ?_⟩
    rcases Nat.le_total a b with h | h
    · rwa [Nat.max_eq_right h]
    · rwa [Nat.max_eq_left h]

variable {file : Text}

theorem Text.IsCut.le {t : Text} {n : Nat} (h : t.IsCut n) : n ≤ size t := by
  obtain ⟨before, after, rfl, rfl⟩ := h
  rw [size_append]
  exact Nat.le_add_right _ _

/-- A cut of a text that stands in the file is one of the file. -/
theorem Text.StandsAt.isCut {t : Text} {s : Span} (h : file.StandsAt t s) (before after : Text)
    (ht : t = before ++ after) : file.IsCut (s.start + size before) := by
  obtain ⟨lead, rest, rfl, rfl⟩ := h
  subst ht
  exact ⟨lead ++ before, after ++ rest, by simp, by simp⟩

theorem Fragment.aligned_cuts {f : Fragment} (h : file.StandsAt f.text f.span) :
    Aligned (.cuts file) f f := by
  exact ⟨rfl, fun before after htext _ => ⟨rfl, h.isCut before after htext⟩⟩

namespace MethodSource

/-! ## Blanked comments -/

/-- No edge lies inside of what stands for a character. -/
theorem StandsFor.cases {c : Char} {lead t before after : Text} (h : StandsFor c lead)
    (ht : lead ++ t = before ++ after) (hedge : Text.IsEdge before after) :
    before = [] ∨ ∃ later, before = lead ++ later ∧ t = later ++ after := by
  rcases List.append_eq_append_iff.1 ht with hlater | ⟨inner, hlead, hafter⟩
  · exact .inr hlater
  · by_cases hbefore : before = []
    · exact .inl hbefore
    by_cases hinner : inner = []
    · exact .inr ⟨[], by simp [hlead, hinner], by simp [hafter, hinner]⟩
    rcases h with rfl | rfl
    · have hlength := congrArg List.length hlead
      have hpos := List.length_pos_iff.2 hbefore
      have hpos' := List.length_pos_iff.2 hinner
      rw [List.length_append, List.length_singleton] at hlength
      omega
    · have hblank (e : Char) (he : e ∈ before ++ inner) : e = ' ' :=
        List.eq_of_mem_replicate (hlead ▸ he)
      obtain ⟨d, inner, rfl⟩ := List.exists_cons_of_ne_nil hinner
      rcases hedge with hedge | ⟨e, he, hne⟩
      · rw [hafter, hblank d (by simp)] at hedge
        exact absurd rfl hedge
      · exact absurd (hblank e (List.mem_append_left _ (List.mem_of_getLast? he))) hne

/-- An edge of a template without its comments is a cut of the template as it is written. -/
theorem isCut_of_isEdge {region : Region} {t before after : Text}
    (h : blankComments region t = before ++ after) (hedge : Text.IsEdge before after) :
    t.IsCut (Text.size before) := by
  induction t generalizing region before with
  | nil =>
    have hnil : before = [] := by
      cases region <;> exact (List.append_eq_nil_iff.1 h.symm).1
    exact ⟨[], [], rfl, by rw [hnil]⟩
  | cons c rest ih =>
    obtain ⟨lead, next, hlead, hstands⟩ := blankComments_standsFor region c rest
    rw [hlead] at h
    rcases hstands.cases h hedge with rfl | ⟨later, rfl, hrest⟩
    · exact ⟨[], c :: rest, rfl, rfl⟩
    · by_cases hlater : later = []
      · exact ⟨[c], rest, rfl, by simp [hlater, hstands.size_eq]⟩
      have hedge : Text.IsEdge later after := by
        refine hedge.imp id fun ⟨d, hd, hblank⟩ => ⟨d, ?_, hblank⟩
        rwa [List.getLast?_append_of_ne_nil _ hlater] at hd
      obtain ⟨before, behind, rfl, hsize⟩ := ih hrest hedge
      exact ⟨c :: before, behind, rfl, by simp [hstands.size_eq, hsize]⟩

/-! ## Method sources -/

theorem aligned_ofBlock_cuts {b : Block} (hb : b.IsPart 0 (Text.lines file)) :
    Aligned (.cuts file) (ofBlock b) (ofBlock b) := by
  obtain ⟨hheader, hbody⟩ := hb.stands
  have hstart : file.IsCut b.header.offset := hheader.isCut [] _ rfl
  refine aligned_ofHeader (Fragment.aligned_cuts hheader) ⟨rfl, hstart⟩ hb.header ⟨rfl, ?_⟩ ?_
  · intro before after htext hedge
    obtain ⟨u, v, ht, hsize⟩ := isCut_of_isEdge htext hedge
    rw [hsize]
    exact ⟨rfl, hbody.isCut u v ht⟩
  · rintro s s' ⟨⟨hs, -⟩, ⟨hs', -⟩⟩
    simp only [Fragment.slice, hs, hs']

theorem aligned_checkLead_cuts {line : Fragment} (h : file.StandsAt line.text line.span) :
    Aligned (.cuts file) (checkLead line) (checkLead line) := by
  unfold checkLead
  refine aligned_ite (fun _ => .ok rfl) fun _ => .error ⟨rfl, ?_, ?_⟩
  · refine ⟨rfl, ?_⟩
    rw [← Text.size_trimStart line.text, Nat.add_sub_cancel_left]
    exact h.isCut _ _ (Text.trimStart_append line.text).symm
  · obtain ⟨space, ht, -⟩ := Text.trimEnd_append line.text
    exact ⟨rfl, h.isCut _ space ht⟩

theorem locate_stands (lead : Text) (lines : List Text) :
    ∀ line ∈ locate (Text.size lead) lines,
      (lead ++ lines.flatten).StandsAt line.text line.span := by
  induction lines generalizing lead with
  | nil => exact fun _ hline => absurd hline List.not_mem_nil
  | cons line lines ih =>
    have hlater := ih (lead ++ line)
    rw [Text.size_append, List.append_assoc] at hlater
    exact List.forall_mem_cons.2 ⟨⟨lead, lines.flatten, rfl, rfl⟩, hlater⟩

theorem aligned_forM_checkLead {A : Alignment} {lines : List Fragment}
    (h : ∀ line ∈ lines, Aligned A (checkLead line) (checkLead line)) :
    Aligned A (lines.forM checkLead) (lines.forM checkLead) := by
  induction lines with
  | nil => exact .ok rfl
  | cons line lines ih =>
    rw [List.forall_mem_cons] at h
    exact aligned_bind h.1 fun _ _ _ => ih h.2

/-- What a file is divided into, or the fault that keeps it from being divided, lies between the
characters of the file. -/
theorem aligned_split_cuts (file : Text) : Aligned (.cuts file) (split file) (split file) := by
  rw [split_eq]
  refine aligned_bind (aligned_forM_checkLead fun line hline => aligned_checkLead_cuts ?_)
    fun _ _ _ => aligned_mapM_ofBlock (List.forall₂_same.2 fun b hb => ?_)
  · rw [group_lead] at hline
    have hstands := locate_stands [] (Text.lines file) line (List.takeWhile_subset _ hline)
    rwa [List.nil_append, Text.flatten_lines] at hstands
  · exact aligned_ofBlock_cuts ((group_isPart 0 (Text.lines file)).2 b hb)

end MethodSource

/-! ## Compiled files -/

namespace Compiler

/-- What compiling a text gives lies between the characters of the text, whatever the session. -/
theorem aligned_compileText_cuts (compiler : Compiler) (text : Text) (s : Session) :
    Aligned (.cuts text) (compiler.compileText text s).1 (compiler.compileText text s).1 := by
  have hsplit := MethodSource.aligned_split_cuts text
  rw [compileText_run]
  generalize MethodSource.split text = divided at hsplit
  cases hsplit with
  | error h => exact .error h
  | ok h =>
    have hkept : ∀ provider, compiler.provider = some provider →
        SchemaCache.KeptBy provider fun cache cache' => cache = cache' := by
      rintro provider - name cache _ rfl
      exact ⟨rfl, rfl⟩
    have hself : Session.Alike (.cuts text) (fun cache cache' => cache = cache') (fun _ => True)
        { s with names := [] } { s with names := [] } :=
      ⟨fun _ _ => trivial, ⟨[], [], rfl, .nil, by simp⟩, rfl⟩
    exact (Simulates.mapM (h.imp fun _ _ hsource => simulates_compileMethod hkept hsource trivial)
      _ _ hself).1

end Compiler

end QueryTemplate
