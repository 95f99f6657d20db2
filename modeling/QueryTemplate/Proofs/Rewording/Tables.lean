import QueryTemplate.Proofs.Query.Binding
import QueryTemplate.Proofs.Rewording.Select

/-! # The tables of a query with a changed token

The clauses declare the same tables, unless the token stands in the name of one. A keyword behind a
qualifier's dot declares none.
-/

namespace QueryTemplate

/-- A word or quoted text is a part of a table name, and behind a dot a keyword is one, too. -/
theorem Query.tablePart_of_name {q : Query} {t : Token} {dotted : Bool}
    (h : t.kind = .word ∨ (∃ quote, t.kind = .quoted quote) ∨ dotted ∧ ∃ k, t.kind = .keyword k)
    (ts : List Token) : q.tablePart dotted (t :: ts) = .ok ((t.label, t.span, false), ts) := by
  simp only [tablePart, next, bind, Except.bind]
  rcases h with hkind | ⟨quote, hkind⟩ | ⟨hdotted, k, hkind⟩
  · rw [hkind]
    rfl
  · rw [hkind]
    rfl
  · have hlabel : t.label = t.lexeme := by simp [Token.label, Token.name?, hkind]
    simp only [hkind, if_pos hdotted, hlabel]
    rfl

namespace Rewording

variable {R : Rewording}

/-- The token stands in the span of a table, and changes its name or stands within its braces. -/
def Disturbs (R : Rewording) (s : Span) (isVerbatim : Bool) : Prop :=
  R.Holds s ∧ (R.KeepsName → isVerbatim)

theorem Disturbs.merge_right {s : Span} {isVerbatim : Bool} (h : R.Disturbs s isVerbatim)
    (t : Span) : R.Disturbs (t.merge s) isVerbatim :=
  ⟨h.1.merge_right t, h.2⟩

/-- The parts of a table name are the same, unless the token disturbs them. -/
structure NamesAlike (R : Rewording) (x x' : Text × Span × Bool) : Prop where
  name : x.1 = x'.1 ∨ R.Disturbs x.2.1 x.2.2
  span : R.Placed x.2.1 x'.2.1
  isVerbatim : x.2.2 = x'.2.2

/-- The tables are the same, unless the token disturbs them. -/
structure Declares (R : Rewording) (t t' : QueryTable) : Prop where
  names : (t.name = t'.name ∧ t.aliasName = t'.aliasName) ∨ R.Disturbs t.span t.isVerbatim
  span : R.Placed t.span t'.span
  isVerbatim : t.isVerbatim = t'.isVerbatim

theorem SameAlias.eq {own : Text} {a a' : Option Text} (h : SameAlias own own a a') : a = a' := by
  obtain ⟨written, rfl, rfl⟩ := h
  rfl

section Readers

variable (hR : R.IsFit) (hplain : R.IsPlain) {q q' : Query} (hq : R.Queries q q')
  {ts ts' : List Token}
include hR hplain hq

theorem keeps_tablePart (dotted : Bool) (h : R.Rest ts ts')
    (hstart : dotted = false → R.old ∈ ts.head? → ¬R.IsDotted) :
    Keeps (fun x x' => R.NamesAlike x.1 x'.1 ∧ R.Resumes x.2 x'.2) (q.tablePart dotted ts)
      (q'.tablePart dotted ts') := by
  cases ts with
  | nil => exact .error _
  | cons t ts =>
    obtain ⟨t', ts', rfl, ht⟩ := h.exists_cons
    cases ht with
    | word =>
      have hrest := hR.resumes h (by simp [hR.old_isSymbol])
      have hholds : R.Holds R.old.span := ⟨Nat.le_refl _, Nat.le_refl _⟩
      have hspan : R.Placed R.old.span R.new.span := .around hholds R.aligned_place
      have hname : R.old.label = R.new.label ∨ R.Disturbs R.old.span false := by
        rcases hR.kind' with ⟨-, hlabel⟩ | ⟨k, hk⟩
        · exact .inl hlabel.symm
        · refine .inr ⟨hholds, fun ⟨⟨quote, hquote⟩, _⟩ => ?_⟩
          cases hk.symm.trans hquote
      have hread : q.tablePart dotted (R.old :: ts) = .ok ((R.old.label, R.old.span, false), ts) ∧
          q'.tablePart dotted (R.new :: ts') = .ok ((R.new.label, R.new.span, false), ts') := by
        cases dotted with
        | true =>
          exact ⟨Query.tablePart_of_name (hR.old_kind.imp id fun hk => .inr ⟨rfl, hk⟩) ts,
            Query.tablePart_of_name (.inr (hR.new_kind.imp id fun hk => ⟨rfl, hk⟩)) ts'⟩
        | false =>
          have hdot := hstart rfl rfl
          exact ⟨Query.tablePart_of_name (.inl (hplain.resolve_right hdot)) ts,
            Query.tablePart_of_name (.inr (.inl (hR.name hdot).1.1)) ts'⟩
      rw [hread.1, hread.2]
      exact .ok ⟨⟨hname, hspan, rfl⟩, hrest⟩
    | @alike _ t' hold hkind hlexeme hspan =>
      have ht : R.Match t t' := .alike hold hkind hlexeme hspan
      have hlabel : t.label = t'.label := ht.label_eq (absurd · hold)
      have hrest (hdot : ∀ s, t.kind ≠ .symbol s) : R.Resumes ts ts' :=
        hR.resumes h fun hs => hdot _ (eq_of_beq hs)
      simp only [Query.tablePart, Query.next, bind, Except.bind, ← hkind]
      split
      · rename_i hword
        exact .ok ⟨⟨.inl hlabel, hspan, rfl⟩, hrest (by simp [hword])⟩
      · rename_i hquoted
        exact .ok ⟨⟨.inl hlabel, hspan, rfl⟩, hrest (by simp [hquoted])⟩
      · rename_i hkeyword
        refine .ite (fun _ => ?_) fun _ => .error _
        exact .ok ⟨⟨.inl hlexeme, hspan, rfl⟩, hrest (by simp [hkeyword])⟩
      · refine .ite (fun _ => ?_) fun _ => .error _
        refine (keeps_braces hR hq hspan h.tail.2).map fun x x' hx => ?_
        exact ⟨⟨hx.1.imp id fun hholds => ⟨hholds, fun _ => rfl⟩, hx.2.1, rfl⟩, hx.2.2⟩

theorem keeps_dottedName {part part' : Text × Span × Bool} (hpart : R.NamesAlike part part')
    (h : R.Resumes ts ts') :
    Keeps (fun x x' => R.NamesAlike x.1 x'.1 ∧ R.Resumes x.2 x'.2) (q.dottedName part ts)
      (q'.dottedName part' ts') := by
  induction hn : ts.length using Nat.strongRecOn generalizing part part' ts ts' with
  | ind n ih =>
    cases ts with
    | nil =>
      obtain rfl := h.eq_nil
      rw [Query.dottedName, Query.dottedName]
      exact keeps_atEnd hq ⟨hpart, h⟩
    | cons t ts =>
      obtain ⟨t', ts', rfl, ht⟩ := h.exists_cons
      rw [Query.dottedName_cons, Query.dottedName_cons, hR.isSymbol_eq ht]
      refine .ite (fun hdot => ?_) fun _ => .ok ⟨hpart, h⟩
      have hnext := keeps_tablePart hR hplain hq true h.tail.2 (by simp)
      cases hs : q.tablePart true ts with
      | error e => exact .error e
      | ok x =>
        obtain ⟨⟨name, span, isVerbatim⟩, after⟩ := x
        obtain ⟨⟨⟨name', span', isVerbatim'⟩, after'⟩, hs', hfound, hafter⟩ := hnext _ hs
        have hshorter := Query.tablePart_length hs
        rw [hs']
        refine ih _ (by simp at hn; omega) ?_ hafter rfl
        exact ⟨hfound.name.imp id fun h => h.merge_right _, hpart.span.merge hfound.span,
          hfound.isVerbatim⟩

theorem keeps_tableReference (h : R.Resumes ts ts') :
    Keeps (fun x x' => Option.Rel R.Declares x.1 x'.1 ∧ R.Resumes x.2 x'.2)
      (q.tableReference ts) (q'.tableReference ts') := by
  cases ts with
  | nil => exact .error _
  | cons t ts =>
    obtain ⟨t', ts', rfl, ht⟩ := h.exists_cons
    rw [Query.tableReference, Query.tableReference, hR.isSymbol_eq ht]
    refine .ite (fun _ => ?_) fun _ => ?_
    · refine (keeps_skipGroup hR hq h.tail.2).bind fun us us' _ hus => ?_
      refine (keeps_aliasOf hR hq [] [] hus fun _ => hplain).bind ?_
      rintro ⟨a, after⟩ ⟨a', after'⟩ - ⟨-, hafter⟩
      exact .ok ⟨.none, hafter⟩
    · refine (keeps_tablePart hR hplain hq false h.toRest fun _ => h.start).bind ?_
      rintro ⟨part, us⟩ ⟨part', us'⟩ - ⟨hpart, hus⟩
      refine (keeps_dottedName hR hplain hq hpart hus).bind ?_
      rintro ⟨⟨name, span, isVerbatim⟩, vs⟩ ⟨⟨name', span', isVerbatim'⟩, vs'⟩ - ⟨hname, hvs⟩
      refine (keeps_aliasOf hR hq name name' hvs fun _ => hplain).bind ?_
      rintro ⟨a, after⟩ ⟨a', after'⟩ - ⟨halias, hafter⟩
      refine .ok ⟨.some ⟨?_, hname.span, hname.isVerbatim⟩, hafter⟩
      refine hname.name.imp (fun heq => ⟨heq, ?_⟩) id
      obtain rfl : name = name' := heq
      exact halias.eq

omit hR hplain hq in
theorem forall₂_toList {t t' : Option QueryTable} (h : Option.Rel R.Declares t t') :
    List.Forall₂ R.Declares t.toList t'.toList := by
  cases h with
  | none => exact .nil
  | some h => exact .cons h .nil

theorem keeps_tableReferences (h : R.Resumes ts ts') :
    Keeps (fun x x' => List.Forall₂ R.Declares x.1 x'.1 ∧ R.Resumes x.2 x'.2)
      (q.tableReferences ts) (q'.tableReferences ts') := by
  induction hn : ts.length using Nat.strongRecOn generalizing ts ts' with
  | ind n ih =>
    have hfirst := keeps_tableReference hR hplain hq h
    rw [Query.tableReferences_eq q, Query.tableReferences_eq q']
    cases hs : q.tableReference ts with
    | error e => exact .error e
    | ok x =>
      obtain ⟨⟨table', rest'⟩, hs', htable, hrest⟩ := hfirst x hs
      obtain ⟨table, rest⟩ := x
      have hshorter := Query.tableReference_length hs
      rw [hs']
      cases rest with
      | nil =>
        obtain rfl : rest' = [] := hrest.eq_nil
        exact keeps_atEnd hq ⟨forall₂_toList htable, hrest⟩
      | cons t rest =>
        obtain ⟨t', us', rfl, ht⟩ := hrest.exists_cons
        dsimp only
        rw [hR.isSymbol_eq ht]
        refine .ite (fun hcomma => ?_) fun _ => .ok ⟨forall₂_toList htable, hrest⟩
        have hlater := hR.resumes hrest.toRest (by simp_all [Token.isSymbol])
        refine (ih _ ?_ hlater rfl).map fun _ _ hx =>
          ⟨List.rel_append (forall₂_toList htable) hx.1, hx.2⟩
        simp only [List.length_cons] at hshorter
        omega

/-- A step along the clauses goes on behind a qualified token, whatever that spells. -/
theorem keeps_clauseStep (h : R.Continues ts ts')
    (hscanned : ∀ us, q.skipAllBraces ts = .ok (R.old :: us) → R.IsScanned) :
    Keeps (Option.Rel fun x x' => List.Forall₂ R.Declares x.1 x'.1 ∧ R.Continues x.2 x'.2)
      (q.clauseStep ts) (q'.clauseStep ts') := by
  refine (keeps_skipBraces hR hq (fun _ _ h => h.toContinues) _ false h.toRest fun _ => h).bind ?_
  intro us us' hskip hus
  cases us with
  | nil =>
    obtain rfl := hus.eq_nil
    exact .ok .none
  | cons t us =>
    obtain ⟨t', us', rfl, ht⟩ := hus.exists_cons
    cases ht with
    | word =>
      have hrest := hR.resumes hus.toRest (by simp [hR.old_isSymbol])
      have hquiet : R.IsQuiet := by
        rcases hus.place [] us rfl with (hquiet | hnot) | hqualified
        · exact hquiet
        · exact absurd (hscanned us hskip) hnot
        · cases hqualified
      have hold : R.old.kind ≠ .keyword .FROM ∧ R.old.kind ≠ .keyword .JOIN :=
        hquiet R.kind (by simp)
      have hnew : R.new.kind ≠ .keyword .FROM ∧ R.new.kind ≠ .keyword .JOIN :=
        hquiet R.kind' (by simp)
      dsimp only
      split
      · exact absurd ‹_› (Token.kind_ne (hR.old_isSymbol _))
      · exact absurd ‹_› (Token.kind_ne (hR.old_isSymbol _))
      · exact absurd ‹_› hold.1
      · exact absurd ‹_› hold.2
      · split
        · exact absurd ‹_› (Token.kind_ne (hR.new_isSymbol _))
        · exact absurd ‹_› (Token.kind_ne (hR.new_isSymbol _))
        · exact absurd ‹_› hnew.1
        · exact absurd ‹_› hnew.2
        · exact .ok (.some ⟨.nil, hrest.toContinues⟩)
    | alike hold hkind =>
      simp only [← hkind]
      split
      · rename_i hdot
        cases us with
        | nil =>
          obtain rfl : us' = [] := hus.tail.2.eq_nil
          exact keeps_atEnd hq .none
        | cons u us =>
          obtain ⟨u', us', rfl, -⟩ := hus.tail.2.exists_cons
          refine .ok (.some ⟨.nil, hus.tail.2.tail.2, fun vs ws hvs => ?_⟩)
          obtain rfl : us = vs ++ R.old :: ws := hvs
          have hplace := hus.place (t :: u :: vs) ws rfl
          simpa [Query.isQualified, Token.isSymbol, hdot] using hplace
      · refine (keeps_skipGroup hR hq hus.tail.2).bind fun vs vs' _ hvs => ?_
        exact .ok (.some ⟨.nil, hvs.toContinues⟩)
      · rename_i hfrom
        have hrest := hR.resumes hus.toRest (by simp [Token.isSymbol, hfrom])
        refine (keeps_tableReferences hR hplain hq hrest).bind fun x x' _ hx => ?_
        exact .ok (.some ⟨hx.1, hx.2.toContinues⟩)
      · rename_i hjoin
        have hrest := hR.resumes hus.toRest (by simp [Token.isSymbol, hjoin])
        refine (keeps_tableReference hR hplain hq hrest).bind ?_
        rintro ⟨table, vs⟩ ⟨table', vs'⟩ - ⟨htable, hvs⟩
        exact .ok (.some ⟨forall₂_toList htable, hvs.toContinues⟩)
      · rename_i hdot _ _ _
        have hrest := hR.resumes hus.toRest fun hs => hdot (eq_of_beq hs)
        exact .ok (.some ⟨.nil, hrest.toContinues⟩)

theorem keeps_clauseTables (h : R.Continues ts ts')
    (hscanned : ∀ us vs, Relation.ReflTransGen q.Scans ts us →
      q.skipAllBraces us = .ok (R.old :: vs) → R.IsScanned) :
    Keeps (List.Forall₂ R.Declares) (q.clauseTables ts) (q'.clauseTables ts') := by
  induction hn : ts.length using Nat.strongRecOn generalizing ts ts' with
  | ind n ih =>
    have hstep := keeps_clauseStep hR hplain hq h (hscanned ts · .refl)
    rw [Query.clauseTables_eq q, Query.clauseTables_eq q']
    cases hs : q.clauseStep ts with
    | error e => exact .error e
    | ok x =>
      obtain ⟨x', hs', hx⟩ := hstep x hs
      rw [hs']
      cases hx with
      | none => exact .ok .nil
      | some hx =>
        refine (ih _ (hn ▸ Query.clauseStep_length hs) hx.2 (fun us vs hus => ?_) rfl).map
          fun _ _ hlater => List.rel_append hx.1 hlater
        exact hscanned us vs (.head ⟨_, hs⟩ hus)

theorem keeps_tableList (h : R.Continues ts ts')
    (hscanned : ∀ us vs, Relation.ReflTransGen q.Scans ts us →
      q.skipAllBraces us = .ok (R.old :: vs) → R.IsScanned) :
    Keeps (List.Forall₂ R.Declares) (q.tableList ts) (q'.tableList ts') := by
  refine (keeps_clauseTables hR hplain hq h hscanned).bind fun tables tables' _ htables => ?_
  have hempty : tables'.isEmpty = tables.isEmpty := by cases htables <;> rfl
  rw [hempty]
  exact .ite (fun _ => .error _) fun _ => .ok htables

end Readers

end Rewording

end QueryTemplate
