import QueryTemplate.Proofs.Outcome
import QueryTemplate.Proofs.Query.Renaming

/-! # Placeholders are opaque

What a query selects does not depend on the name of a placeholder in it. Every reader passes over a
placeholder as a whole, or takes its text for a verbatim name, except that a call takes the name in
a placeholder for a column: that field, and no other one, is named after the placeholder.
-/

namespace QueryTemplate

namespace Renaming

/-! ## What is read -/

/-- The same tokens, with the placeholder among them or without it. -/
def Rest (R : Renaming) (ts ts' : List Token) : Prop := ∃ ahead, R.Reads ahead ts ts'

/-- Related values, in front of the same tokens. -/
def Leaves {α : Type} (R : Renaming) (r : α → α → Prop) (x x' : α × List Token) : Prop :=
  r x.1 x'.1 ∧ R.Rest x.2 x'.2

/-- The texts with the two names, and alike faults behind their last tokens. Both names could name
columns. -/
structure Queries (R : Renaming) (q q' : Query) : Prop where
  name : Query.isColumnName R.name
  name' : Query.isColumnName R.name'
  source : q.source = .ofText (R.write R.name)
  source' : q'.source = .ofText (R.write R.name')
  fault : Aligned R.places q.fault q'.fault

/-- The same alias is written behind things called `own` and `own'`, or none. Written like what it
stands behind, it is no alias: that happens to one of the two only if they are called differently,
as the texts of the placeholder are. -/
def Aliases (own own' : Text) (a a' : Option Text) : Prop :=
  ∃ written : Option Text, a = written.filter (· ≠ own) ∧ a' = written.filter (· ≠ own')

def SameQualifier (f f' : QueryField) : Prop := f.table = f'.table

/-- The fields are the same, but for their places and for the placeholder in the text of a verbatim
one. How they belong to tables is related by `belongs`. -/
structure Unchanged (R : Renaming) (belongs : QueryField → QueryField → Prop)
    (f f' : QueryField) : Prop where
  table : belongs f f'
  name : R.Rewrites f.name f'.name
  column : f.isVerbatim = false → f.name = f'.name
  aliasName : Aliases f.name f'.name f.aliasName f'.aliasName
  isAggregate : f.isAggregate = f'.isAggregate
  isVerbatim : f.isVerbatim = f'.isVerbatim

/-- The field is a column that is named after the placeholder of the given name and is written as a
call around it. -/
structure Encloses (R : Renaming) (n : Text) (f : QueryField) : Prop where
  name : f.name = n
  isAggregate : f.isAggregate = false
  isVerbatim : f.isVerbatim = false
  start : f.span.start < Text.size R.before
  stop : R.stop n < f.span.stop

/-- A call around the placeholder is named after it, with either name. -/
structure Called (R : Renaming) (belongs : QueryField → QueryField → Prop)
    (f f' : QueryField) : Prop where
  table : belongs f f'
  field : R.Encloses R.name f
  field' : R.Encloses R.name' f'
  aliasName : Aliases R.name R.name' f.aliasName f'.aliasName

/-- The fields are the same, or given by a call around the placeholder. -/
def Fields (R : Renaming) (belongs : QueryField → QueryField → Prop) (f f' : QueryField) : Prop :=
  R.Unchanged belongs f f' ∨ R.Called belongs f f'

/-- The tables are the same, but for their places and for the placeholder in the text of a verbatim
one. -/
structure Tables (R : Renaming) (t t' : QueryTable) : Prop where
  name : R.Rewrites t.name t'.name
  named : t.isVerbatim = false → t.name = t'.name
  aliasName : Aliases t.name t'.name t.aliasName t'.aliasName
  isVerbatim : t.isVerbatim = t'.isVerbatim

variable {R : Renaming}

theorem Aliases.unnamed (own own' : Text) : Aliases own own' none none := ⟨none, rfl, rfl⟩

/-! ## The tokens of the placeholder -/

@[simp] theorem kind_opening : R.opening.kind = .symbol R.sort.opener := rfl

@[simp] theorem kind_inner (n : Text) : (R.inner n).kind = .word := rfl

theorem isSymbol_opening {s : Symbol} (hs : s.opensBrace = false) :
    R.opening.isSymbol s = false := by
  rw [Token.isSymbol, kind_opening, beq_eq_false_iff_ne]
  rintro heq
  cases heq
  cases hsort : R.sort <;> rw [hsort] at hs <;> cases hs

end Renaming

namespace Query

open Renaming

variable {R : Renaming} (q : Query) (n : Text) (ts : List Token)

theorem closingBrace?_placeholder :
    closingBrace? (R.inner n :: R.closing n :: ts) = some ((R.closing n).span, ts) := rfl

theorem closingBrace?_opening :
    closingBrace? (R.opening :: R.inner n :: R.closing n :: ts) =
      some ((R.closing n).span, ts) := by
  obtain ⟨_, sort, _, _, _⟩ := R
  cases sort <;> rfl

theorem closingParen?_placeholder (depth : Nat) :
    closingParen? depth (R.opening :: R.inner n :: R.closing n :: ts) = closingParen? depth ts := by
  obtain ⟨_, sort, _, _, _⟩ := R
  cases sort <;> rfl

theorem skipBraces_placeholder (skipped : Symbol → Bool) :
    q.skipBraces skipped false (R.opening :: R.inner n :: R.closing n :: ts) =
      if skipped R.sort.opener then q.skipBraces skipped false ts
      else .ok (R.opening :: R.inner n :: R.closing n :: ts) := by
  obtain ⟨_, sort, _, _, _⟩ := R
  cases sort <;> rfl

theorem skipBraces_inside_placeholder (skipped : Symbol → Bool) :
    q.skipBraces skipped true (R.opening :: R.inner n :: R.closing n :: ts) =
      q.skipBraces skipped false ts := by
  obtain ⟨_, sort, _, _, _⟩ := R
  cases sort <;> rfl

/-- What is passed over behind a placeholder. -/
def Passing.behindBraces : Passing → Passing
  | braces => item
  | passing => passing

theorem itemEnd_placeholder (passing : Passing) :
    q.itemEnd passing (R.opening :: R.inner n :: R.closing n :: ts) =
      q.itemEnd passing.behindBraces ts := by
  obtain ⟨_, sort, _, _, _⟩ := R
  cases sort <;> cases passing <;> rfl

theorem columnInCall_placeholder (function : Token) (depth : Nat) (hn : isColumnName n) :
    q.columnInCall function depth (R.opening :: R.inner n :: R.closing n :: ts) =
      (q.groupEnd depth ts).map fun x =>
        ({ QueryField.column n (R.inner n).span with span := function.span.merge x.1 }, x.2) := by
  have hopening : q.columnInCall function depth (R.opening :: R.inner n :: R.closing n :: ts) =
      q.columnInCall function depth (R.inner n :: R.closing n :: ts) := by
    obtain ⟨_, sort, _, _, _⟩ := R
    cases sort <;> rfl
  have hcolumn : q.columnAt (R.inner n) (R.closing n :: ts) =
      .ok (.column n (R.inner n).span, R.closing n :: ts) := rfl
  have hend : q.groupEnd depth (R.closing n :: ts) = q.groupEnd depth ts := rfl
  have hopen : isColumnName (R.inner n).lexeme &&
      !(R.closing n :: ts).head?.any (·.isSymbol .openParen) := by
    rw [Bool.and_eq_true]
    exact ⟨hn, rfl⟩
  rw [hopening, columnInCall.eq_def]
  simp only [kind_inner, if_pos hopen, hcolumn, bind, Except.bind, hend]
  cases q.groupEnd depth ts <;> rfl

/-! ## Readers -/

section

variable {q q' : Query} (hq : R.Queries q q')
include hq

theorem agree_atEnd {α : Type} {r : α → α → Prop} {x x' : α} (h : r x x') :
    Except.Agree r (q.atEnd x) (q'.atEnd x') := by
  have hfault := hq.fault
  unfold atEnd
  generalize q.fault = fault, q'.fault = fault' at hfault
  cases hfault with
  | none => exact .ok h
  | some _ => exact .error trivial

variable {ahead : Bool} {ts ts' : List Token} (hts : R.Reads ahead ts ts')
include hts

omit hq in
theorem head?_isSymbol (s : Symbol) :
    ts.head?.any (·.isSymbol s) = ts'.head?.any (·.isSymbol s) := by
  cases hts with
  | nil => rfl
  | cons ht _ => exact ht.alike.isSymbol s
  | placeholder _ => rfl

omit hq in
theorem agree_next (expected : Expectation) :
    Except.Agree (fun x x' => R.Reads ahead (x.1 :: x.2) (x'.1 :: x'.2)) (q.next expected ts)
      (q'.next expected ts') := by
  cases hts with
  | nil => exact .error trivial
  | cons ht hrest => exact .ok (.cons ht hrest)
  | placeholder hrest => exact .ok (.placeholder hrest)

theorem agree_nextIs (s : Symbol) : Except.Agree Eq (q.nextIs s ts) (q'.nextIs s ts') := by
  cases hts with
  | nil => exact agree_atEnd hq rfl
  | cons ht _ => exact .ok (ht.alike.isSymbol s)
  | placeholder _ => exact .ok rfl

omit hq in
theorem agree_symbol {s : Symbol} (hs : s.opensBrace = false) :
    Except.Agree (fun x x' => R.Reads ahead x.2 x'.2) (q.symbol s ts) (q'.symbol s ts') := by
  cases hts with
  | nil => exact .error trivial
  | cons ht hrest =>
    simp only [symbol, ht.alike.isSymbol]
    exact .ite (fun _ => .ok hrest) fun _ => .error trivial
  | placeholder _ =>
    simp only [symbol, isSymbol_opening hs]
    exact .error trivial

/-- The closers are at matching places, or those of the placeholder. -/
def Closes (R : Renaming) (ahead : Bool) (s s' : Span) : Prop :=
  Aligned R.places s s' ∨
    ahead ∧ s = (R.closing R.name).span ∧ s' = (R.closing R.name').span

omit hq in
theorem rel_closingBrace? : Option.Rel (fun x x' => Closes R ahead x.1 x'.1 ∧ R.Rest x.2 x'.2)
    (closingBrace? ts) (closingBrace? ts') := by
  induction hts with
  | nil => exact .none
  | cons ht hrest ih =>
    simp only [closingBrace?, ht.alike.isSymbol]
    split
    · exact .some ⟨.inl ht.alike.span, _, hrest⟩
    · exact ih
  | placeholder hrest =>
    rw [closingBrace?_opening, closingBrace?_opening]
    exact .some ⟨.inr ⟨rfl, rfl, rfl⟩, _, hrest⟩

omit hts in
theorem agree_braces {t t' : Token} (h : R.Reads ahead (t :: ts) (t' :: ts')) :
    Except.Agree (R.Leaves fun x x' => R.Rewrites x.1 x'.1) (q.braces t ts) (q'.braces t' ts') := by
  have hslice {s s' : Span} (hs : Aligned R.places s s') :
      R.Rewrites (q.source.slice s) (q'.source.slice s') := by
    rw [hq.source, hq.source']
    exact rewrites_slice hs
  cases h with
  | cons ht hrest =>
    have hclosing := rel_closingBrace? hrest
    unfold braces
    generalize closingBrace? ts = found, closingBrace? ts' = found' at hclosing
    cases hclosing with
    | none => exact .error trivial
    | @some x x' h =>
      obtain ⟨stop, us⟩ := x
      obtain ⟨stop', us'⟩ := x'
      obtain ⟨hcloses, hus⟩ : Closes R ahead stop stop' ∧ R.Rest us us' := h
      refine .ok ⟨?_, hus⟩
      rcases hcloses with hspan | ⟨hahead, rfl, rfl⟩
      · exact hslice (ht.alike.span.merge hspan)
      · obtain ⟨rfl, hstart, hstop⟩ := ht.before hahead
        have hlt (n : Text) : t.span.stop ≤ R.stop n :=
          hstop.trans (Nat.le_of_lt (R.size_before_lt_stop n))
        rw [merge_closing hstart.le (hlt _), merge_closing hstart.le (hlt _)]
        exact hslice ⟨ht.alike.span.start, R.matches_stop⟩
  | placeholder hrest =>
    have hlt (n : Text) : R.opening.span.stop ≤ R.stop n := by
      simp only [opening, stop, Placeholder.text, Text.size_append]
      omega
    simp only [braces, closingBrace?_placeholder]
    rw [merge_closing (Nat.le_refl _) (hlt _), merge_closing (Nat.le_refl _) (hlt _)]
    exact .ok ⟨hslice ⟨R.matches_before, R.matches_stop⟩, _, hrest⟩

theorem agree_skipBraces (skipped : Symbol → Bool) (inside : Bool) :
    Except.Agree R.Rest (q.skipBraces skipped inside ts) (q'.skipBraces skipped inside ts') := by
  induction hts generalizing inside with
  | nil =>
    cases inside with
    | false => exact agree_atEnd hq ⟨_, .nil⟩
    | true => exact .error trivial
  | cons ht hrest ih =>
    cases inside with
    | true =>
      simp only [skipBraces, ht.alike.isSymbol]
      exact ih _
    | false =>
      simp only [skipBraces, ht.alike.kind]
      split
      · exact .ite (fun _ => ih _) fun _ => .ok ⟨_, .cons ht hrest⟩
      · exact .ok ⟨_, .cons ht hrest⟩
  | placeholder hrest ih =>
    cases inside with
    | true =>
      rw [skipBraces_inside_placeholder, skipBraces_inside_placeholder]
      exact ih _
    | false =>
      rw [skipBraces_placeholder, skipBraces_placeholder]
      exact .ite (fun _ => ih _) fun _ => .ok ⟨_, .placeholder hrest⟩

/-- The ends are behind the placeholder if that is not ahead. -/
def Ends (R : Renaming) (ahead : Bool) (s s' : Span) : Prop :=
  ¬ahead → R.stop R.name < s.stop ∧ R.stop R.name' < s'.stop

omit hq in
theorem rel_closingParen? (depth : Nat) :
    Option.Rel (R.Leaves (Ends R ahead)) (closingParen? depth ts) (closingParen? depth ts') := by
  induction hts generalizing depth with
  | nil => exact .none
  | cons ht hrest ih =>
    simp only [closingParen?, ht.alike.kind]
    split
    · exact ih _
    · cases depth with
      | zero => exact .some ⟨ht.behind, _, hrest⟩
      | succ depth => exact ih _
    · exact ih _
  | @placeholder us us' hrest ih =>
    rw [closingParen?_placeholder, closingParen?_placeholder]
    have hrel := ih depth
    generalize closingParen? depth us = found, closingParen? depth us' = found' at hrel
    cases hrel with
    | none => exact .none
    | some h => exact .some ⟨fun h => absurd rfl h, h.2⟩

omit hq in
theorem agree_groupEnd (depth : Nat) :
    Except.Agree (R.Leaves (Ends R ahead)) (q.groupEnd depth ts) (q'.groupEnd depth ts') := by
  have hclosing := rel_closingParen? hts depth
  unfold groupEnd
  generalize closingParen? depth ts = found, closingParen? depth ts' = found' at hclosing
  cases hclosing with
  | none => exact .error trivial
  | some h => exact .ok h

theorem agree_skipGroup : Except.Agree R.Rest (q.skipGroup ts) (q'.skipGroup ts') := by
  have hclosing := rel_closingParen? hts 0
  unfold skipGroup
  generalize closingParen? 0 ts = found, closingParen? 0 ts' = found' at hclosing
  cases hclosing with
  | none => exact agree_atEnd hq ⟨_, .nil⟩
  | some h => exact .ok h.2

theorem agree_bareAlias (own own' : Text) :
    Except.Agree (R.Leaves (Aliases own own')) (q.bareAlias own ts) (q'.bareAlias own' ts') := by
  cases hts with
  | nil => exact agree_atEnd hq ⟨.unnamed own own', _, .nil⟩
  | @cons _ t t' _ _ ht hrest =>
    simp only [bareAlias, ← ht.alike.name?]
    cases t.name? with
    | none => exact .ok ⟨.unnamed own own', _, .cons ht hrest⟩
    | some name =>
      refine .ok ⟨⟨some name, ?_, ?_⟩, _, hrest⟩
      · by_cases h : name = own <;> simp [Option.filter, h]
      · by_cases h : name = own' <;> simp [Option.filter, h]
  | placeholder hrest =>
    exact .ok ⟨.unnamed own own', _, .placeholder hrest⟩

theorem agree_aliasOf (own own' : Text) :
    Except.Agree (R.Leaves (Aliases own own')) (q.aliasOf own ts) (q'.aliasOf own' ts') := by
  cases hts with
  | nil => exact agree_bareAlias hq .nil own own'
  | cons ht hrest =>
    simp only [aliasOf, ht.alike.isKeyword]
    exact .ite (fun _ => agree_bareAlias hq hrest own own')
      fun _ => agree_bareAlias hq (.cons ht hrest) own own'
  | placeholder hrest => exact agree_bareAlias hq (.placeholder hrest) own own'

/-! ## The select list -/

theorem agree_qualifiedColumn {front : Bool} {t t' : Token} (ht : R.Beside front t t') :
    Except.Agree (R.Leaves (R.Unchanged SameQualifier)) (q.qualifiedColumn t ts)
      (q'.qualifiedColumn t' ts') := by
  have hqualifier : some t.label = some t'.label := congrArg some ht.alike.label
  have hverbatim (x x' : (Text × Span) × List Token)
      (h : R.Leaves (fun x x' => R.Rewrites x.1 x'.1) x x') :
      R.Leaves (R.Unchanged SameQualifier)
        ({ QueryField.verbatim x.1.1 x.1.2 with
          table := some t.label, span := t.span.merge x.1.2 }, x.2)
        ({ QueryField.verbatim x'.1.1 x'.1.2 with
          table := some t'.label, span := t'.span.merge x'.1.2 }, x'.2) :=
    ⟨⟨hqualifier, h.1, fun h => (by cases h), .unnamed .., rfl, rfl⟩, h.2⟩
  cases hts with
  | nil => exact .error trivial
  | cons hc hrest =>
    simp only [qualifiedColumn, next, bind, Except.bind, hc.alike.kind]
    split
    · exact .ok ⟨⟨hqualifier, .refl _, fun _ => rfl, .unnamed .., rfl, rfl⟩, _, hrest⟩
    · exact .ite (fun _ => (agree_braces hq (.cons hc hrest)).map hverbatim) fun _ => .error trivial
    · rw [hc.alike.label]
      exact .ok ⟨⟨hqualifier, .refl _, fun _ => rfl, .unnamed .., rfl, rfl⟩, _, hrest⟩
  | placeholder hrest =>
    have hbraces := agree_braces hq (.placeholder hrest)
    obtain ⟨_, sort, _, _, _⟩ := R
    cases sort <;> exact hbraces.map hverbatim

theorem agree_columnAt {front : Bool} {t t' : Token} (ht : R.Beside front t t') :
    Except.Agree (R.Leaves (R.Unchanged SameQualifier)) (q.columnAt t ts) (q'.columnAt t' ts') := by
  have hcolumn : R.Unchanged SameQualifier (.column t.label t.span) (.column t'.label t'.span) := by
    rw [ht.alike.label]
    exact ⟨rfl, .refl _, fun _ => rfl, .unnamed .., rfl, rfl⟩
  cases hts with
  | nil => exact agree_atEnd hq ⟨hcolumn, _, .nil⟩
  | cons hu hrest =>
    simp only [columnAt, hu.alike.isSymbol]
    exact .ite (fun _ => agree_qualifiedColumn hq hrest ht)
      fun _ => .ok ⟨hcolumn, _, .cons hu hrest⟩
  | placeholder hrest =>
    simp only [columnAt, isSymbol_opening (s := .dot) rfl]
    exact .ok ⟨hcolumn, _, .placeholder hrest⟩

/-- A call around the placeholder may take the name in it for a column. -/
theorem agree_columnInCall {t t' : Token} (depth : Nat)
    (ht : ahead → t.span.start < Text.size R.before ∧ t'.span.start < Text.size R.before) :
    Except.Agree (R.Leaves (R.Fields SameQualifier)) (q.columnInCall t depth ts)
      (q'.columnInCall t' depth ts') := by
  induction hts generalizing depth with
  | nil => exact .error trivial
  | cons hu hrest ih =>
    have hopen := head?_isSymbol hrest .openParen
    simp only [columnInCall, hu.alike.kind, hu.alike.lexeme, hopen]
    split
    · exact ih depth.succ ht
    · cases depth with
      | zero => exact .error trivial
      | succ depth => exact ih depth ht
    · refine .ite (fun _ => ?_) fun _ => ih depth ht
      apply (agree_columnAt hq hrest hu).bind
      rintro ⟨f, _⟩ ⟨f', _⟩ ⟨hf, _, hafter⟩
      apply (agree_groupEnd hafter depth).bind
      rintro _ _ ⟨-, hlast⟩
      exact .ok ⟨.inl ⟨hf.table, hf.name, hf.column, hf.aliasName, hf.isAggregate,
        hf.isVerbatim⟩, hlast⟩
    · exact ih depth ht
  | placeholder hrest =>
    obtain ⟨hstart, hstart'⟩ := ht rfl
    rw [columnInCall_placeholder q _ _ _ _ hq.name, columnInCall_placeholder q' _ _ _ _ hq.name']
    refine (agree_groupEnd hrest depth).map ?_
    rintro ⟨stop, _⟩ ⟨stop', _⟩ ⟨hends, hlast⟩
    obtain ⟨hstop, hstop'⟩ := hends Bool.false_ne_true
    refine ⟨.inr ⟨rfl, ⟨rfl, rfl, rfl, ?_, ?_⟩, ⟨rfl, rfl, rfl, ?_, ?_⟩,
      .unnamed R.name R.name'⟩, hlast⟩
    · exact Nat.lt_of_le_of_lt (Nat.min_le_left ..) hstart
    · exact Nat.lt_of_lt_of_le hstop (Nat.le_max_right ..)
    · exact Nat.lt_of_le_of_lt (Nat.min_le_left ..) hstart'
    · exact Nat.lt_of_lt_of_le hstop' (Nat.le_max_right ..)

theorem agree_call {t t' : Token} (ht : R.Beside ahead t t') :
    Except.Agree (R.Leaves (R.Fields SameQualifier)) (q.call t ts) (q'.call t' ts') := by
  refine (agree_symbol hts rfl).bind fun _ _ hrest =>
    agree_columnInCall hq hrest 0 fun hahead => ?_
  obtain ⟨rfl, hstart, -⟩ := ht.before hahead
  exact ⟨hstart, hstart⟩

omit hq in
theorem agree_countOf (t t' : Token) : Except.Agree (R.Leaves (R.Unchanged SameQualifier))
    (q.countOf t ts) (q'.countOf t' ts') := by
  refine (agree_symbol hts rfl).bind fun _ _ hrest => ?_
  apply (agree_groupEnd hrest 0).bind
  rintro _ _ ⟨-, hlast⟩
  exact .ok ⟨⟨rfl, .refl _, fun _ => rfl, .unnamed .., rfl, rfl⟩, hlast⟩

omit hts in
theorem agree_fieldAt {t t' : Token} (h : R.Reads ahead (t :: ts) (t' :: ts')) :
    Except.Agree (R.Leaves (R.Fields SameQualifier)) (q.fieldAt t ts) (q'.fieldAt t' ts') := by
  have hverbatim (x x' : (Text × Span) × List Token)
      (h : R.Leaves (fun x x' => R.Rewrites x.1 x'.1) x x') :
      R.Leaves (R.Fields SameQualifier) (.verbatim x.1.1 x.1.2, x.2)
        (.verbatim x'.1.1 x'.1.2, x'.2) :=
    ⟨.inl ⟨rfl, h.1, fun h => (by cases h), .unnamed .., rfl, rfl⟩, h.2⟩
  have hbraces := agree_braces hq h
  cases h with
  | cons ht hrest =>
    have hcolumn : Except.Agree (R.Leaves (R.Fields SameQualifier)) (q.columnAt t ts)
        (q'.columnAt t' ts') := by
      refine (agree_columnAt hq hrest ht).mono ?_
      exact fun _ _ h => ⟨.inl h.1, h.2⟩
    have hcount : Except.Agree (R.Leaves (R.Fields SameQualifier)) (q.countOf t ts)
        (q'.countOf t' ts') := by
      refine (agree_countOf hrest t t').mono ?_
      exact fun _ _ h => ⟨.inl h.1, h.2⟩
    have hcall := agree_call hq hrest ht
    unfold fieldAt
    rw [ht.alike.kind, ht.alike.lexeme]
    split
    · refine (agree_nextIs hq hrest _).bind fun b b' hb => ?_
      subst hb
      exact .ite (fun _ => hcall) fun _ => hcolumn
    · refine (agree_nextIs hq hrest _).bind fun b b' hb => ?_
      subst hb
      exact .ite (fun _ => hcount) fun _ => hcolumn
    · exact .ok ⟨.inl ⟨rfl, .refl _, fun _ => rfl, .unnamed .., rfl, rfl⟩, _, hrest⟩
    · exact .ite (fun _ => hbraces.map hverbatim) fun _ => .error trivial
    · refine .ite (fun _ => .ok ?_) fun _ => ?_
      · exact ⟨.inl ⟨rfl, .refl _, fun _ => rfl, .unnamed .., rfl, rfl⟩, _, hrest⟩
      · refine (agree_nextIs hq hrest _).bind fun b b' hb => ?_
        subst hb
        exact .ite (fun _ => hcall) fun _ => hcolumn
    · exact hcolumn
    · exact .error trivial
  | placeholder hrest =>
    obtain ⟨_, sort, _, _, _⟩ := R
    cases sort <;> exact hbraces.map hverbatim

omit hts in
theorem agree_field {t t' : Token} (h : R.Reads ahead (t :: ts) (t' :: ts')) :
    Except.Agree (R.Leaves (R.Fields SameQualifier)) (q.field t ts) (q'.field t' ts') := by
  apply (agree_fieldAt hq h).bind
  rintro ⟨f, _⟩ ⟨f', _⟩ ⟨hf, _, hrest⟩
  apply (agree_aliasOf hq hrest f.name f'.name).bind
  rintro ⟨a, _⟩ ⟨a', _⟩ ⟨ha, hafter⟩
  refine .ok ⟨?_, hafter⟩
  rcases hf with hf | hf
  · exact .inl ⟨hf.table, hf.name, hf.column, ha, hf.isAggregate, hf.isVerbatim⟩
  · have ha : Aliases R.name R.name' a a' := hf.field.name ▸ hf.field'.name ▸ ha
    exact .inr ⟨hf.table, ⟨hf.field.name, hf.field.isAggregate, hf.field.isVerbatim,
      hf.field.start, hf.field.stop⟩, ⟨hf.field'.name, hf.field'.isAggregate,
      hf.field'.isVerbatim, hf.field'.start, hf.field'.stop⟩, ha⟩

theorem agree_itemEnd (passing : Passing) :
    Except.Agree R.Rest (q.itemEnd passing ts) (q'.itemEnd passing ts') := by
  induction hts generalizing passing with
  | nil =>
    cases passing with
    | item => exact agree_atEnd hq ⟨_, .nil⟩
    | braces => exact .error trivial
    | group depth => exact .error trivial
  | cons ht hrest ih =>
    cases passing with
    | item =>
      simp only [itemEnd, ht.alike.kind]
      split
      · exact .ok ⟨_, .cons ht hrest⟩
      · exact .ok ⟨_, .cons ht hrest⟩
      · exact ih _
      · exact ih _
      · exact ih _
    | braces =>
      simp only [itemEnd, ht.alike.isSymbol]
      exact ih _
    | group depth =>
      simp only [itemEnd, ht.alike.kind]
      split
      · exact ih _
      · cases depth with
        | zero => exact ih _
        | succ depth => exact ih _
      · exact ih _
  | placeholder hrest ih =>
    rw [itemEnd_placeholder, itemEnd_placeholder]
    exact ih _

theorem agree_skipQuantifier :
    Except.Agree R.Rest (q.skipQuantifier ts) (q'.skipQuantifier ts') := by
  have hquantifier {ahead : Bool} {t t' : Token} (ht : R.Beside ahead t t') :
      isQuantifier t = isQuantifier t' := by
    rw [isQuantifier, isQuantifier, ht.alike.kind, ht.alike.lexeme]
  cases hts with
  | nil => exact agree_atEnd hq ⟨_, .nil⟩
  | cons ht hrest =>
    cases hrest with
    | nil =>
      simp only [skipQuantifier, hquantifier ht]
      exact .ite (fun _ => agree_atEnd hq ⟨_, .cons ht .nil⟩) fun _ => .ok ⟨_, .cons ht .nil⟩
    | cons hu hrest =>
      simp only [skipQuantifier, hquantifier ht, hu.alike.isSymbol, hu.alike.isKeyword]
      refine .ok ?_
      split
      · exact ⟨_, .cons hu hrest⟩
      · exact ⟨_, .cons ht (.cons hu hrest)⟩
    | placeholder hrest =>
      simp only [skipQuantifier, hquantifier ht]
      refine .ok ?_
      split
      · exact ⟨_, .placeholder hrest⟩
      · exact ⟨_, .cons ht (.placeholder hrest)⟩
  | placeholder hrest =>
    exact .ok ⟨_, .placeholder hrest⟩

inductive SelectStep.Agree (R : Renaming) : SelectStep → SelectStep → Prop where
  | item {f f' : Option QueryField} {rest rest' : List Token} :
    Option.Rel (R.Fields SameQualifier) f f' → R.Rest rest rest' →
      SelectStep.Agree R (.item f rest) (.item f' rest')
  | done {clauses clauses' : List Token} : R.Rest clauses clauses' →
    SelectStep.Agree R (.done clauses) (.done clauses')

theorem agree_selectStep :
    Except.Agree (SelectStep.Agree R) (q.selectStep ts) (q'.selectStep ts') := by
  refine (agree_skipBraces hq hts _ _).bind fun us us' ⟨ahead, hus⟩ => ?_
  have hitem {t t' : Token} {rest rest' : List Token}
      (h : R.Reads ahead (t :: rest) (t' :: rest')) :
      Except.Agree (SelectStep.Agree R)
        (q.field t rest >>= fun x => q.itemEnd .item x.2 >>= fun after =>
          pure (.item (some x.1) after))
        (q'.field t' rest' >>= fun x => q'.itemEnd .item x.2 >>= fun after =>
          pure (.item (some x.1) after)) := by
    apply (agree_field hq h).bind
    rintro _ _ ⟨hf, _, hafter⟩
    refine (agree_itemEnd hq hafter _).bind fun _ _ hend => ?_
    exact .ok (.item (.some hf) hend)
  cases hus with
  | nil => exact .error trivial
  | cons ht hrest =>
    simp only [ht.alike.isKeyword, ht.alike.isSymbol]
    refine .ite (fun _ => .ok (.done ⟨_, .cons ht hrest⟩)) fun _ => ?_
    refine .ite (fun _ => .ok (.item .none ⟨_, hrest⟩)) fun _ => ?_
    exact hitem (.cons ht hrest)
  | placeholder hrest =>
    have hread := hitem (.placeholder hrest)
    obtain ⟨_, sort, _, _, _⟩ := R
    cases sort <;> exact hread

theorem agree_selectItems :
    Except.Agree (R.Leaves (List.Forall₂ (R.Fields SameQualifier))) (q.selectItems ts)
      (q'.selectItems ts') := by
  induction hn : ts.length using Nat.strongRecOn generalizing ahead ts ts' with
  | ind n ih =>
    have hstep := agree_selectStep hq hts
    rw [selectItems_eq q, selectItems_eq q']
    generalize hs : q.selectStep ts = step, q'.selectStep ts' = step' at hstep
    cases hstep with
    | error => exact .error trivial
    | ok h =>
      cases h with
      | done h => exact .ok ⟨.nil, h⟩
      | item hf hrest =>
        obtain ⟨_, hrest⟩ := hrest
        refine (ih _ (hn ▸ selectStep_length hs) hrest rfl).map ?_
        rintro ⟨fields, _⟩ ⟨fields', _⟩ ⟨hfields, hclauses⟩
        refine ⟨?_, hclauses⟩
        cases hf with
        | none => exact hfields
        | some hf => exact .cons hf hfields

theorem agree_selectList :
    Except.Agree (R.Leaves (List.Forall₂ (R.Fields SameQualifier))) (q.selectList ts)
      (q'.selectList ts') := by
  apply (agree_next hts .select).bind
  rintro ⟨select, rest⟩ ⟨select', rest'⟩ h
  cases h with
  | cons ht hrest =>
    dsimp only
    rw [ht.alike.isKeyword]
    refine .ite (fun _ => .error trivial) fun _ => ?_
    refine (agree_skipQuantifier hq hrest).bind fun _ _ ⟨_, hafter⟩ => ?_
    apply (agree_selectItems hq hafter).bind
    rintro ⟨fields, _⟩ ⟨fields', _⟩ ⟨hfields, hclauses⟩
    have hempty : fields.isEmpty = fields'.isEmpty := by cases hfields <;> rfl
    dsimp only
    rw [hempty]
    exact .ite (fun _ => .error trivial) fun _ => .ok ⟨hfields, hclauses⟩
  | placeholder _ => exact .error trivial

/-! ## The tables -/

/-- The parts of a table name are the same, but for the placeholder in a verbatim one. -/
structure Parts (R : Renaming) (part part' : Text × Span × Bool) : Prop where
  name : R.Rewrites part.1 part'.1
  named : part.2.2 = false → part.1 = part'.1
  isVerbatim : part.2.2 = part'.2.2

theorem agree_tablePart (dotted : Bool) :
    Except.Agree (R.Leaves (Parts R)) (q.tablePart dotted ts) (q'.tablePart dotted ts') := by
  have hverbatim (x x' : (Text × Span) × List Token)
      (h : R.Leaves (fun x x' => R.Rewrites x.1 x'.1) x x') :
      R.Leaves (Parts R) ((x.1.1, x.1.2, true), x.2) ((x'.1.1, x'.1.2, true), x'.2) :=
    ⟨⟨h.1, fun h => (by cases h), rfl⟩, h.2⟩
  apply (agree_next hts .tableName).bind
  rintro ⟨part, rest⟩ ⟨part', rest'⟩ h
  change R.Reads ahead (part :: rest) (part' :: rest') at h
  cases h with
  | cons ht hrest =>
    dsimp only
    rw [ht.alike.kind, ht.alike.label, ht.alike.lexeme]
    split
    · exact .ok ⟨⟨.refl _, fun _ => rfl, rfl⟩, _, hrest⟩
    · exact .ok ⟨⟨.refl _, fun _ => rfl, rfl⟩, _, hrest⟩
    · exact .ite (fun _ => .ok ⟨⟨.refl _, fun _ => rfl, rfl⟩, _, hrest⟩) fun _ => .error trivial
    · exact .ite (fun _ => (agree_braces hq (.cons ht hrest)).map hverbatim) fun _ => .error trivial
  | placeholder hrest =>
    have hbraces := agree_braces hq (.placeholder hrest)
    obtain ⟨_, sort, _, _, _⟩ := R
    cases sort <;> exact hbraces.map hverbatim

theorem agree_dottedName {part part' : Text × Span × Bool} (hpart : Parts R part part') :
    Except.Agree (R.Leaves (Parts R)) (q.dottedName part ts) (q'.dottedName part' ts') := by
  induction hn : ts.length using Nat.strongRecOn generalizing ahead part part' ts ts' with
  | ind n ih =>
    cases hts with
    | nil =>
      rw [dottedName, dottedName]
      exact agree_atEnd hq ⟨hpart, _, .nil⟩
    | @cons _ t t' rest rest' ht hrest =>
      rw [dottedName_cons, dottedName_cons, ht.alike.isSymbol]
      refine .ite (fun _ => ?_) fun _ => .ok ⟨hpart, _, .cons ht hrest⟩
      have hnext := agree_tablePart hq hrest true
      generalize hs : q.tablePart true rest = next, q'.tablePart true rest' = next' at hnext
      cases hnext with
      | error => exact .error trivial
      | ok h =>
        obtain ⟨hpart', _, hafter⟩ := h
        have hshorter := tablePart_length hs
        exact ih _ (by simp at hn; omega) hafter ⟨hpart'.name, hpart'.named, hpart'.isVerbatim⟩ rfl
    | placeholder hrest =>
      rw [dottedName_cons, dottedName_cons, isSymbol_opening rfl]
      exact .ok ⟨hpart, _, .placeholder hrest⟩

theorem agree_tableReference :
    Except.Agree (R.Leaves (Option.Rel R.Tables)) (q.tableReference ts)
      (q'.tableReference ts') := by
  have hnamed {ts ts' : List Token} (hts : R.Reads ahead ts ts') :
      Except.Agree (R.Leaves (Option.Rel R.Tables))
        (q.tablePart false ts >>= fun x => q.dottedName x.1 x.2 >>= fun x =>
          q.aliasOf x.1.1 x.2 >>= fun y => pure (some ⟨x.1.1, y.1, x.1.2.2, x.1.2.1⟩, y.2))
        (q'.tablePart false ts' >>= fun x => q'.dottedName x.1 x.2 >>= fun x =>
          q'.aliasOf x.1.1 x.2 >>= fun y => pure (some ⟨x.1.1, y.1, x.1.2.2, x.1.2.1⟩, y.2)) := by
    apply (agree_tablePart hq hts false).bind
    rintro _ _ ⟨hpart, _, h⟩
    apply (agree_dottedName hq h hpart).bind
    rintro ⟨⟨name, span, isVerbatim⟩, _⟩ ⟨⟨name', span', isVerbatim'⟩, _⟩ ⟨hpart, _, h⟩
    apply (agree_aliasOf hq h name name').bind
    rintro _ _ ⟨halias, hlast⟩
    exact .ok ⟨.some ⟨hpart.name, hpart.named, halias, hpart.isVerbatim⟩, hlast⟩
  cases hts with
  | nil => exact .error trivial
  | cons ht hrest =>
    simp only [tableReference, ht.alike.isSymbol]
    refine .ite (fun _ => ?_) fun _ => hnamed (.cons ht hrest)
    apply (agree_skipGroup hq hrest).bind
    rintro _ _ ⟨_, hafter⟩
    apply (agree_aliasOf hq hafter [] []).bind
    rintro _ _ ⟨_, hlast⟩
    exact .ok ⟨.none, hlast⟩
  | placeholder hrest =>
    have hread := hnamed (.placeholder hrest)
    obtain ⟨_, sort, _, _, _⟩ := R
    cases sort <;> exact hread

omit hq hts in
theorem forall₂_toList {t t' : Option QueryTable} (h : Option.Rel R.Tables t t') :
    List.Forall₂ R.Tables t.toList t'.toList := by
  cases h with
  | none => exact .nil
  | some h => exact .cons h .nil

theorem agree_tableReferences :
    Except.Agree (R.Leaves (List.Forall₂ R.Tables)) (q.tableReferences ts)
      (q'.tableReferences ts') := by
  induction hn : ts.length using Nat.strongRecOn generalizing ahead ts ts' with
  | ind n ih =>
    have hfirst := agree_tableReference hq hts
    rw [tableReferences_eq q, tableReferences_eq q']
    generalize hs : q.tableReference ts = first, q'.tableReference ts' = first' at hfirst
    cases hfirst with
    | error => exact .error trivial
    | @ok x x' h =>
      obtain ⟨table, rest⟩ := x
      obtain ⟨table', rest'⟩ := x'
      obtain ⟨htable, ahead', hrest⟩ : Option.Rel R.Tables table table' ∧ R.Rest rest rest' := h
      have htables := forall₂_toList htable
      cases hrest with
      | nil => exact agree_atEnd hq ⟨htables, _, .nil⟩
      | cons ht hrest =>
        have hshorter := tableReference_length hs
        dsimp only
        rw [ht.alike.isSymbol]
        refine .ite (fun _ => ?_) fun _ => .ok ⟨htables, _, .cons ht hrest⟩
        refine (ih _ ?_ hrest rfl).map fun _ _ ⟨hlater, hafter⟩ =>
          ⟨List.rel_append htables hlater, hafter⟩
        simp only [List.length_cons] at hshorter
        omega
      | placeholder hrest =>
        dsimp only
        rw [isSymbol_opening rfl]
        exact .ok ⟨htables, _, .placeholder hrest⟩

/-- The same tokens, possibly from within the placeholder on. -/
inductive Within (R : Renaming) : List Token → List Token → Prop where
  | outside {ts ts' : List Token} : R.Rest ts ts' → Within R ts ts'
  | inner {ts ts' : List Token} : R.Rest ts ts' →
    Within R (R.inner R.name :: R.closing R.name :: ts)
      (R.inner R.name' :: R.closing R.name' :: ts')
  | closing {ts ts' : List Token} : R.Rest ts ts' →
    Within R (R.closing R.name :: ts) (R.closing R.name' :: ts')

omit hts in
/-- A clause may go on within the placeholder behind a dot, where nothing is to be found. -/
theorem agree_clauseStep (hts : Within R ts ts') :
    Except.Agree (Option.Rel fun x x' => List.Forall₂ R.Tables x.1 x'.1 ∧ Within R x.2 x'.2)
      (q.clauseStep ts) (q'.clauseStep ts') := by
  cases hts with
  | inner h => exact .ok (.some ⟨.nil, .closing h⟩)
  | closing h => exact .ok (.some ⟨.nil, .outside h⟩)
  | outside h =>
    obtain ⟨_, hts⟩ := h
    refine (agree_skipBraces hq hts _ _).bind fun us us' ⟨_, hus⟩ => ?_
    cases hus with
    | nil => exact .ok .none
    | cons ht hrest =>
      simp only [ht.alike.kind]
      split
      · cases hrest with
        | nil => exact agree_atEnd hq .none
        | cons _ hafter => exact .ok (.some ⟨.nil, .outside ⟨_, hafter⟩⟩)
        | placeholder hafter => exact .ok (.some ⟨.nil, .inner ⟨_, hafter⟩⟩)
      · exact (agree_skipGroup hq hrest).bind fun _ _ h => .ok (.some ⟨.nil, .outside h⟩)
      · exact (agree_tableReferences hq hrest).bind fun _ _ h => .ok (.some ⟨h.1, .outside h.2⟩)
      · apply (agree_tableReference hq hrest).bind
        rintro _ _ ⟨htable, h⟩
        exact .ok (.some ⟨forall₂_toList htable, .outside h⟩)
      · exact .ok (.some ⟨.nil, .outside ⟨_, hrest⟩⟩)
    | placeholder hrest =>
      obtain ⟨_, sort, _, _, _⟩ := R
      cases sort <;> exact .ok (.some ⟨.nil, .inner ⟨_, hrest⟩⟩)

omit hts in
theorem agree_clauseTables (hts : Within R ts ts') :
    Except.Agree (List.Forall₂ R.Tables) (q.clauseTables ts) (q'.clauseTables ts') := by
  induction hn : ts.length using Nat.strongRecOn generalizing ts ts' with
  | ind n ih =>
    have hstep := agree_clauseStep hq hts
    rw [clauseTables_eq q, clauseTables_eq q']
    generalize hs : q.clauseStep ts = step, q'.clauseStep ts' = step' at hstep
    cases hstep with
    | error => exact .error trivial
    | ok h =>
      cases h with
      | none => exact .ok .nil
      | some h =>
        exact (ih _ (hn ▸ clauseStep_length hs) h.2 rfl).map fun _ _ hlater =>
          List.rel_append h.1 hlater

theorem agree_tableList :
    Except.Agree (List.Forall₂ R.Tables) (q.tableList ts) (q'.tableList ts') := by
  refine (agree_clauseTables hq (.outside ⟨_, hts⟩)).bind fun tables tables' htables => ?_
  have hempty : tables.isEmpty = tables'.isEmpty := by cases htables <;> rfl
  rw [hempty]
  exact .ite (fun _ => .error trivial) fun _ => .ok htables

end

end Query

end QueryTemplate
