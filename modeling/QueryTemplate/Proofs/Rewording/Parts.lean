import QueryTemplate.Proofs.Rewording.Basic

/-! # Braces, groups and aliases around the changed token

Braces and groups are passed over whatever they hold, so the changed token is passed over with them.
An alias is the name in either way of writing it, unless it repeats the own name.
-/

namespace QueryTemplate

/-- Where the first one succeeds, the second one does so too, with a related outcome. -/
def Keeps {α : Type} (r : α → α → Prop) (x x' : Checked α) : Prop :=
  ∀ a, x = .ok a → ∃ a', x' = .ok a' ∧ r a a'

/-- The token that an alias at the beginning of the tokens is read from, if one is. -/
def Query.aliasToken? : List Token → Option Token
  | [] => none
  | t :: rest => if t.isKeyword .AS then rest.head? else some t

theorem Query.mem_of_aliasToken? {t : Token} {ts : List Token} (h : t ∈ aliasToken? ts) :
    t ∈ ts := by
  cases ts with
  | nil => cases h
  | cons u ts =>
    rw [aliasToken?] at h
    split at h
    · exact List.mem_cons_of_mem _ (List.mem_of_head? h)
    · exact Option.some.inj h ▸ List.mem_cons_self ..

namespace Keeps

variable {α β : Type} {r : α → α → Prop} {s : β → β → Prop} {x x' : Checked α}

theorem ok {a a' : α} (h : r a a') : Keeps r (.ok a) (.ok a') := by
  rintro _ ⟨⟩
  exact ⟨a', rfl, h⟩

theorem error (e : TemplateFault) : Keeps r (.error e) x' := fun _ h => by cases h

theorem imp {r' : α → α → Prop} (h : Keeps r x x') (hr : ∀ a a', r a a' → r' a a') :
    Keeps r' x x' := by
  intro a ha
  obtain ⟨a', ha', h⟩ := h a ha
  exact ⟨a', ha', hr a a' h⟩

theorem bind {f f' : α → Checked β} (h : Keeps r x x')
    (hf : ∀ a a', x = .ok a → r a a' → Keeps s (f a) (f' a')) :
    Keeps s (x >>= f) (x' >>= f') := by
  intro b hb
  obtain ⟨a, ha, hb⟩ := Checked.bind_eq_ok hb
  obtain ⟨a', rfl, hr⟩ := h a ha
  exact hf a a' ha hr b hb

theorem map {f f' : α → β} (h : Keeps r x x') (hf : ∀ a a', r a a' → s (f a) (f' a')) :
    Keeps s (x.map f) (x'.map f') := by
  intro b hb
  obtain ⟨a, ha, rfl⟩ := Checked.map_eq_ok hb
  obtain ⟨a', rfl, hr⟩ := h a ha
  exact ⟨f' a', rfl, hf a a' hr⟩

theorem ite {c : Prop} [Decidable c] {y y' : Checked α} (ht : c → Keeps r x x')
    (he : ¬c → Keeps r y y') : Keeps r (if c then x else y) (if c then x' else y') := by
  split
  · exact ht ‹_›
  · exact he ‹_›

end Keeps

namespace Rewording

variable {R : Rewording}

theorem Rest.eq_nil {ts' : List Token} (h : R.Rest [] ts') : ts' = [] :=
  List.forall₂_nil_left_iff.1 h.pairs

theorem Rest.exists_cons {t : Token} {ts us : List Token} (h : R.Rest (t :: ts) us) :
    ∃ t' ts', us = t' :: ts' ∧ R.Match t t' := by
  rcases List.forall₂_cons_left_iff.1 h.pairs with ⟨t', ts', ht, -, rfl⟩
  exact ⟨t', ts', rfl, ht⟩

section Closing

variable (hR : R.IsFit) {ts ts' : List Token}
include hR

theorem rel_closingBrace? (h : R.Rest ts ts') :
    Option.Rel (fun x x' => R.Placed x.1 x'.1 ∧ R.Resumes x.2 x'.2) (Query.closingBrace? ts)
      (Query.closingBrace? ts') := by
  induction ts generalizing ts' with
  | nil =>
    obtain rfl := h.eq_nil
    exact .none
  | cons t ts ih =>
    obtain ⟨t', ts', rfl, ht⟩ := h.exists_cons
    rw [Query.closingBrace?, Query.closingBrace?, hR.isSymbol_eq ht]
    split
    · rename_i hclose
      exact .some ⟨ht.placed_span, hR.resumes h (by simp_all [Token.isSymbol])⟩
    · exact ih h.tail.2

theorem rel_closingParen? (h : R.Rest ts ts') (depth : Nat) :
    Option.Rel (fun x x' => R.Placed x.1 x'.1 ∧ R.Resumes x.2 x'.2)
      (Query.closingParen? depth ts) (Query.closingParen? depth ts') := by
  induction ts generalizing ts' depth with
  | nil =>
    obtain rfl := h.eq_nil
    exact .none
  | cons t ts ih =>
    obtain ⟨t', ts', rfl, ht⟩ := h.exists_cons
    cases ht with
    | word =>
      have hrest := ih h.tail.2 depth
      rcases hR.old_kind with hold | ⟨k, hold⟩ <;>
        rcases hR.new_kind with ⟨quote, hnew⟩ | ⟨k', hnew⟩ <;>
          simpa only [Query.closingParen?, hold, hnew] using hrest
    | alike _ hkind _ hspan =>
      rw [Query.closingParen?_cons, Query.closingParen?_cons, ← hkind]
      split
      · exact ih h.tail.2 _
      · rename_i hclose
        cases depth with
        | zero => exact .some ⟨hspan, hR.resumes h (by simp [Token.isSymbol, hclose])⟩
        | succ depth => exact ih h.tail.2 _
      · exact ih h.tail.2 _

end Closing

/-- The same name is written as an alias; it counts as none if it repeats the own name. -/
def SameAlias (own own' : Text) (a a' : Option Text) : Prop :=
  ∃ written : Option Text, a = written.filter (· ≠ own) ∧ a' = written.filter (· ≠ own')

section Readers

variable (hR : R.IsFit) {q q' : Query} (hq : R.Queries q q') {ts ts' : List Token}

section

include hq

theorem keeps_atEnd {α : Type} {r : α → α → Prop} {x x' : α} (h : r x x') :
    Keeps r (q.atEnd x) (q'.atEnd x') := by
  have hfault := hq.beyond.fault
  unfold Query.atEnd
  generalize q.fault = fault, q'.fault = fault' at hfault
  cases hfault with
  | none => exact .ok h
  | some _ => exact .error _

end

include hR hq

/-- The text of braces is the same, unless the token stands within them. -/
theorem keeps_braces {opening opening' : Token} (hopening : R.Placed opening.span opening'.span)
    (h : R.Rest ts ts') :
    Keeps (fun x x' => (x.1.1 = x'.1.1 ∨ R.Holds x.1.2) ∧ R.Placed x.1.2 x'.1.2 ∧
      R.Resumes x.2 x'.2) (q.braces opening ts) (q'.braces opening' ts') := by
  have hclosing := rel_closingBrace? hR h
  unfold Query.braces
  generalize Query.closingBrace? ts = found, Query.closingBrace? ts' = found' at hclosing
  cases hclosing with
  | none => exact .error _
  | some h =>
    have hspan := hopening.merge h.1
    exact .ok ⟨hq.slice_eq hspan, hspan, h.2⟩

/-- What holds of the tokens at the beginning and of those behind a brace holds of the tokens that
are left. -/
theorem keeps_skipBraces {r : List Token → List Token → Prop}
    (hr : ∀ us us', R.Resumes us us' → r us us') (skipped : Symbol → Bool) (inside : Bool)
    (h : R.Rest ts ts') (hstart : inside = false → r ts ts') :
    Keeps r (q.skipBraces skipped inside ts) (q'.skipBraces skipped inside ts') := by
  induction ts generalizing ts' inside with
  | nil =>
    obtain rfl := h.eq_nil
    cases inside with
    | true => exact .error _
    | false => exact keeps_atEnd hq (hstart rfl)
  | cons t ts ih =>
    obtain ⟨t', ts', rfl, ht⟩ := h.exists_cons
    cases inside with
    | true =>
      rw [Query.skipBraces, Query.skipBraces, hR.isSymbol_eq ht]
      refine ih _ h.tail.2 fun hclose => hr _ _ (hR.resumes h ?_)
      simp_all [Token.isSymbol]
    | false =>
      have hstay : Keeps r (.ok (t :: ts)) (.ok (t' :: ts')) := .ok (hstart rfl)
      cases ht with
      | word =>
        rcases hR.old_kind with hold | ⟨k, hold⟩ <;>
          rcases hR.new_kind with ⟨quote, hnew⟩ | ⟨k', hnew⟩ <;>
            simpa only [Query.skipBraces, hold, hnew] using hstay
      | alike _ hkind =>
        rw [Query.skipBraces, Query.skipBraces, ← hkind]
        split
        · exact .ite (fun _ => ih true h.tail.2 (by simp)) fun _ => hstay
        · exact hstay

omit hq in
theorem keeps_groupEnd (h : R.Rest ts ts') (depth : Nat) :
    Keeps (fun x x' => R.Placed x.1 x'.1 ∧ R.Resumes x.2 x'.2) (q.groupEnd depth ts)
      (q'.groupEnd depth ts') := by
  have hclosing := rel_closingParen? hR h depth
  unfold Query.groupEnd
  generalize Query.closingParen? depth ts = found, Query.closingParen? depth ts' = found'
    at hclosing
  cases hclosing with
  | none => exact .error _
  | some h => exact .ok h

theorem keeps_skipGroup (h : R.Rest ts ts') :
    Keeps R.Resumes (q.skipGroup ts) (q'.skipGroup ts') := by
  have hclosing := rel_closingParen? hR h 0
  unfold Query.skipGroup
  generalize Query.closingParen? 0 ts = found, Query.closingParen? 0 ts' = found' at hclosing
  cases hclosing with
  | none => exact keeps_atEnd hq ⟨⟨⟨List.nil_suffix, .nil⟩, by simp⟩, by simp⟩
  | some h => exact .ok h.2

theorem keeps_bareAlias (own own' : Text) (h : R.Resumes ts ts')
    (hplain : R.old ∈ ts.head? → R.IsPlain) :
    Keeps (fun x x' => SameAlias own own' x.1 x'.1 ∧ R.Resumes x.2 x'.2) (q.bareAlias own ts)
      (q'.bareAlias own' ts') := by
  cases ts with
  | nil =>
    obtain rfl := h.eq_nil
    exact keeps_atEnd hq ⟨⟨none, rfl, rfl⟩, h⟩
  | cons t ts =>
    obtain ⟨t', ts', rfl, ht⟩ := h.exists_cons
    have hname : t'.name? = t.name? := by
      refine ht.name?_eq ?_
      rintro rfl
      exact ⟨(hR.name (h.start rfl)).1, (hplain rfl).resolve_right (h.start rfl)⟩
    rw [Query.bareAlias, Query.bareAlias, hname]
    split
    · rename_i name hname
      have hdot : ¬t.isSymbol .dot := by
        intro hdot
        simp_all [Token.name?, Token.isSymbol]
      refine .ok ⟨⟨some name, ?_, ?_⟩, hR.resumes h.toRest hdot⟩ <;>
        simp [Option.filter, ite_not]
    · exact .ok ⟨⟨none, rfl, rfl⟩, h⟩

theorem keeps_aliasOf (own own' : Text) (h : R.Resumes ts ts')
    (hplain : R.old ∈ Query.aliasToken? ts → R.IsPlain) :
    Keeps (fun x x' => SameAlias own own' x.1 x'.1 ∧ R.Resumes x.2 x'.2) (q.aliasOf own ts)
      (q'.aliasOf own' ts') := by
  cases ts with
  | nil =>
    obtain rfl := h.eq_nil
    exact keeps_atEnd hq ⟨⟨none, rfl, rfl⟩, h⟩
  | cons t ts =>
    obtain ⟨t', ts', rfl, ht⟩ := h.exists_cons
    have hkeyword : t'.isKeyword .AS = t.isKeyword .AS :=
      hR.isKeyword_eq ht (fun hold => h.start (congrArg some hold)) (by decide) (by decide)
    rw [Query.aliasToken?] at hplain
    rw [Query.aliasOf, Query.aliasOf, hkeyword]
    refine .ite (fun has => ?_) fun has => ?_
    · have hdot : ¬t.isSymbol .dot := by simp_all [Token.isKeyword, Token.isSymbol]
      rw [if_pos has] at hplain
      exact keeps_bareAlias hR hq own own' (hR.resumes h.toRest hdot) hplain
    · rw [if_neg has] at hplain
      exact keeps_bareAlias hR hq own own' h hplain

end Readers

end Rewording

end QueryTemplate
