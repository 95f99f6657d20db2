import QueryTemplate.Proofs.Template.Runs

/-! # Resolving from left to right

A text is read from left to right, one character or one placeholder after the other, where a
placeholder runs to the next closing brace. It resolves if every opener that is met on the way has a
closing brace and a name; if not, the leftmost one that lacks either is the fault. The statement is
the runs of what has been read, with single blanks in between.
-/

namespace QueryTemplate

namespace Piece

/-- Reading `t` from left to right gives the pieces and comes to the rest of it: a character that
opens nothing, or a placeholder with a name, which runs to the next closing brace. -/
inductive Reads : Text → List Piece → Text → Prop where
  | stop (t : Text) : Reads t [] t
  | literal {c : Char} {t rest : Text} {ps : List Piece} :
    (∀ sort : Placeholder, c = sort.mark → t.head? ≠ some '\x7b') → Reads t ps rest →
      Reads (c :: t) (literal c :: ps) rest
  | placeholder {sort : Placeholder} {name t rest : Text} {ps : List Piece} :
    '\x7d' ∉ name → ¬Text.isBlank name → Reads t ps rest →
      Reads (sort.mark :: '\x7b' :: (name ++ '\x7d' :: t))
        (placeholder sort (Text.trim name) :: ps) rest

/-- Whether a placeholder in front of `behind`, of which the opener has been read, is closed and has
a name. -/
def IsNamed (behind : Text) : Prop :=
  ∃ name after, behind = name ++ '\x7d' :: after ∧ '\x7d' ∉ name ∧ ¬Text.isBlank name

/-- The fault of the placeholder that a text at offset `o` begins with: it is never closed, or its
name is blank. -/
inductive Refused (o : Nat) : Text → LexicalFault → Prop where
  | unterminated {sort : Placeholder} {behind : Text} : '\x7d' ∉ behind →
    Refused o (sort.mark :: '\x7b' :: behind)
      ⟨.unterminatedPlaceholder, ⟨o, o + Text.size (sort.mark :: '\x7b' :: behind)⟩⟩
  | empty {sort : Placeholder} {name after : Text} : '\x7d' ∉ name → Text.isBlank name →
    Refused o (sort.mark :: '\x7b' :: (name ++ '\x7d' :: after))
      ⟨.emptyPlaceholder, ⟨o, o + Text.size (sort.mark :: '\x7b' :: (name ++ ['\x7d']))⟩⟩

variable {o : Nat} {c d : Char} {t rest name after behind : Text} {sort : Placeholder}
  {ps : List Piece} {e : LexicalFault}

theorem opened?_eq_none_iff :
    opened? c d = none ↔ ∀ sort : Placeholder, c = sort.mark → d ≠ '\x7b' := by
  constructor
  · rintro h sort rfl rfl
    rw [opened?_mark] at h
    cases h
  · intro h
    rw [Option.eq_none_iff_forall_not_mem]
    intro sort hsort
    obtain ⟨hmark, hbrace⟩ := opened?_eq_some hsort
    refine h sort ?_ hbrace
    rcases hmark with ⟨rfl, rfl⟩ | ⟨rfl, rfl⟩ <;> rfl

/-! ## One step -/

theorem scan_unclosed (h : '\x7d' ∉ behind) (o : Nat) (sort : Placeholder) :
    scan o (sort.mark :: '\x7b' :: behind) = .error
      ⟨.unterminatedPlaceholder, ⟨o, o + Text.size (sort.mark :: '\x7b' :: behind)⟩⟩ := by
  rw [scan_cons, opened?_mark, Text.splitFirst?_eq_none_iff.2 h]

theorem scan_closed (h : '\x7d' ∉ name) (o : Nat) (sort : Placeholder) (after : Text) :
    scan o (sort.mark :: '\x7b' :: (name ++ '\x7d' :: after)) =
      let stop := o + Text.size (sort.mark :: '\x7b' :: (name ++ ['\x7d']))
      if Text.isBlank name then .error ⟨.emptyPlaceholder, ⟨o, stop⟩⟩
      else (scan stop after).map (placeholder sort (Text.trim name) :: ·) := by
  have hstop : o + Text.size (sort.mark :: '\x7b' :: name) + 1 =
      o + Text.size (sort.mark :: '\x7b' :: (name ++ ['\x7d'])) := by
    rw [← List.cons_append, ← List.cons_append, Text.size_append, Nat.add_assoc]
    rfl
  rw [scan_cons, opened?_mark, Text.splitFirst?_append h]
  dsimp only
  rw [hstop]

theorem Refused.scan_eq (h : Refused o t e) : scan o t = .error e := by
  cases h with
  | unterminated hbehind => exact scan_unclosed hbehind o _
  | empty hname hblank => rw [scan_closed hname, if_pos hblank]

/-- A placeholder is refused, or it is closed and has a name. -/
theorem exists_refused_or_isNamed (o : Nat) (sort : Placeholder) (behind : Text) :
    (∃ e, Refused o (sort.mark :: '\x7b' :: behind) e) ∨ IsNamed behind := by
  by_cases hclosed : '\x7d' ∈ behind
  · obtain ⟨name, after, rfl, hname⟩ := List.eq_append_cons_of_mem hclosed
    by_cases hblank : Text.isBlank name
    · exact .inl ⟨_, .empty hname hblank⟩
    · exact .inr ⟨name, after, rfl, hname, hblank⟩
  · exact .inl ⟨_, .unterminated hclosed⟩

/-! ## The way from left to right -/

/-- What has been read is a beginning of the text, and its pieces come first. -/
theorem Reads.exists_lead (h : Reads t ps rest) : ∃ lead, t = lead ++ rest ∧
    ∀ o, scan o t = (scan (o + Text.size lead) rest).map (ps ++ ·) := by
  induction h with
  | stop t =>
    refine ⟨[], rfl, fun o => ?_⟩
    cases hscan : scan o t <;> simp [hscan, Except.map]
  | @literal c t rest ps hopened _ ih =>
    obtain ⟨lead, rfl, hscan⟩ := ih
    refine ⟨c :: lead, rfl, fun o => ?_⟩
    have hclosed : ∀ d ∈ (lead ++ rest).head?, opened? c d = none := by
      intro d hd
      refine opened?_eq_none_iff.2 ?_
      rintro sort hc rfl
      exact hopened sort hc hd
    rw [scan_unopened hclosed, hscan, Text.size_cons, Nat.add_assoc]
    cases scan (o + (c.utf8Size + Text.size lead)) rest <;> rfl
  | @placeholder sort name t rest ps hname hblank _ ih =>
    obtain ⟨lead, rfl, hscan⟩ := ih
    refine ⟨sort.mark :: '\x7b' :: (name ++ ['\x7d']) ++ lead, by simp, fun o => ?_⟩
    rw [scan_closed hname, if_neg hblank, hscan, Text.size_append, Nat.add_assoc]
    cases scan _ rest <;> rfl

/-- Reading goes on to the end, or up to a placeholder that is refused. -/
theorem exists_reads (o : Nat) (t : Text) : (∃ ps, Reads t ps []) ∨
    ∃ lead ps rest e, t = lead ++ rest ∧ Reads t ps rest ∧ Refused (o + Text.size lead) rest e := by
  induction hn : t.length using Nat.strongRecOn generalizing o t with
  | ind n ih =>
    cases t with
    | nil => exact .inl ⟨[], .stop []⟩
    | cons c t =>
      by_cases hopens : ∃ sort : Placeholder, c = sort.mark ∧ t.head? = some '\x7b'
      · obtain ⟨sort, rfl, hbrace⟩ := hopens
        obtain ⟨behind, rfl⟩ := List.head?_eq_some_iff.1 hbrace
        rcases exists_refused_or_isNamed o sort behind with ⟨e, he⟩ | hnamed
        · exact .inr ⟨[], [], _, e, rfl, .stop _, he⟩
        · obtain ⟨name, after, rfl, hname, hblank⟩ := hnamed
          have hshorter : after.length < n := by
            rw [← hn]
            simp
            omega
          rcases ih _ hshorter (o + Text.size (sort.mark :: '\x7b' :: (name ++ ['\x7d']))) after rfl
            with ⟨ps, hps⟩ | ⟨lead, ps, rest, e, rfl, hps, he⟩
          · exact .inl ⟨_, .placeholder hname hblank hps⟩
          · refine .inr ⟨sort.mark :: '\x7b' :: (name ++ ['\x7d']) ++ lead, _, rest, e, by simp,
              .placeholder hname hblank hps, ?_⟩
            rw [Text.size_append, ← Nat.add_assoc]
            exact he
      · have hunopened : ∀ sort : Placeholder, c = sort.mark → t.head? ≠ some '\x7b' :=
          fun sort hc hbrace => hopens ⟨sort, hc, hbrace⟩
        have hshorter : t.length < n := by
          rw [← hn]
          exact Nat.lt_succ_self _
        rcases ih _ hshorter (o + c.utf8Size) t rfl with
          ⟨ps, hps⟩ | ⟨lead, ps, rest, e, rfl, hps, he⟩
        · exact .inl ⟨_, .literal hunopened hps⟩
        · refine .inr ⟨c :: lead, _, rest, e, rfl, .literal hunopened hps, ?_⟩
          rw [Text.size_cons, ← Nat.add_assoc]
          exact he

theorem scan_eq_ok_iff : scan o t = .ok ps ↔ Reads t ps [] := by
  constructor
  · intro h
    rcases exists_reads o t with ⟨qs, hqs⟩ | ⟨lead, qs, rest, e, rfl, hqs, he⟩
    · obtain ⟨lead, -, hscan⟩ := hqs.exists_lead
      have heq := h.symm.trans (hscan o)
      rw [scan] at heq
      cases heq
      simpa only [List.append_nil] using hqs
    · obtain ⟨lead', hlead, hscan⟩ := hqs.exists_lead
      rw [List.append_cancel_right hlead] at he
      rw [hscan, he.scan_eq] at h
      cases h
  · intro h
    obtain ⟨lead, -, hscan⟩ := h.exists_lead
    rw [hscan, scan, Except.map, List.append_nil]

theorem scan_eq_error_iff : scan o t = .error e ↔
    ∃ lead ps rest, t = lead ++ rest ∧ Reads t ps rest ∧ Refused (o + Text.size lead) rest e := by
  have hfault {lead rest : Text} {ps : List Piece} {e : LexicalFault} (hlead : t = lead ++ rest)
      (hps : Reads t ps rest) (he : Refused (o + Text.size lead) rest e) : scan o t = .error e := by
    obtain ⟨lead', hlead', hscan⟩ := hps.exists_lead
    rw [List.append_cancel_right (hlead.symm.trans hlead')] at he
    rw [hscan, he.scan_eq, Except.map]
  constructor
  · intro h
    rcases exists_reads o t with ⟨ps, hps⟩ | ⟨lead, ps, rest, e', hlead, hps, he⟩
    · rw [scan_eq_ok_iff.2 hps] at h
      cases h
    · have heq := hfault hlead hps he
      rw [h] at heq
      cases heq
      exact ⟨lead, ps, rest, hlead, hps, he⟩
  · rintro ⟨lead, ps, rest, hlead, hps, he⟩
    exact hfault hlead hps he

/-- The text is read to its end if every opener on the way has a closing brace and a name. -/
theorem exists_reads_iff : (∃ ps, Reads t ps []) ↔
    ∀ ps (sort : Placeholder) behind, Reads t ps (sort.mark :: '\x7b' :: behind) →
      IsNamed behind := by
  constructor
  · rintro ⟨ps, hps⟩ qs sort behind hqs
    obtain ⟨lead, -, hscan⟩ := hqs.exists_lead
    rcases exists_refused_or_isNamed (0 + Text.size lead) sort behind with ⟨e, he⟩ | hnamed
    · have heq := scan_eq_ok_iff (o := 0).2 hps
      rw [hscan, he.scan_eq] at heq
      cases heq
    · exact hnamed
  · intro h
    rcases exists_reads 0 t with hread | ⟨lead, ps, rest, e, -, hps, he⟩
    · exact hread
    · cases he with
      | unterminated hopen =>
        obtain ⟨name, after, rfl, -, -⟩ := h _ _ _ hps
        exact absurd (List.mem_append_right _ (List.mem_cons_self ..)) hopen
      | empty hname hblank =>
        obtain ⟨name, after, heq, hname', hblank'⟩ := h _ _ _ hps
        have hsplit := Text.splitFirst?_append hname' after
        rw [← heq, Text.splitFirst?_append hname] at hsplit
        cases hsplit
        exact absurd hblank hblank'

end Piece

namespace Statement

open Piece

/-- **Placeholders are resolved from left to right.** A text resolves exactly if each opener that is
met on the way has a closing brace and a name. Then the statement is the runs of characters and
markers between white space, joined by single blanks, with the names in order; otherwise the first
placeholder that is not closed, or has no name, is the fault. -/
theorem resolve_reads {markers : Markers} (hmarkers : ∀ sort, markers.text sort ≠ []) (t : Text) :
    ((∃ s, resolve markers (.ofText t) = .ok s) ↔
      ∀ ps (sort : Placeholder) behind, Reads t ps (sort.mark :: '\x7b' :: behind) →
        IsNamed behind) ∧
    (∀ s, resolve markers (.ofText t) = .ok s ↔ ∃ ps, Reads t ps [] ∧
      s = ⟨Text.joinWords ((runs ps).map (runText markers)), ps.filterMap (name? .bind),
        ps.filterMap (name? .substitute)⟩) ∧
    ∀ e, resolve markers (.ofText t) = .error e ↔ ∃ lead ps rest, t = lead ++ rest ∧
      Reads t ps rest ∧ Refused (Text.size lead) rest e := by
  have hok (s : Statement) : resolve markers (.ofText t) = .ok s ↔ ∃ ps, Reads t ps [] ∧
      s = ⟨Text.joinWords ((runs ps).map (runText markers)), ps.filterMap (name? .bind),
        ps.filterMap (name? .substitute)⟩ := by
    rw [resolve, Checked.map_eq_ok_iff]
    refine exists_congr fun ps => and_congr scan_eq_ok_iff ?_
    rw [ofPieces, (write_eq_joinWords hmarkers ps).1, eq_comm]
  refine ⟨?_, hok, fun e => ?_⟩
  · rw [← exists_reads_iff]
    constructor
    · rintro ⟨s, hs⟩
      obtain ⟨ps, hps, -⟩ := (hok s).1 hs
      exact ⟨ps, hps⟩
    · rintro ⟨ps, hps⟩
      exact ⟨_, (hok _).2 ⟨ps, hps, rfl⟩⟩
  · have herror := scan_eq_error_iff (o := 0) (t := t) (e := e)
    simp only [Nat.zero_add] at herror
    rw [← herror, resolve]
    cases hscan : scan (Fragment.ofText t).offset (Fragment.ofText t).text <;>
      simp_all [Except.map, Fragment.ofText]

/-- A sigil in front of an opener is a character of its own, a name may hold an opener, and adjacent
placeholders leave no blank between their markers. -/
theorem resolve_adjacent :
    (∀ sort, Markers.standard.text sort ≠ []) ∧
    resolve .standard (.ofText "\u00a0a$$\x7b x#\x7by \x7d#\x7bz\x7d # ".toList) =
      .ok ⟨"a$?%v #".toList, ["x#\x7by".toList], ["z".toList]⟩ ∧
    ∃ ps, Reads "\u00a0a$$\x7b x#\x7by \x7d#\x7bz\x7d # ".toList ps [] ∧
      ps.filterMap (name? .bind) = ["x#\x7by".toList] := by
  have hmarkers : ∀ sort, Markers.standard.text sort ≠ [] := by
    intro sort
    cases sort <;> decide
  have hresolve : resolve .standard (.ofText "\u00a0a$$\x7b x#\x7by \x7d#\x7bz\x7d # ".toList) =
      .ok ⟨"a$?%v #".toList, ["x#\x7by".toList], ["z".toList]⟩ := by
    decide +kernel
  obtain ⟨ps, hps, hs⟩ := ((resolve_reads hmarkers _).2.1 _).1 hresolve
  exact ⟨hmarkers, hresolve, ps, hps, (congrArg Statement.bindParams hs).symm⟩

end Statement

end QueryTemplate
