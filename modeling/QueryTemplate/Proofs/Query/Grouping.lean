import Mathlib.Data.List.Infix
import QueryTemplate.Proofs.Query.Regrouping

/-! # Groups are passed over

What a query selects and from where does not depend on what a group behind the select list holds.
Reading goes on in the same tokens up to the group, passes over it as a whole, be it for a nested
query or for any other group, and goes on in the same tokens behind it.
-/

namespace QueryTemplate

namespace Regrouping

/-! ## What is read -/

/-- The same tokens in front of the group, and the group. -/
inductive Front (R : Regrouping) : List Token → List Token → Prop where
  | ahead {t : Token} {us : List Token} : t :: us <:+ R.lead →
    Front R (t :: (us ++ R.group R.inner)) (t :: (us ++ R.group R.inner'))
  | group : Front R (R.group R.inner) (R.group R.inner')

/-- The same tokens, from in front of the group or from behind it on. -/
inductive Rest (R : Regrouping) : List Token → List Token → Prop where
  | front {ts ts' : List Token} : R.Front ts ts' → Rest R ts ts'
  | behind {ts ts' : List Token} : Aligned R.beyond ts ts' → Rest R ts ts'

def Leaves {α : Type} [Alignable α] (R : Regrouping) (rest : List Token → List Token → Prop)
    (x x' : α × List Token) : Prop :=
  Aligned R.places x.1 x'.1 ∧ rest x.2 x'.2

/-- Both outcomes fail alike, or both succeed with related values. -/
abbrev Agree {α : Type} (R : Regrouping) (r : α → α → Prop) : Checked α → Checked α → Prop :=
  Except.Related (Aligned R.places) r

/-- The queries are alike behind the group, and their texts are the same in front of it. -/
structure Queries (R : Regrouping) (q q' : Query) : Prop where
  beyond : Aligned R.beyond q q'
  slice : ∀ s : Span, s.stop ≤ Text.size R.before → q.source.slice s = q'.source.slice s

variable {R : Regrouping}

theorem Front.of_suffix {us : List Token} (hus : us <:+ R.lead) :
    R.Front (us ++ R.group R.inner) (us ++ R.group R.inner') := by
  cases us with
  | nil => exact .group
  | cons t us => exact .ahead hus

section Outcomes

variable {α : Type} {r : α → α → Prop} {x x' : Checked α}

theorem agree_of_aligned [Alignable α] (h : Aligned R.beyond x x')
    (hr : ∀ a a', Aligned R.beyond a a' → r a a') : R.Agree r x x' :=
  Except.Related.imp h (fun _ _ => Realignable.mono R.beyond_le_places) hr

theorem leaves_of_aligned [Alignable α] [Realignable α] {y y' : α × List Token}
    (h : Aligned R.beyond y y') : R.Leaves R.Rest y y' :=
  ⟨Realignable.mono R.beyond_le_places h.1, .behind h.2⟩

end Outcomes

/-! ## Tokens in front of the group -/

theorem aligned_span {t : Token} (ht : t ∈ R.lead) : Aligned R.places t.span t.span :=
  Realignable.mono R.upTo_le_places (aligned_of_mem_lead ht).span

theorem mem_lead {t : Token} {us : List Token} (hus : t :: us <:+ R.lead) : t ∈ R.lead :=
  hus.subset (List.mem_cons_self ..)

theorem tail_suffix {t : Token} {us : List Token} (hus : t :: us <:+ R.lead) : us <:+ R.lead :=
  (List.suffix_cons ..).trans hus

/-! ## Aliases -/

theorem agree_bareAlias (q q' : Query) (own : Text) {ts ts' : List Token} (hts : R.Front ts ts') :
    R.Agree (R.Leaves R.Front) (q.bareAlias own ts) (q'.bareAlias own ts') := by
  cases hts with
  | ahead hus =>
    simp only [Query.bareAlias]
    split
    · apply Except.Related.ok
      refine ⟨?_, .of_suffix (tail_suffix hus)⟩
      split
      · exact .none
      · exact .some rfl
    · exact .ok ⟨.none, .ahead hus⟩
  | group => exact .ok ⟨.none, .group⟩

theorem agree_aliasOf (q q' : Query) (own : Text) {ts ts' : List Token} (hts : R.Front ts ts') :
    R.Agree (R.Leaves R.Front) (q.aliasOf own ts) (q'.aliasOf own ts') := by
  cases hts with
  | ahead hus =>
    simp only [Query.aliasOf]
    split
    · exact agree_bareAlias q q' own (.of_suffix (tail_suffix hus))
    · exact agree_bareAlias q q' own (.ahead hus)
  | group => exact agree_bareAlias q q' own .group

section Readers

variable (hR : R.IsWellFormed)
include hR

/-- Behind a dot there is another token in front of the group. -/
theorem exists_of_dot {dot : Token} {us : List Token} (hus : dot :: us <:+ R.lead)
    (hdot : dot.isSymbol .dot) : ∃ t later, us = t :: later := by
  cases us with
  | nil =>
    rcases hus with ⟨lead, hlead⟩
    exact absurd hdot (hR.dot dot (by simp [← hlead]))
  | cons t later => exact ⟨t, later, rfl⟩

/-- Braces in front of the group end there. -/
theorem exists_skipBraces (skipped : Symbol → Bool) {us : List Token} (hus : us <:+ R.lead)
    (inside : Bool) (hinside : inside → ∃ t ∈ us, t.isSymbol .closeBrace) :
    ∃ vs, vs <:+ R.lead ∧ ∀ (q : Query) (t : Text),
      q.skipBraces skipped inside (us ++ R.group t) = .ok (vs ++ R.group t) := by
  induction us generalizing inside with
  | nil =>
    cases inside with
    | true =>
      rcases hinside rfl with ⟨t, ht, -⟩
      cases ht
    | false => exact ⟨[], List.nil_suffix, fun _ _ => rfl⟩
  | cons t us ih =>
    cases inside with
    | true =>
      rcases hinside rfl with ⟨closing, hmem, hclosing⟩
      apply ih (tail_suffix hus)
      intro hopen
      rcases List.mem_cons.1 hmem with rfl | hmem
      · simp [hclosing] at hopen
      · exact ⟨closing, hmem, hclosing⟩
    | false =>
      by_cases hskipped : ∃ s, t.kind = .symbol s ∧ (s.opensBrace && skipped s)
      · rcases hskipped with ⟨s, hs, hskipped⟩
        have hopens : s.opensBrace := (Bool.and_eq_true_iff.1 hskipped).1
        rcases ih (tail_suffix hus) true fun _ => hR.braces t us hus s hs hopens with
          ⟨vs, hvs, hread⟩
        refine ⟨vs, hvs, fun q u => ?_⟩
        rw [List.cons_append, Query.skipBraces, hs]
        simp only [hskipped, if_true, hread]
      · refine ⟨t :: us, hus, fun q u => ?_⟩
        rw [List.cons_append, Query.skipBraces]
        split
        · rename_i s hs
          rw [if_neg fun h => hskipped ⟨s, hs, h⟩]
        · rfl

theorem agree_skipAllBraces (q q' : Query) {ts ts' : List Token} (hts : R.Front ts ts') :
    R.Agree R.Front (q.skipAllBraces ts) (q'.skipAllBraces ts') := by
  cases hts with
  | ahead hus =>
    rcases exists_skipBraces hR (fun _ => true) hus false (by simp) with ⟨vs, hvs, hread⟩
    simp only [List.cons_append] at hread
    simp only [Query.skipAllBraces, hread]
    exact .ok (.of_suffix hvs)
  | group => exact .ok .group

variable {q q' : Query} (hq : R.Queries q q')
include hq

theorem agree_braces {opening : Token} {us : List Token} (hus : opening :: us <:+ R.lead)
    {s : Symbol} (hs : opening.kind = .symbol s) (hopens : s.opensBrace) :
    R.Agree (R.Leaves R.Front) (q.braces opening (us ++ R.group R.inner))
      (q'.braces opening (us ++ R.group R.inner')) := by
  rcases hR.braces opening us hus s hs hopens with ⟨t, ht, hclose⟩
  rcases Option.isSome_iff_exists.1 (Query.isSome_closingBrace? ht hclose) with
    ⟨⟨stop, rest⟩, hfound⟩
  have hrest := (Query.closingBrace?_suffix hfound).trans (tail_suffix hus)
  rcases Query.exists_of_closingBrace? hfound with ⟨inner, closing, rfl, rfl, -, -⟩
  have hopening := mem_lead hus
  have hclosing : closing ∈ R.lead := hus.subset (by simp)
  have hmerge := (aligned_span hopening).merge (aligned_span hclosing)
  have hslice := hq.slice (opening.span.merge closing.span) <|
    Nat.max_le.2 ⟨(span_of_mem_lead hopening).2, (span_of_mem_lead hclosing).2⟩
  simp only [Query.braces, Query.closingBrace?_append_of_some hfound]
  exact .ok ⟨⟨hslice, hmerge⟩, .of_suffix hrest⟩

omit hR in
theorem agree_atEnd {α : Type} {r : α → α → Prop} {x x' : α} (h : r x x') :
    R.Agree r (q.atEnd x) (q'.atEnd x') := by
  have hfault := hq.beyond.fault
  unfold Query.atEnd
  generalize q.fault = fault, q'.fault = fault' at hfault
  cases hfault with
  | none => exact .ok h
  | some hf =>
    exact .error (Realignable.mono R.beyond_le_places (LexicalFault.aligned_inTemplate hf))

/-- A group that is open in front of the group and closed behind it is passed over with it. -/
theorem agree_skipGroup {us : List Token} (hus : us <:+ R.lead) :
    R.Agree R.Rest (q.skipGroup (us ++ R.group R.inner))
      (q'.skipGroup (us ++ R.group R.inner')) := by
  cases hfound : Query.closingParen? 0 us with
  | some found =>
    have hrest := (Query.closingParen?_suffix hfound).trans hus
    simp only [Query.skipGroup, Query.closingParen?_append_of_some hfound]
    exact .ok (.front (.of_suffix hrest))
  | none =>
    -- The parenthesis is still open where the group begins, so what closes it is behind the group.
    rcases Query.exists_closingParen?_append hfound with ⟨deeper, hdeeper⟩
    have hclosing := Query.aligned_closingParen? R.aligned_tail deeper
    simp only [Query.skipGroup, hdeeper, closingParen?_group hR.inner,
      closingParen?_group hR.inner']
    generalize Query.closingParen? deeper (R.tail R.inner) = found,
      Query.closingParen? deeper (R.tail R.inner') = found' at hclosing
    cases hclosing with
    | none => exact agree_atEnd hq (.behind .nil)
    | some h => exact .ok (.behind h.2)

/-! ## The tables -/

theorem agree_tablePart (dotted : Bool) {part : Token} {us : List Token}
    (hus : part :: us <:+ R.lead) :
    R.Agree (R.Leaves R.Front) (q.tablePart dotted (part :: (us ++ R.group R.inner)))
      (q'.tablePart dotted (part :: (us ++ R.group R.inner'))) := by
  have hspan := aligned_span (mem_lead hus)
  have hrest := Front.of_suffix (tail_suffix hus)
  simp only [Query.tablePart, Query.next, bind, Except.bind]
  split
  · exact .ok ⟨⟨rfl, hspan, rfl⟩, hrest⟩
  · exact .ok ⟨⟨rfl, hspan, rfl⟩, hrest⟩
  · split
    · exact .ok ⟨⟨rfl, hspan, rfl⟩, hrest⟩
    · exact .error ⟨rfl, hspan⟩
  · rename_i s hs
    split
    · rename_i hopens
      exact (agree_braces hR hq hus hs hopens).map fun _ _ h => ⟨⟨h.1.1, h.1.2, rfl⟩, h.2⟩
    · exact .error ⟨rfl, hspan⟩

/-- The parts of a name, with the dots between them, all stand in front of the group. -/
theorem agree_dottedName {part part' : Text × Span × Bool} (hpart : Aligned R.places part part')
    {ts ts' : List Token} (hts : R.Front ts ts') :
    R.Agree (R.Leaves R.Front) (q.dottedName part ts) (q'.dottedName part' ts') := by
  induction hn : ts.length using Nat.strongRecOn generalizing part part' ts ts' with
  | ind n ih =>
    cases hts with
    | group =>
      rw [group, group, Query.dottedName_cons, Query.dottedName_cons]
      exact .ok ⟨hpart, .group⟩
    | @ahead t us hus =>
      rw [Query.dottedName_cons, Query.dottedName_cons]
      by_cases hdot : t.isSymbol .dot
      · rcases exists_of_dot hR hus hdot with ⟨u, later, rfl⟩
        have hnext := agree_tablePart hR hq true (tail_suffix hus)
        rw [if_pos hdot, if_pos hdot, List.cons_append, List.cons_append]
        generalize hs : q.tablePart true (u :: (later ++ R.group R.inner)) = next,
          q'.tablePart true (u :: (later ++ R.group R.inner')) = next' at hnext
        cases hnext with
        | error h => exact .error h
        | ok h =>
          have hshorter := Query.tablePart_length hs
          apply ih _ _ _ h.2 rfl
          · simp only [List.length_cons, List.length_append] at hn hshorter
            omega
          · exact ⟨h.1.1, hpart.2.1.merge h.1.2.1, h.1.2.2⟩
      · rw [if_neg hdot, if_neg hdot]
        exact .ok ⟨hpart, .ahead hus⟩

theorem agree_tableReference {ts ts' : List Token} (hts : R.Front ts ts') :
    R.Agree (R.Leaves R.Rest) (q.tableReference ts) (q'.tableReference ts') := by
  have hnested {us us' : List Token} (hus : R.Rest us us') :
      R.Agree (R.Leaves R.Rest)
        (q.aliasOf [] us >>= fun x => .ok ((none : Option QueryTable), x.2))
        (q'.aliasOf [] us' >>= fun x => .ok (none, x.2)) := by
    cases hus with
    | front h => exact (agree_aliasOf q q' [] h).bind fun _ _ h => .ok ⟨.none, .front h.2⟩
    | behind h =>
      have halias := Query.aligned_aliasOf hq.beyond h []
      exact (agree_of_aligned halias fun _ _ h => h).bind fun _ _ h => .ok ⟨.none, .behind h.2⟩
  cases hts with
  | group =>
    change R.Agree _ (q.skipGroup _ >>= _) (q'.skipGroup _ >>= _)
    rw [skipGroup_inner q hR.inner, skipGroup_inner q' hR.inner']
    exact hnested (.behind R.aligned_tail)
  | @ahead t us hus =>
    rw [Query.tableReference, Query.tableReference]
    by_cases hopen : t.isSymbol .openParen
    · rw [if_pos hopen, if_pos hopen]
      exact (agree_skipGroup hR hq (tail_suffix hus)).bind fun _ _ h => hnested h
    · rw [if_neg hopen, if_neg hopen]
      apply (agree_tablePart hR hq false hus).bind
      rintro ⟨part, rest⟩ ⟨part', rest'⟩ ⟨hpart, hrest⟩
      apply (agree_dottedName hR hq hpart hrest).bind
      rintro ⟨⟨name, span, isVerbatim⟩, after⟩ ⟨⟨name', span', isVerbatim'⟩, after'⟩ ⟨hname, hafter⟩
      obtain ⟨rfl, hspan, rfl⟩ : name = name' ∧ Aligned R.places span span' ∧
        isVerbatim = isVerbatim' := hname
      apply (agree_aliasOf q q' name hafter).bind
      rintro _ _ ⟨halias, hlast⟩
      exact .ok ⟨.some ⟨rfl, eq_of_aligned_names halias, rfl, hspan⟩, .front hlast⟩

theorem agree_tableReferences {ts ts' : List Token} (hts : R.Rest ts ts') :
    R.Agree (R.Leaves R.Rest) (q.tableReferences ts) (q'.tableReferences ts') := by
  induction hn : ts.length using Nat.strongRecOn generalizing ts ts' with
  | ind n ih =>
    cases hts with
    | behind h =>
      have halike := Query.aligned_tableReferences hq.beyond h
      exact agree_of_aligned halike fun _ _ => leaves_of_aligned
    | front h =>
      have hfirst := agree_tableReference hR hq h
      rw [Query.tableReferences_eq q, Query.tableReferences_eq q']
      generalize hs : q.tableReference ts = first, q'.tableReference ts' = first' at hfirst
      cases hfirst with
      | error h => exact .error h
      | @ok x x' h =>
        rcases x with ⟨table, rest⟩
        rcases x' with ⟨table', rest'⟩
        have htables := aligned_toList h.1
        have hshorter := Query.tableReference_length hs
        -- What follows a comma is a list of references again.
        have hlater {us us' : List Token} (hlt : us.length < rest.length) (hus : R.Rest us us') :
            R.Agree (R.Leaves R.Rest)
              ((q.tableReferences us).map fun x => (table.toList ++ x.1, x.2))
              ((q'.tableReferences us').map fun x => (table'.toList ++ x.1, x.2)) :=
          (ih _ (by omega) hus rfl).map fun _ _ h => ⟨aligned_append htables h.1, h.2⟩
        rcases h with ⟨-, hrest | hrest⟩
        · cases hrest with
          | group => exact .ok ⟨htables, .front .group⟩
          | @ahead t us hus =>
            by_cases hcomma : t.isSymbol .comma
            · simp only [if_pos hcomma]
              exact hlater (Nat.lt_succ_self _) (.front (.of_suffix (tail_suffix hus)))
            · simp only [if_neg hcomma]
              exact .ok ⟨htables, .front (.ahead hus)⟩
        · cases hrest with
          | nil => exact agree_atEnd hq ⟨htables, .behind .nil⟩
          | @cons t t' us us' ht hus =>
            simp only [ht.isSymbol]
            by_cases hcomma : t'.isSymbol .comma
            · simp only [if_pos hcomma]
              exact hlater (Nat.lt_succ_self _) (.behind hus)
            · simp only [if_neg hcomma]
              exact .ok ⟨htables, .behind (.cons ht hus)⟩

theorem agree_clauseStep {ts ts' : List Token} (hts : R.Rest ts ts') :
    R.Agree (Option.Rel (R.Leaves R.Rest)) (q.clauseStep ts) (q'.clauseStep ts') := by
  cases hts with
  | behind h =>
    refine agree_of_aligned (Query.aligned_clauseStep hq.beyond h) fun a a' ha => ?_
    cases ha with
    | none => exact .none
    | some h => exact .some (leaves_of_aligned h)
  | front h =>
    apply (agree_skipAllBraces hR q q' h).bind
    intro us us' hus
    cases hus with
    | group =>
      change R.Agree _ (q.skipGroup _ >>= _) (q'.skipGroup _ >>= _)
      rw [skipGroup_inner q hR.inner, skipGroup_inner q' hR.inner']
      exact .ok (.some ⟨.nil, .behind R.aligned_tail⟩)
    | @ahead t us hus =>
      have hrest := tail_suffix hus
      dsimp only
      split
      · rename_i hkind
        rcases exists_of_dot hR hus (by simp [Token.isSymbol, hkind]) with ⟨u, later, rfl⟩
        exact .ok (.some ⟨.nil, .front (.of_suffix (tail_suffix hrest))⟩)
      · exact (agree_skipGroup hR hq hrest).bind fun _ _ h => .ok (.some ⟨.nil, h⟩)
      · have hlist := agree_tableReferences hR hq (.front (.of_suffix hrest))
        exact hlist.bind fun _ _ h => .ok (.some h)
      · apply (agree_tableReference hR hq (.of_suffix hrest)).bind
        rintro _ _ ⟨htable, h⟩
        exact .ok (.some ⟨aligned_toList htable, h⟩)
      · exact .ok (.some ⟨.nil, .front (.of_suffix hrest)⟩)

theorem agree_clauseTables {ts ts' : List Token} (hts : R.Rest ts ts') :
    R.Agree (Aligned R.places) (q.clauseTables ts) (q'.clauseTables ts') := by
  induction hn : ts.length using Nat.strongRecOn generalizing ts ts' with
  | ind n ih =>
    have hstep := agree_clauseStep hR hq hts
    rw [Query.clauseTables_eq q, Query.clauseTables_eq q']
    generalize hs : q.clauseStep ts = step, q'.clauseStep ts' = step' at hstep
    cases hstep with
    | error h => exact .error h
    | ok h =>
      cases h with
      | none => exact .ok .nil
      | some h =>
        exact (ih _ (hn ▸ Query.clauseStep_length hs) h.2 rfl).map fun _ _ hlater =>
          aligned_append h.1 hlater

theorem agree_tableList {keyword : Token} {us : List Token} (hus : keyword :: us <:+ R.lead) :
    R.Agree (Aligned R.places) (q.tableList (keyword :: (us ++ R.group R.inner)))
      (q'.tableList (keyword :: (us ++ R.group R.inner'))) := by
  apply (agree_clauseTables hR hq (.front (.ahead hus))).bind
  intro tables tables' htables
  have hempty : tables.isEmpty = tables'.isEmpty := by cases htables <;> rfl
  rw [hempty]
  by_cases h : tables'.isEmpty
  · rw [if_pos h, if_pos h]
    exact .error ⟨rfl, aligned_span (mem_lead hus)⟩
  · rw [if_neg h, if_neg h]
    exact .ok htables

end Readers

/-! ## The analysis -/

theorem shape_ofText (t : Text) : Query.shape .sql (.ofText t) =
    (((Query.ofText t).skipAllBraces (Lexicon.sql.read (.ofText t)).tokens >>=
      (Query.ofText t).selectList) >>= fun x =>
        (Query.ofText t).tableList x.2 >>= fun tables =>
          match QueryField.bindAll tables x.1 with
          | (_, some fault) => .error fault
          | (bound, none) => .ok ⟨bound, tables⟩) := by
  rw [bind_assoc]
  rfl

/-- **What a group holds is irrelevant to the shape of a query.** Either way there is the same
fault, or there are the same fields and tables, but for the places behind the group. -/
theorem aligned_shape_write (R : Regrouping) (hR : R.IsWellFormed) :
    Aligned R.places (Query.shape .sql (.ofText (R.write R.inner)))
      (Query.shape .sql (.ofText (R.write R.inner'))) := by
  have hq : R.Queries (Query.ofText (R.write R.inner)) (Query.ofText (R.write R.inner')) :=
    ⟨hR.aligned_query, fun s hs => (slice_write hs _).trans (slice_write hs _).symm⟩
  have hselected := hR.aligned_selected
  rw [shape_ofText, shape_ofText, read_write hR.before hR.inner, read_write hR.before hR.inner']
  dsimp only
  rw [hR.selected_write, hR.selected_write]
  generalize hx : ((Query.ofText R.before).skipAllBraces R.lead >>=
    (Query.ofText R.before).selectList) = x at hselected
  cases hselected with
  | error h => exact .error (Realignable.mono R.upTo_le_places h)
  | @ok x x' h =>
    rcases x with ⟨fields, clauses⟩
    rcases Query.exists_of_selected (Query.holds_read (.ofText R.before)) hx with
      ⟨keyword, us, rfl, hsuffix⟩
    have hfields := Realignable.mono R.upTo_le_places h.1
    apply aligned_bind (agree_tableList hR hq hsuffix)
    intro tables tables' htables
    exact QueryShape.aligned_bound htables hfields

theorem aligned_shape_write_subquery :
    let R : Regrouping :=
      ⟨"SELECT x.a, b FROM #\x7bs\x7d x WHERE (a IN ".toList,
        "SELECT c FROM u %\x7bif d\x7dJOIN v%\x7bendif\x7d".toList, "1, (2)".toList,
        ") JOIN w y".toList⟩
    let s (n : Nat) : QueryShape :=
      ⟨[⟨some "#\x7bs\x7d".toList, ['a'], none, false, false, ⟨7, 10⟩⟩,
          ⟨some "#\x7bs\x7d".toList, ['b'], none, false, false, ⟨12, 13⟩⟩],
        [⟨"#\x7bs\x7d".toList, some ['x'], true, ⟨19, 23⟩⟩,
          ⟨['w'], some ['y'], false, ⟨n, n + 1⟩⟩]⟩
    R.IsWellFormed ∧ Query.shape .sql (.ofText (R.write R.inner)) = .ok (s 84) ∧
      Query.shape .sql (.ofText (R.write R.inner')) = .ok (s 53) ∧
      Aligned R.places (s 84) (s 53) := by
  intro R s
  have hselected : ((Query.ofText R.before).skipAllBraces R.lead >>=
      (Query.ofText R.before).selectList).toOption.isSome := by decide +kernel
  have hbraces : ∀ ts ∈ R.lead.tails, ∀ opening ∈ ts.head?, ∀ s ∈ Symbol.all,
      opening.kind = .symbol s → s.opensBrace → ∃ t ∈ ts.tail, t.isSymbol .closeBrace := by
    decide +kernel
  have hR : R.IsWellFormed :=
    { before := by decide +kernel
      select e he := by rw [he] at hselected; cases hselected
      braces opening later h s := hbraces _ ((List.mem_tails _ _).2 h) opening rfl s s.mem_all
      dot := by decide +kernel
      inner := by decide +kernel
      inner' := by decide +kernel }
  have hs : Query.shape .sql (.ofText (R.write R.inner)) = .ok (s 84) := by decide +kernel
  have hs' : Query.shape .sql (.ofText (R.write R.inner')) = .ok (s 53) := by decide +kernel
  have haligned := aligned_shape_write R hR
  rw [hs, hs'] at haligned
  cases haligned with
  | ok h => exact ⟨hR, hs, hs', h⟩

end Regrouping

end QueryTemplate
