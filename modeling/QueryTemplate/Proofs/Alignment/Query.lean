import QueryTemplate.Proofs.Alignment.Token
import QueryTemplate.Query.Analysis

/-! # Queries in aligned texts

Every reader of the parts of a query reads the same from aligned tokens. The text of a placeholder
or directive is cut out of the source by its place, so the sources have to agree on such cuts.
-/

namespace QueryTemplate

instance : Alignable TemplateCause := .plain
instance : Alignable Keyword := .plain

structure QueryField.Alike (A : Alignment) (f f' : QueryField) : Prop where
  table : f.table = f'.table
  name : f.name = f'.name
  aliasName : f.aliasName = f'.aliasName
  isAggregate : f.isAggregate = f'.isAggregate
  isVerbatim : f.isVerbatim = f'.isVerbatim
  span : Aligned A f.span f'.span

instance : Alignable QueryField := ⟨QueryField.Alike⟩

structure QueryTable.Alike (A : Alignment) (t t' : QueryTable) : Prop where
  name : t.name = t'.name
  aliasName : t.aliasName = t'.aliasName
  isVerbatim : t.isVerbatim = t'.isVerbatim
  span : Aligned A t.span t'.span

instance : Alignable QueryTable := ⟨QueryTable.Alike⟩

structure QueryShape.Alike (A : Alignment) (s s' : QueryShape) : Prop where
  fields : Aligned A s.fields s'.fields
  tables : Aligned A s.tables s'.tables

instance : Alignable QueryShape := ⟨QueryShape.Alike⟩

instance : Realignable TemplateCause := ⟨fun _ h => h⟩

instance : Realignable QueryField :=
  ⟨fun hAB h => ⟨h.table, h.name, h.aliasName, h.isAggregate, h.isVerbatim,
    Realignable.mono hAB h.span⟩⟩

instance : Realignable QueryTable :=
  ⟨fun hAB h => ⟨h.name, h.aliasName, h.isVerbatim, Realignable.mono hAB h.span⟩⟩

/-- Matched spans cut the same texts out of the sources, and the ends and the faults behind the last
tokens are matched. -/
structure Query.Alike (A : Alignment) (q q' : Query) : Prop where
  stop : A.Matches q.source.stop q'.source.stop
  slice {s s' : Span} : Aligned A s s' → q.source.slice s = q'.source.slice s'
  fault : Aligned A q.fault q'.fault

instance : Alignable Query := ⟨Query.Alike⟩

section

variable {A : Alignment}

theorem LexicalFault.aligned_inTemplate {f f' : LexicalFault} (h : Aligned A f f') :
    Aligned A f.inTemplate f'.inTemplate :=
  ⟨congrArg TemplateCause.lexical h.value, h.span⟩

theorem eq_of_aligned_names {x x' : Option Text} (h : Aligned A x x') : x = x' := by
  cases h with
  | none => rfl
  | some h => exact congrArg some h

theorem aligned_ite {α : Type} [Alignable α] {c : Prop} [Decidable c] {x x' y y' : α}
    (ht : c → Aligned A x x') (he : ¬c → Aligned A y y') :
    Aligned A (if c then x else y) (if c then x' else y') := by
  by_cases h : c
  · simpa only [if_pos h] using ht h
  · simpa only [if_neg h] using he h

namespace Token.Alike

variable {t t' : Token} (h : Aligned A t t')
include h

theorem isSymbol (s : Symbol) : t.isSymbol s = t'.isSymbol s := by
  rw [Token.isSymbol, Token.isSymbol, h.kind]

theorem isKeyword (k : Keyword) : t.isKeyword k = t'.isKeyword k := by
  rw [Token.isKeyword, Token.isKeyword, h.kind]

theorem name? : t.name? = t'.name? := by
  rw [Token.name?, Token.name?, h.kind, h.lexeme]

theorem label : t.label = t'.label := by
  rw [Token.label, Token.label, h.name?, h.lexeme]

end Token.Alike

end

namespace Query

variable {A : Alignment} {q q' : Query} (hq : Aligned A q q')
include hq

theorem aligned_endFault (expected : Expectation) :
    Aligned A (q.endFault expected) (q'.endFault expected) := by
  have hfault := hq.fault
  have hstop := hq.stop
  unfold endFault
  generalize q.fault = fault, q'.fault = fault' at hfault
  cases hfault with
  | none => exact ⟨rfl, hstop, hstop⟩
  | some h => exact LexicalFault.aligned_inTemplate h

theorem aligned_atEnd {α : Type} [Alignable α] {x x' : α} (h : Aligned A x x') :
    Aligned A (q.atEnd x) (q'.atEnd x') := by
  have hfault := hq.fault
  unfold atEnd
  generalize q.fault = fault, q'.fault = fault' at hfault
  cases hfault with
  | none => exact .ok h
  | some hf => exact .error (LexicalFault.aligned_inTemplate hf)

variable {ts ts' : List Token} (hts : Aligned A ts ts')
include hts

theorem aligned_nextIs (s : Symbol) : Aligned A (q.nextIs s ts) (q'.nextIs s ts') := by
  cases hts with
  | nil => exact aligned_atEnd hq rfl
  | cons ht _ => exact .ok (ht.isSymbol s)

theorem aligned_next (expected : Expectation) :
    Aligned A (q.next expected ts) (q'.next expected ts') := by
  cases hts with
  | nil => exact .error (aligned_endFault hq _)
  | cons ht hrest => exact .ok ⟨ht, hrest⟩

theorem aligned_symbol (s : Symbol) : Aligned A (q.symbol s ts) (q'.symbol s ts') := by
  cases hts with
  | nil => exact .error (aligned_endFault hq _)
  | cons ht hrest =>
    simp only [symbol, ht.isSymbol]
    refine aligned_ite (fun _ => .ok ⟨ht, hrest⟩) fun _ => .error ⟨?_, ht.span⟩
    rw [ht.kind]
    rfl

omit hq in
theorem aligned_closingBrace? : Aligned A (closingBrace? ts) (closingBrace? ts') := by
  induction hts with
  | nil => exact .none
  | cons ht hrest ih =>
    simp only [closingBrace?, ht.isSymbol]
    exact aligned_ite (fun _ => .some ⟨ht.span, hrest⟩) fun _ => ih

theorem aligned_braces {t t' : Token} (ht : Aligned A t t') :
    Aligned A (q.braces t ts) (q'.braces t' ts') := by
  have hclosing := aligned_closingBrace? hts
  unfold braces
  generalize closingBrace? ts = found, closingBrace? ts' = found' at hclosing
  cases hclosing with
  | none => exact .error (aligned_endFault hq _)
  | some h =>
    have hspan := ht.span.merge h.1
    exact .ok ⟨⟨hq.slice hspan, hspan⟩, h.2⟩

theorem aligned_skipBraces (skipped : Symbol → Bool) (inside : Bool) :
    Aligned A (q.skipBraces skipped inside ts) (q'.skipBraces skipped inside ts') := by
  induction hts generalizing inside with
  | nil =>
    cases inside with
    | false => exact aligned_atEnd hq .nil
    | true => exact .error (aligned_endFault hq _)
  | @cons t t' _ _ ht hrest ih =>
    cases inside with
    | true =>
      simp only [skipBraces, ht.isSymbol]
      exact ih _
    | false =>
      simp only [skipBraces, ht.kind]
      split
      · exact aligned_ite (fun _ => ih _) fun _ => .ok (.cons ht hrest)
      · exact .ok (.cons ht hrest)

omit hq in
theorem aligned_closingParen? (depth : Nat) :
    Aligned A (closingParen? depth ts) (closingParen? depth ts') := by
  induction hts generalizing depth with
  | nil => exact .none
  | cons ht hrest ih =>
    simp only [closingParen?, ht.kind]
    split
    · exact ih _
    · cases depth with
      | zero => exact .some ⟨ht.span, hrest⟩
      | succ depth => exact ih _
    · exact ih _

theorem aligned_groupEnd (depth : Nat) :
    Aligned A (q.groupEnd depth ts) (q'.groupEnd depth ts') := by
  have hclosing := aligned_closingParen? hts depth
  unfold groupEnd
  generalize closingParen? depth ts = found, closingParen? depth ts' = found' at hclosing
  cases hclosing with
  | none => exact .error (aligned_endFault hq _)
  | some h => exact .ok h

theorem aligned_skipGroup : Aligned A (q.skipGroup ts) (q'.skipGroup ts') := by
  have hclosing := aligned_closingParen? hts 0
  unfold skipGroup
  generalize closingParen? 0 ts = found, closingParen? 0 ts' = found' at hclosing
  cases hclosing with
  | none => exact aligned_atEnd hq .nil
  | some h => exact .ok h.2

theorem aligned_bareAlias (own : Text) :
    Aligned A (q.bareAlias own ts) (q'.bareAlias own ts') := by
  cases hts with
  | nil => exact aligned_atEnd hq ⟨.none, .nil⟩
  | cons ht hrest =>
    simp only [bareAlias, ht.name?]
    split
    · refine .ok ⟨?_, hrest⟩
      exact aligned_ite (fun _ => .none) fun _ => .some rfl
    · exact .ok ⟨.none, .cons ht hrest⟩

theorem aligned_aliasOf (own : Text) :
    Aligned A (q.aliasOf own ts) (q'.aliasOf own ts') := by
  cases hts with
  | nil => exact aligned_atEnd hq ⟨.none, .nil⟩
  | cons ht hrest =>
    simp only [aliasOf, ht.isKeyword]
    exact aligned_ite (fun _ => aligned_bareAlias hq hrest own)
      fun _ => aligned_bareAlias hq (.cons ht hrest) own

/-! ## The select list -/

theorem aligned_qualifiedColumn {t t' : Token} (ht : Aligned A t t') :
    Aligned A (q.qualifiedColumn t ts) (q'.qualifiedColumn t' ts') := by
  apply aligned_bind (aligned_next hq hts _)
  rintro ⟨column, rest⟩ ⟨column', rest'⟩ h
  obtain ⟨hc, hrest⟩ : Aligned A column column' ∧ Aligned A rest rest' := h
  have hqualify {f f' : QueryField} (hf : Aligned A f f') :
      Aligned A { f with table := some t.label, span := t.span.merge f.span }
        { f' with table := some t'.label, span := t'.span.merge f'.span } :=
    ⟨congrArg some ht.label, hf.name, hf.aliasName, hf.isAggregate, hf.isVerbatim,
      ht.span.merge hf.span⟩
  simp only [hc.kind]
  split
  · exact .ok ⟨hqualify ⟨rfl, rfl, rfl, rfl, rfl, hc.span⟩, hrest⟩
  · refine aligned_ite (fun _ => ?_) fun _ => .error ⟨rfl, hc.span⟩
    refine aligned_map (aligned_braces hq hrest hc) fun x x' ⟨hx, hafter⟩ => ?_
    exact ⟨hqualify ⟨rfl, hx.1, rfl, rfl, rfl, hx.2⟩, hafter⟩
  · exact .ok ⟨hqualify ⟨rfl, hc.label, rfl, rfl, rfl, hc.span⟩, hrest⟩

theorem aligned_columnAt {t t' : Token} (ht : Aligned A t t') :
    Aligned A (q.columnAt t ts) (q'.columnAt t' ts') := by
  have hcolumn : Aligned A (QueryField.column t.label t.span) (.column t'.label t'.span) :=
    ⟨rfl, ht.label, rfl, rfl, rfl, ht.span⟩
  cases hts with
  | nil => exact aligned_atEnd hq ⟨hcolumn, .nil⟩
  | cons hu hrest =>
    simp only [columnAt, hu.isSymbol]
    exact aligned_ite (fun _ => aligned_qualifiedColumn hq hrest ht)
      fun _ => .ok ⟨hcolumn, .cons hu hrest⟩

theorem aligned_columnInCall {t t' : Token} (ht : Aligned A t t') (depth : Nat) :
    Aligned A (q.columnInCall t depth ts) (q'.columnInCall t' depth ts') := by
  induction hts generalizing depth with
  | nil => exact .error (aligned_endFault hq _)
  | @cons u u' rest rest' hu hrest ih =>
    have hopen : (rest.head?.any fun v => v.isSymbol .openParen) =
        rest'.head?.any fun v => v.isSymbol .openParen := by
      cases hrest with
      | nil => rfl
      | cons hv _ => exact hv.isSymbol _
    simp only [columnInCall, hu.kind, hu.lexeme, hopen, ht.lexeme]
    split
    · exact ih _
    · cases depth with
      | zero => exact .error ⟨rfl, ht.span.merge hu.span⟩
      | succ depth => exact ih _
    · refine aligned_ite (fun _ => ?_) fun _ => ih _
      apply aligned_bind (aligned_columnAt hq hrest hu)
      rintro ⟨f, _⟩ ⟨f', _⟩ ⟨hf, hafter⟩
      apply aligned_bind (aligned_groupEnd hq hafter _)
      rintro _ _ ⟨hstop, hlast⟩
      exact .ok ⟨⟨hf.table, hf.name, hf.aliasName, hf.isAggregate, hf.isVerbatim,
        ht.span.merge hstop⟩, hlast⟩
    · exact ih _

theorem aligned_call {t t' : Token} (ht : Aligned A t t') :
    Aligned A (q.call t ts) (q'.call t' ts') :=
  aligned_bind (aligned_symbol hq hts _) fun _ _ h => aligned_columnInCall hq h.2 ht 0

theorem aligned_countOf {t t' : Token} (ht : Aligned A t t') :
    Aligned A (q.countOf t ts) (q'.countOf t' ts') := by
  refine aligned_bind (aligned_symbol hq hts _) fun _ _ h => ?_
  apply aligned_bind (aligned_groupEnd hq h.2 0)
  rintro _ _ ⟨hstop, hrest⟩
  exact .ok ⟨⟨rfl, rfl, rfl, rfl, rfl, ht.span.merge hstop⟩, hrest⟩

theorem aligned_fieldAt {t t' : Token} (ht : Aligned A t t') :
    Aligned A (q.fieldAt t ts) (q'.fieldAt t' ts') := by
  have hfault : Aligned A (⟨.unexpectedToken .field (.token t.kind), t.span⟩ : TemplateFault)
      ⟨.unexpectedToken .field (.token t'.kind), t'.span⟩ := ⟨by rw [ht.kind]; rfl, ht.span⟩
  have hcolumn := aligned_columnAt hq hts ht
  have hcall := aligned_call hq hts ht
  unfold fieldAt
  rw [ht.kind, ht.lexeme] at *
  split
  · refine aligned_bind (aligned_nextIs hq hts _) fun b b' hb => ?_
    obtain rfl : b = b' := hb
    exact aligned_ite (fun _ => hcall) fun _ => hcolumn
  · refine aligned_bind (aligned_nextIs hq hts _) fun b b' hb => ?_
    obtain rfl : b = b' := hb
    exact aligned_ite (fun _ => aligned_countOf hq hts ht) fun _ => hcolumn
  · exact .ok ⟨⟨rfl, rfl, rfl, rfl, rfl, ht.span⟩, hts⟩
  · refine aligned_ite (fun _ => ?_) fun _ => .error hfault
    apply aligned_map (aligned_braces hq hts ht)
    rintro _ _ ⟨hx, hrest⟩
    exact ⟨⟨rfl, hx.1, rfl, rfl, rfl, hx.2⟩, hrest⟩
  · refine aligned_ite (fun _ => .ok ⟨⟨rfl, rfl, rfl, rfl, rfl, ht.span⟩, hts⟩) fun _ => ?_
    refine aligned_bind (aligned_nextIs hq hts _) fun b b' hb => ?_
    obtain rfl : b = b' := hb
    exact aligned_ite (fun _ => hcall) fun _ => hcolumn
  · exact hcolumn
  · exact .error hfault

theorem aligned_field {t t' : Token} (ht : Aligned A t t') :
    Aligned A (q.field t ts) (q'.field t' ts') := by
  apply aligned_bind (aligned_fieldAt hq hts ht)
  rintro ⟨f, rest⟩ ⟨f', rest'⟩ h
  obtain ⟨hf, hrest⟩ : Aligned A f f' ∧ Aligned A rest rest' := h
  dsimp only
  rw [hf.name]
  apply aligned_bind (aligned_aliasOf hq hrest _)
  rintro ⟨a, _⟩ ⟨a', _⟩ ⟨ha, hafter⟩
  refine .ok ⟨⟨hf.table, rfl, eq_of_aligned_names ha, hf.isAggregate, hf.isVerbatim, hf.span⟩, ?_⟩
  exact hafter

theorem aligned_itemEnd (passing : Passing) :
    Aligned A (q.itemEnd passing ts) (q'.itemEnd passing ts') := by
  induction hts generalizing passing with
  | nil =>
    cases passing with
    | item => exact aligned_atEnd hq .nil
    | braces => exact .error (aligned_endFault hq _)
    | group depth => exact .error (aligned_endFault hq _)
  | cons ht hrest ih =>
    cases passing with
    | item =>
      simp only [itemEnd, ht.kind]
      split
      · exact .ok (.cons ht hrest)
      · exact .ok (.cons ht hrest)
      · exact ih _
      · exact ih _
      · exact ih _
    | braces =>
      simp only [itemEnd, ht.isSymbol]
      exact ih _
    | group depth =>
      simp only [itemEnd, ht.kind]
      split
      · exact ih _
      · cases depth with
        | zero => exact ih _
        | succ depth => exact ih _
      · exact ih _

omit hq hts in
theorem isQuantifier_eq {t t' : Token} (ht : Aligned A t t') :
    isQuantifier t = isQuantifier t' := by
  rw [isQuantifier, isQuantifier, ht.kind, ht.lexeme]

theorem aligned_skipQuantifier : Aligned A (q.skipQuantifier ts) (q'.skipQuantifier ts') := by
  cases hts with
  | nil => exact aligned_atEnd hq .nil
  | cons ht hrest =>
    cases hrest with
    | nil =>
      simp only [skipQuantifier, isQuantifier_eq ht]
      exact aligned_ite (fun _ => aligned_atEnd hq (.cons ht .nil)) fun _ => .ok (.cons ht .nil)
    | cons hu hrest =>
      simp only [skipQuantifier, isQuantifier_eq ht, hu.isSymbol, hu.isKeyword]
      exact .ok (aligned_ite (fun _ => .cons hu hrest) fun _ => .cons ht (.cons hu hrest))

inductive SelectStep.Alike (A : Alignment) : SelectStep → SelectStep → Prop where
  | item {f f' : Option QueryField} {rest rest' : List Token} : Aligned A f f' →
      Aligned A rest rest' → SelectStep.Alike A (.item f rest) (.item f' rest')
  | done {clauses clauses' : List Token} : Aligned A clauses clauses' →
      SelectStep.Alike A (.done clauses) (.done clauses')

instance : Alignable SelectStep := ⟨SelectStep.Alike⟩

theorem aligned_selectStep : Aligned A (q.selectStep ts) (q'.selectStep ts') := by
  refine aligned_bind (aligned_skipBraces hq hts _ _) fun us us' hus => ?_
  cases hus with
  | nil => exact .error ⟨rfl, .point hq.stop⟩
  | cons ht hrest =>
    simp only [ht.isKeyword, ht.isSymbol]
    refine aligned_ite (fun _ => .ok (.done (.cons ht hrest))) fun _ => ?_
    refine aligned_ite (fun _ => .ok (.item .none hrest)) fun _ => ?_
    apply aligned_bind (aligned_field hq hrest ht)
    rintro _ _ ⟨hf, hafter⟩
    refine aligned_bind (aligned_itemEnd hq hafter _) fun _ _ hend => ?_
    exact .ok (.item (.some hf) hend)

omit hq hts in
theorem selectItems_eq (q : Query) (ts : List Token) :
    q.selectItems ts = match q.selectStep ts with
      | .error fault => .error fault
      | .ok (.done clauses) => .ok ([], clauses)
      | .ok (.item f rest) =>
        (q.selectItems rest).map fun (fields, clauses) => (f.toList ++ fields, clauses) := by
  rw [selectItems]
  split <;> simp_all

theorem aligned_selectItems : Aligned A (q.selectItems ts) (q'.selectItems ts') := by
  induction hn : ts.length using Nat.strongRecOn generalizing ts ts' with
  | ind n ih =>
    have hstep := aligned_selectStep hq hts
    rw [selectItems_eq q, selectItems_eq q']
    generalize hs : q.selectStep ts = step, q'.selectStep ts' = step' at hstep
    cases hstep with
    | error h => exact .error h
    | ok h =>
      cases h with
      | done h => exact .ok ⟨.nil, h⟩
      | item hf hrest =>
        have hlater := ih _ (hn ▸ selectStep_length hs) hrest rfl
        exact aligned_map hlater fun _ _ ⟨hfields, hclauses⟩ =>
          ⟨aligned_append (aligned_toList hf) hfields, hclauses⟩

theorem aligned_selectList : Aligned A (q.selectList ts) (q'.selectList ts') := by
  apply aligned_bind (aligned_next hq hts _)
  rintro ⟨select, rest⟩ ⟨select', rest'⟩ h
  obtain ⟨hselect, hrest⟩ : Aligned A select select' ∧ Aligned A rest rest' := h
  dsimp only
  rw [hselect.isKeyword, hselect.kind]
  refine aligned_ite (fun _ => .error ⟨rfl, hselect.span⟩) fun _ => ?_
  refine aligned_bind (aligned_skipQuantifier hq hrest) fun _ _ hafter => ?_
  apply aligned_bind (aligned_selectItems hq hafter)
  rintro ⟨fields, _⟩ ⟨fields', _⟩ h
  obtain ⟨hfields, hclauses⟩ := h
  have hempty : fields.isEmpty = fields'.isEmpty := by cases hfields <;> rfl
  dsimp only
  rw [hempty]
  exact aligned_ite (fun _ => .error ⟨rfl, hselect.span⟩) fun _ => .ok ⟨hfields, hclauses⟩

/-! ## The tables -/

omit hts in
theorem aligned_tablePart (hts : Aligned A ts ts') (dotted : Bool) :
    Aligned A (q.tablePart dotted ts) (q'.tablePart dotted ts') := by
  apply aligned_bind (aligned_next hq hts _)
  rintro ⟨part, rest⟩ ⟨part', rest'⟩ h
  obtain ⟨hpart, hrest⟩ : Aligned A part part' ∧ Aligned A rest rest' := h
  have hrefused : Aligned A
      (⟨.unexpectedToken .tableName (.token part.kind), part.span⟩ : TemplateFault)
      ⟨.unexpectedToken .tableName (.token part'.kind), part'.span⟩ :=
    ⟨by rw [hpart.kind]; rfl, hpart.span⟩
  dsimp only
  rw [hpart.kind] at *
  split
  · exact .ok ⟨⟨hpart.label, hpart.span, rfl⟩, hrest⟩
  · exact .ok ⟨⟨hpart.label, hpart.span, rfl⟩, hrest⟩
  · exact aligned_ite (fun _ => .ok ⟨⟨hpart.lexeme, hpart.span, rfl⟩, hrest⟩)
      fun _ => .error hrefused
  · refine aligned_ite (fun _ => ?_) fun _ => .error hrefused
    apply aligned_map (aligned_braces hq hrest hpart)
    rintro _ _ ⟨hx, hafter⟩
    exact ⟨⟨hx.1, hx.2, rfl⟩, hafter⟩

omit hq hts in
theorem dottedName_cons (q : Query) (part : Text × Span × Bool) (t : Token) (rest : List Token) :
    q.dottedName part (t :: rest) =
      if t.isSymbol .dot then
        match q.tablePart true rest with
        | .error fault => .error fault
        | .ok ((name, span, isVerbatim), after) =>
          q.dottedName (name, part.2.1.merge span, isVerbatim) after
      else .ok (part, t :: rest) := by
  rw [dottedName]
  split
  · split <;> simp_all
  · rfl

theorem aligned_dottedName {part part' : Text × Span × Bool} (hpart : Aligned A part part') :
    Aligned A (q.dottedName part ts) (q'.dottedName part' ts') := by
  induction hn : ts.length using Nat.strongRecOn generalizing part part' ts ts' with
  | ind n ih =>
    cases hts with
    | nil =>
      rw [dottedName, dottedName]
      exact aligned_atEnd hq ⟨hpart, .nil⟩
    | @cons t t' rest rest' ht hrest =>
      rw [dottedName_cons, dottedName_cons, ht.isSymbol]
      refine aligned_ite (fun _ => ?_) fun _ => .ok ⟨hpart, .cons ht hrest⟩
      have hnext := aligned_tablePart hq hrest true
      generalize hs : q.tablePart true rest = next, q'.tablePart true rest' = next' at hnext
      cases hnext with
      | error h => exact .error h
      | ok h =>
        have hshorter := tablePart_length hs
        exact ih _ (by simp at hn; omega) h.2 ⟨h.1.1, hpart.2.1.merge h.1.2.1, h.1.2.2⟩ rfl

theorem aligned_tableReference : Aligned A (q.tableReference ts) (q'.tableReference ts') := by
  cases hts with
  | nil => exact .error (aligned_endFault hq _)
  | @cons t t' rest rest' ht hrest =>
    simp only [tableReference, ht.isSymbol]
    refine aligned_ite (fun _ => ?_) fun _ => ?_
    · refine aligned_bind (aligned_skipGroup hq hrest) fun _ _ hafter => ?_
      apply aligned_bind (aligned_aliasOf hq hafter _)
      rintro _ _ ⟨_, hlast⟩
      exact .ok ⟨.none, hlast⟩
    · apply aligned_bind (aligned_tablePart hq (.cons ht hrest) _)
      rintro _ _ ⟨hpart, h⟩
      apply aligned_bind (aligned_dottedName hq h hpart)
      rintro ⟨x, _⟩ ⟨x', _⟩ ⟨hx, h⟩
      obtain ⟨name, span, isVerbatim⟩ := x
      obtain ⟨name', span', isVerbatim'⟩ := x'
      obtain ⟨hname, hspan, hverbatim⟩ :
        name = name' ∧ Aligned A span span' ∧ isVerbatim = isVerbatim' := hx
      subst hname
      apply aligned_bind (aligned_aliasOf hq h _)
      rintro _ _ ⟨halias, hlast⟩
      exact .ok ⟨.some ⟨rfl, eq_of_aligned_names halias, hverbatim, hspan⟩, hlast⟩

omit hq hts in
theorem tableReferences_eq (q : Query) (ts : List Token) :
    q.tableReferences ts = match q.tableReference ts with
      | .error fault => .error fault
      | .ok (table, []) => q.atEnd (table.toList, [])
      | .ok (table, t :: rest) =>
        if t.isSymbol .comma then
          (q.tableReferences rest).map fun (tables, after) => (table.toList ++ tables, after)
        else .ok (table.toList, t :: rest) := by
  rw [tableReferences]
  split <;> simp_all

theorem aligned_tableReferences :
    Aligned A (q.tableReferences ts) (q'.tableReferences ts') := by
  induction hn : ts.length using Nat.strongRecOn generalizing ts ts' with
  | ind n ih =>
    have hfirst := aligned_tableReference hq hts
    rw [tableReferences_eq q, tableReferences_eq q']
    generalize hs : q.tableReference ts = first, q'.tableReference ts' = first' at hfirst
    cases hfirst with
    | error h => exact .error h
    | @ok x x' h =>
      obtain ⟨table, rest⟩ := x
      obtain ⟨table', rest'⟩ := x'
      obtain ⟨htable, hrest⟩ : Aligned A table table' ∧ Aligned A rest rest' := h
      cases hrest with
      | nil => exact aligned_atEnd hq ⟨aligned_toList htable, .nil⟩
      | cons ht hrest =>
        have hshorter := tableReference_length hs
        dsimp only
        rw [ht.isSymbol]
        refine aligned_ite (fun _ => ?_) fun _ => .ok ⟨aligned_toList htable, .cons ht hrest⟩
        refine aligned_map (ih _ ?_ hrest rfl) fun _ _ ⟨htables, hafter⟩ =>
          ⟨aligned_append (aligned_toList htable) htables, hafter⟩
        simp only [List.length_cons] at hshorter
        omega

theorem aligned_clauseStep : Aligned A (q.clauseStep ts) (q'.clauseStep ts') := by
  refine aligned_bind (aligned_skipBraces hq hts _ _) fun us us' hus => ?_
  cases hus with
  | nil => exact .ok .none
  | @cons t t' rest rest' ht hrest =>
    simp only [ht.kind]
    split
    · cases hrest with
      | nil => exact aligned_atEnd hq .none
      | cons _ hafter => exact .ok (.some ⟨.nil, hafter⟩)
    · exact aligned_bind (aligned_skipGroup hq hrest) fun _ _ h => .ok (.some ⟨.nil, h⟩)
    · exact aligned_bind (aligned_tableReferences hq hrest) fun _ _ h => .ok (.some h)
    · apply aligned_bind (aligned_tableReference hq hrest)
      rintro _ _ ⟨htable, h⟩
      exact .ok (.some ⟨aligned_toList htable, h⟩)
    · exact .ok (.some ⟨.nil, hrest⟩)

omit hq hts in
theorem clauseTables_eq (q : Query) (ts : List Token) :
    q.clauseTables ts = match q.clauseStep ts with
      | .error fault => .error fault
      | .ok none => .ok []
      | .ok (some (tables, rest)) => (q.clauseTables rest).map (tables ++ ·) := by
  rw [clauseTables]
  split <;> simp_all

theorem aligned_clauseTables : Aligned A (q.clauseTables ts) (q'.clauseTables ts') := by
  induction hn : ts.length using Nat.strongRecOn generalizing ts ts' with
  | ind n ih =>
    have hstep := aligned_clauseStep hq hts
    rw [clauseTables_eq q, clauseTables_eq q']
    generalize hs : q.clauseStep ts = step, q'.clauseStep ts' = step' at hstep
    cases hstep with
    | error h => exact .error h
    | ok h =>
      cases h with
      | none => exact .ok .nil
      | some h =>
        exact aligned_map (ih _ (hn ▸ clauseStep_length hs) h.2 rfl) fun _ _ hlater =>
          aligned_append h.1 hlater

theorem aligned_tableList : Aligned A (q.tableList ts) (q'.tableList ts') := by
  refine aligned_bind (aligned_clauseTables hq hts) fun tables tables' htables => ?_
  have hempty : tables.isEmpty = tables'.isEmpty := by cases htables <;> rfl
  rw [hempty]
  refine aligned_ite (fun _ => ?_) fun _ => .ok htables
  cases hts with
  | nil => exact .error ⟨rfl, .point hq.stop⟩
  | cons ht _ => exact .error ⟨rfl, ht.span⟩

end Query

/-! ## Binding and analysis -/

section

variable {A : Alignment}

theorem QueryTable.resolve?_eq {first first' : QueryTable} {tables tables' : List QueryTable}
    (hfirst : Aligned A first first') (htables : Aligned A tables tables')
    (qualifier : Option Text) :
    first.resolve? tables qualifier = first'.resolve? tables' qualifier := by
  cases qualifier with
  | none => exact congrArg some hfirst.name
  | some name =>
    have hany : (tables.any fun t => t.name == name) = tables'.any fun t => t.name == name := by
      induction htables with
      | nil => rfl
      | cons h _ ih => rw [List.any_cons, List.any_cons, h.name, ih]
    have hfind : ((tables.reverse.find? (·.aliasName == some name)).map (·.name)) =
        (tables'.reverse.find? (·.aliasName == some name)).map (·.name) := by
      have hreverse : Aligned A tables.reverse tables'.reverse := List.rel_reverse htables
      generalize tables.reverse = us, tables'.reverse = us' at hreverse
      induction hreverse with
      | nil => rfl
      | cons h _ ih =>
        rw [List.find?_cons, List.find?_cons, h.aliasName]
        split
        · exact congrArg some h.name
        · exact ih
    rw [resolve?, resolve?, hany, hfind]

theorem QueryField.aligned_bindTo {first first' : QueryTable} {tables tables' : List QueryTable}
    {fields fields' : List QueryField} (hfirst : Aligned A first first')
    (htables : Aligned A tables tables') (hfields : Aligned A fields fields') :
    Aligned A (bindTo first tables fields) (bindTo first' tables' fields') := by
  induction hfields with
  | nil => exact ⟨.nil, .none⟩
  | cons hf hrest ih =>
    rw [bindTo, bindTo, hf.table, QueryTable.resolve?_eq hfirst htables]
    split
    · exact ⟨.cons hf hrest, .some ⟨by rw [hf.name]; rfl, hf.span⟩⟩
    · exact ⟨.cons ⟨rfl, hf.name, hf.aliasName, hf.isAggregate, hf.isVerbatim, hf.span⟩ ih.1,
        ih.2⟩

theorem QueryField.aligned_bindAll {tables tables' : List QueryTable}
    {fields fields' : List QueryField} (htables : Aligned A tables tables')
    (hfields : Aligned A fields fields') :
    Aligned A (bindAll tables fields) (bindAll tables' fields') := by
  cases htables with
  | nil => exact ⟨hfields, .none⟩
  | cons ht hrest => exact QueryField.aligned_bindTo ht (.cons ht hrest) hfields

/-- The shape that fields and tables come to, once the fields are bound. -/
theorem QueryShape.aligned_bound {tables tables' : List QueryTable}
    {fields fields' : List QueryField} (htables : Aligned A tables tables')
    (hfields : Aligned A fields fields') :
    Aligned A
      (match QueryField.bindAll tables fields with
        | (_, some fault) => (.error fault : Checked QueryShape)
        | (bound, none) => .ok ⟨bound, tables⟩)
      (match QueryField.bindAll tables' fields' with
        | (_, some fault) => .error fault
        | (bound, none) => .ok ⟨bound, tables'⟩) := by
  have hbound := QueryField.aligned_bindAll htables hfields
  generalize QueryField.bindAll tables fields = x, QueryField.bindAll tables' fields' = x' at hbound
  obtain ⟨bound, fault⟩ := x
  obtain ⟨bound', fault'⟩ := x'
  obtain ⟨hfields, hfault⟩ : Aligned A bound bound' ∧ Aligned A fault fault' := hbound
  cases hfault with
  | none => exact .ok ⟨hfields, htables⟩
  | some h => exact .error h

/-- Queries that start at aligned tokens have aligned shapes. -/
theorem Query.aligned_shape_of_start {lexicon : Lexicon} {f f' : Fragment}
    (hq : Aligned A (⟨f, (lexicon.read f).fault⟩ : Query) ⟨f', (lexicon.read f').fault⟩)
    (hstart : Aligned A
      (Query.skipAllBraces ⟨f, (lexicon.read f).fault⟩ (lexicon.read f).tokens)
      (Query.skipAllBraces ⟨f', (lexicon.read f').fault⟩ (lexicon.read f').tokens)) :
    Aligned A (shape lexicon f) (shape lexicon f') := by
  refine aligned_bind hstart fun _ _ hts => ?_
  apply aligned_bind (aligned_selectList hq hts)
  rintro ⟨fields, _⟩ ⟨fields', _⟩ ⟨hfields, h⟩
  exact aligned_bind (aligned_tableList hq h) fun tables tables' htables =>
    QueryShape.aligned_bound htables hfields

/-- Aligned fragments on which matched spans cut out the same texts hold aligned queries. -/
theorem Query.aligned_shape (lexicon : Lexicon) {f f' : Fragment} (h : Aligned A f f')
    (hslice : ∀ s s', Aligned A s s' → f.slice s = f'.slice s') :
    Aligned A (shape lexicon f) (shape lexicon f') :=
  have hstream := lexicon.aligned_read h
  have hq : Aligned A (⟨f, (lexicon.read f).fault⟩ : Query) ⟨f', (lexicon.read f').fault⟩ :=
    ⟨h.stop, hslice _ _, hstream.fault⟩
  aligned_shape_of_start hq (aligned_skipBraces hq hstream.tokens _ _)

theorem Query.aligned_statementKeyword {q q' : Query} (hq : Aligned A q q') (inside : Bool)
    {ts ts' : List Token} (hts : Aligned A ts ts') :
    Aligned A (q.statementKeyword inside ts) (q'.statementKeyword inside ts') := by
  induction hts generalizing inside with
  | nil => cases inside <;> exact .error (aligned_endFault hq _)
  | cons ht hrest ih =>
    cases inside with
    | true =>
      simp only [statementKeyword, ht.isSymbol]
      exact ih _
    | false =>
      simp only [statementKeyword, ht.kind]
      split
      · exact aligned_ite (fun _ => .ok ⟨rfl, ht.span⟩) fun _ => .error ⟨rfl, ht.span⟩
      · exact aligned_ite (fun _ => ih _) fun _ => .error ⟨rfl, ht.span⟩
      · exact .error ⟨rfl, ht.span⟩

theorem Query.aligned_leadingKeyword (lexicon : Lexicon) {f f' : Fragment} (h : Aligned A f f')
    (hslice : ∀ s s', Aligned A s s' → f.slice s = f'.slice s') :
    Aligned A (leadingKeyword lexicon f) (leadingKeyword lexicon f') := by
  have hstream := lexicon.aligned_read h
  have hq : Aligned A (⟨f, (lexicon.read f).fault⟩ : Query) ⟨f', (lexicon.read f').fault⟩ :=
    ⟨h.stop, hslice _ _, hstream.fault⟩
  exact aligned_statementKeyword hq false hstream.tokens

end

end QueryTemplate
