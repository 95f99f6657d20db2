import QueryTemplate.Proofs.Alignment.Query

/-! # Places that do not run backward

A place starts no later than it stops. This holds of every place that a reader puts together, in
what it reads as well as in its faults, if it holds of the places of the tokens it is given.
-/

namespace QueryTemplate

/-- Values that hold places. -/
class Placed (α : Type) where
  /-- Every place in the value starts no later than it stops. -/
  Forward : α → Prop

export Placed (Forward)

/-- Values that hold no places. -/
abbrev Placed.plain {α : Type} : Placed α := ⟨fun _ => True⟩

instance : Placed Bool := .plain
instance : Placed Text := .plain
instance : Placed Span := ⟨fun s => s.start ≤ s.stop⟩

section Structures

variable {α β ε : Type} [Placed α] [Placed β] [Placed ε]

instance : Placed (α × β) := ⟨fun x => Forward x.1 ∧ Forward x.2⟩
instance : Placed (List α) := ⟨fun xs => ∀ x ∈ xs, Forward x⟩
instance : Placed (Option α) := ⟨fun x => ∀ a ∈ x, Forward a⟩
instance : Placed (Located α) := ⟨fun x => Forward x.value ∧ Forward x.span⟩

instance : Placed (Except ε α) where
  Forward
    | .ok a => Forward a
    | .error e => Forward e

@[simp] theorem forward_point (n : Nat) : Forward (Span.point n) := Nat.le_refl n

@[simp] theorem forward_pair {a : α} {b : β} : Forward (a, b) ↔ Forward a ∧ Forward b := Iff.rfl

@[simp] theorem forward_nil : Forward ([] : List α) := fun _ h => absurd h List.not_mem_nil

@[simp] theorem forward_cons {x : α} {xs : List α} : Forward (x :: xs) ↔ Forward x ∧ Forward xs :=
  List.forall_mem_cons

@[simp] theorem forward_append {xs ys : List α} :
    Forward (xs ++ ys) ↔ Forward xs ∧ Forward ys :=
  List.forall_mem_append

@[simp] theorem forward_none : Forward (none : Option α) := fun _ h => nomatch h

@[simp] theorem forward_some {a : α} : Forward (some a) ↔ Forward a := by
  simp [Forward, Option.mem_def]

@[simp] theorem forward_toList {x : Option α} : Forward x.toList ↔ Forward x := by
  cases x <;> simp

@[simp] theorem forward_ok {a : α} : Forward (.ok a : Except ε α) ↔ Forward a := Iff.rfl

@[simp] theorem forward_error {e : ε} : Forward (.error e : Except ε α) ↔ Forward e := Iff.rfl

theorem Span.forward_merge {s t : Span} (hs : Forward s) : Forward (s.merge t) := by
  have h : s.start ≤ s.stop := hs
  simp only [Forward, merge]
  omega

theorem forward_bind {x : Except ε α} {f : α → Except ε β} (hx : Forward x)
    (hf : ∀ a, Forward a → Forward (f a)) : Forward (x >>= f) := by
  cases x with
  | ok a => exact hf a hx
  | error e => exact hx

theorem forward_map {x : Except ε α} {f : α → β} (hx : Forward x)
    (hf : ∀ a, Forward a → Forward (f a)) : Forward (x.map f) := by
  cases x with
  | ok a => exact hf a hx
  | error e => exact hx

theorem forward_mapError {x : Except ε α} {f : ε → β} (hx : Forward x)
    (hf : ∀ e, Forward e → Forward (f e)) : Forward (x.mapError f) := by
  cases x with
  | ok a => exact hx
  | error e => exact hf e hx

theorem forward_ite {c : Prop} [Decidable c] {x y : α} (ht : c → Forward x)
    (he : ¬c → Forward y) : Forward (if c then x else y) := by
  by_cases h : c
  · simpa only [if_pos h] using ht h
  · simpa only [if_neg h] using he h

end Structures

/-! ## Tokens -/

instance : Placed LexicalCause := .plain
instance : Placed TemplateCause := .plain
instance : Placed Keyword := .plain
instance : Placed Token := ⟨fun t => Forward t.span⟩
instance : Placed TokenStream := ⟨fun stream => Forward stream.tokens ∧ Forward stream.fault⟩
instance : Placed QueryField := ⟨fun f => Forward f.span⟩
instance : Placed QueryTable := ⟨fun t => Forward t.span⟩
instance : Placed QueryShape := ⟨fun shape => Forward shape.fields ∧ Forward shape.tables⟩
instance : Placed Query := ⟨fun q => Forward q.fault⟩

@[simp] theorem forward_span_add (n m : Nat) : Forward (⟨n, n + m⟩ : Span) := Nat.le_add_right n m

theorem LexicalFault.forward_inTemplate {fault : LexicalFault} (h : Forward fault) :
    Forward fault.inTemplate := h

namespace Lexicon

theorem forward_tokenAt (lexicon : Lexicon) (offset : Nat) (c : Char) (rest : Text) :
    Forward (lexicon.tokenAt offset c rest).1 := by
  unfold tokenAt token
  split
  · split
    · exact forward_span_add ..
    · exact ⟨trivial, forward_span_add ..⟩
  · split <;> exact forward_span_add ..

theorem forward_next? {lexicon : Lexicon} {source after : Fragment}
    {item : Except LexicalFault Token} (h : lexicon.next? source = some (item, after)) :
    Forward item := by
  fun_induction next? lexicon source with
  | case1 => cases h
  | case2 offset c rest _ ih => exact ih h
  | case3 offset c rest _ =>
    have hforward := lexicon.forward_tokenAt offset c rest
    rwa [Option.some.inj h] at hforward

theorem forward_read (lexicon : Lexicon) (source : Fragment) : Forward (lexicon.read source) := by
  fun_induction read lexicon source with
  | case1 => exact ⟨forward_nil, forward_none⟩
  | case2 _ fault _ h => exact ⟨forward_nil, forward_some.2 (forward_next? h)⟩
  | case3 _ token _ h ih => exact ⟨forward_cons.2 ⟨forward_next? h, ih.1⟩, ih.2⟩

end Lexicon

/-! ## Readers -/

namespace Query

variable {q : Query} (hq : Forward q)
include hq

theorem forward_endFault (expected : Expectation) : Forward (q.endFault expected) := by
  have hfault : Forward q.fault := hq
  unfold endFault
  split
  · rename_i fault h
    rw [h] at hfault
    exact LexicalFault.forward_inTemplate (forward_some.1 hfault)
  · exact ⟨trivial, forward_point _⟩

theorem forward_atEnd {α : Type} [Placed α] {x : α} (h : Forward x) : Forward (q.atEnd x) := by
  have hfault : Forward q.fault := hq
  unfold atEnd
  split
  · rename_i fault h
    rw [h] at hfault
    exact LexicalFault.forward_inTemplate (forward_some.1 hfault)
  · exact h

variable {ts : List Token} (hts : Forward ts)
include hts

theorem forward_nextIs (s : Symbol) : Forward (q.nextIs s ts) := by
  cases ts with
  | nil => exact forward_atEnd hq trivial
  | cons t rest => trivial

theorem forward_next (expected : Expectation) : Forward (q.next expected ts) := by
  cases ts with
  | nil => exact forward_endFault hq _
  | cons t rest => exact forward_cons.1 hts

theorem forward_symbol (s : Symbol) : Forward (q.symbol s ts) := by
  cases ts with
  | nil => exact forward_endFault hq _
  | cons t rest =>
    obtain ⟨ht, hrest⟩ := forward_cons.1 hts
    exact forward_ite (fun _ => ⟨ht, hrest⟩) fun _ => ⟨trivial, ht⟩

omit hq in
theorem forward_closingBrace? : Forward (closingBrace? ts) := by
  induction ts with
  | nil => exact forward_none
  | cons t rest ih =>
    obtain ⟨ht, hrest⟩ := forward_cons.1 hts
    exact forward_ite (fun _ => forward_some.2 ⟨ht, hrest⟩) fun _ => ih hrest

theorem forward_braces {t : Token} (ht : Forward t) : Forward (q.braces t ts) := by
  have hclosing := forward_closingBrace? hts
  unfold braces
  split
  · exact forward_endFault hq _
  · rename_i h
    rw [h] at hclosing
    exact ⟨⟨trivial, Span.forward_merge ht⟩, (forward_some.1 hclosing).2⟩

theorem forward_skipBraces (skipped : Symbol → Bool) (inside : Bool) :
    Forward (q.skipBraces skipped inside ts) := by
  induction ts generalizing inside with
  | nil =>
    cases inside with
    | false => exact forward_atEnd hq forward_nil
    | true => exact forward_endFault hq _
  | cons t rest ih =>
    have hrest := (forward_cons.1 hts).2
    cases inside with
    | true => exact ih hrest _
    | false =>
      unfold skipBraces
      split
      · exact forward_ite (fun _ => ih hrest _) fun _ => hts
      · exact hts

omit hq in
theorem forward_closingParen? (depth : Nat) : Forward (closingParen? depth ts) := by
  induction ts generalizing depth with
  | nil => exact forward_none
  | cons t rest ih =>
    obtain ⟨ht, hrest⟩ := forward_cons.1 hts
    unfold closingParen?
    split
    · exact ih hrest _
    · split
      · exact forward_some.2 ⟨ht, hrest⟩
      · exact ih hrest _
    · exact ih hrest _

theorem forward_groupEnd (depth : Nat) : Forward (q.groupEnd depth ts) := by
  have hclosing := forward_closingParen? hts depth
  unfold groupEnd
  generalize closingParen? depth ts = found at hclosing ⊢
  cases found with
  | none => exact forward_endFault hq _
  | some found => exact forward_ok.2 (forward_some.1 hclosing)

theorem forward_skipGroup : Forward (q.skipGroup ts) := by
  have hclosing := forward_closingParen? hts 0
  unfold skipGroup
  split
  · exact forward_atEnd hq forward_nil
  · rename_i h
    rw [h] at hclosing
    exact (forward_some.1 hclosing).2

theorem forward_bareAlias (own : Text) : Forward (q.bareAlias own ts) := by
  unfold bareAlias
  split
  · exact forward_atEnd hq (forward_pair.2 ⟨forward_none, forward_nil⟩)
  · split
    · exact forward_ok.2 ⟨forward_ite (fun _ => forward_none) fun _ => forward_some.2 trivial,
        (forward_cons.1 hts).2⟩
    · exact forward_ok.2 ⟨forward_none, hts⟩

theorem forward_aliasOf (own : Text) : Forward (q.aliasOf own ts) := by
  cases ts with
  | nil => exact forward_atEnd hq ⟨forward_none, forward_nil⟩
  | cons t rest =>
    exact forward_ite (fun _ => forward_bareAlias hq (forward_cons.1 hts).2 own)
      fun _ => forward_bareAlias hq hts own

/-! ## The select list -/

variable {t : Token} (ht : Forward t)
include ht

theorem forward_qualifiedColumn : Forward (q.qualifiedColumn t ts) := by
  refine forward_bind (forward_next hq hts _) fun ⟨column, rest⟩ ⟨hcolumn, hrest⟩ => ?_
  have hqualify {f : QueryField} :
      Forward { f with table := some t.label, span := t.span.merge f.span } :=
    Span.forward_merge ht
  dsimp only
  split
  · exact ⟨hqualify, hrest⟩
  · refine forward_ite (fun _ => ?_) fun _ => ⟨trivial, hcolumn⟩
    exact forward_map (forward_braces hq hrest hcolumn) fun _ hx => ⟨hqualify, hx.2⟩
  · exact ⟨hqualify, hrest⟩

theorem forward_columnAt : Forward (q.columnAt t ts) := by
  cases ts with
  | nil => exact forward_atEnd hq ⟨ht, forward_nil⟩
  | cons u rest =>
    exact forward_ite (fun _ => forward_qualifiedColumn hq (forward_cons.1 hts).2 ht)
      fun _ => ⟨ht, hts⟩

theorem forward_columnInCall (depth : Nat) : Forward (q.columnInCall t depth ts) := by
  induction ts generalizing depth with
  | nil => exact forward_endFault hq _
  | cons u rest ih =>
    obtain ⟨hu, hrest⟩ := forward_cons.1 hts
    unfold columnInCall
    split
    · exact ih hrest _
    · split
      · exact ⟨trivial, Span.forward_merge ht⟩
      · exact ih hrest _
    · refine forward_ite (fun _ => ?_) fun _ => ih hrest _
      refine forward_bind (forward_columnAt hq hrest hu) fun _ hfield => ?_
      refine forward_bind (forward_groupEnd hq hfield.2 _) fun _ hend => ?_
      exact ⟨Span.forward_merge ht, hend.2⟩
    · exact ih hrest _

theorem forward_call : Forward (q.call t ts) :=
  forward_bind (forward_symbol hq hts _) fun _ h => forward_columnInCall hq h.2 ht 0

theorem forward_countOf : Forward (q.countOf t ts) :=
  forward_bind (forward_symbol hq hts _) fun _ h =>
    forward_bind (forward_groupEnd hq h.2 0) fun _ hend => ⟨Span.forward_merge ht, hend.2⟩

theorem forward_fieldAt : Forward (q.fieldAt t ts) := by
  have hcolumn := forward_columnAt hq hts ht
  have hcall := forward_call hq hts ht
  unfold fieldAt
  split
  · exact forward_bind (forward_nextIs hq hts _) fun _ _ =>
      forward_ite (fun _ => hcall) fun _ => hcolumn
  · exact forward_bind (forward_nextIs hq hts _) fun _ _ =>
      forward_ite (fun _ => forward_countOf hq hts ht) fun _ => hcolumn
  · exact ⟨ht, hts⟩
  · refine forward_ite (fun _ => ?_) fun _ => ⟨trivial, ht⟩
    exact forward_map (forward_braces hq hts ht) fun _ hx => ⟨hx.1.2, hx.2⟩
  · refine forward_ite (fun _ => ⟨ht, hts⟩) fun _ => ?_
    exact forward_bind (forward_nextIs hq hts _) fun _ _ =>
      forward_ite (fun _ => hcall) fun _ => hcolumn
  · exact hcolumn
  · exact ⟨trivial, ht⟩

theorem forward_field : Forward (q.field t ts) :=
  forward_bind (forward_fieldAt hq hts ht) fun ⟨_, _⟩ ⟨hf, hrest⟩ =>
    forward_bind (forward_aliasOf hq hrest _) fun _ h => ⟨hf, h.2⟩

omit ht

theorem forward_itemEnd (passing : Passing) : Forward (q.itemEnd passing ts) := by
  induction ts generalizing passing with
  | nil =>
    cases passing with
    | item => exact forward_atEnd hq forward_nil
    | braces => exact forward_endFault hq _
    | group depth => exact forward_endFault hq _
  | cons t rest ih =>
    have hrest := (forward_cons.1 hts).2
    cases passing with
    | item =>
      unfold itemEnd
      split
      · exact hts
      · exact hts
      · exact ih hrest _
      · exact ih hrest _
      · exact ih hrest _
    | braces => exact ih hrest _
    | group depth =>
      unfold itemEnd
      split
      · exact ih hrest _
      · split <;> exact ih hrest _
      · exact ih hrest _

theorem forward_skipQuantifier : Forward (q.skipQuantifier ts) := by
  unfold skipQuantifier
  split
  · exact forward_atEnd hq forward_nil
  · exact forward_ite (fun _ => forward_atEnd hq hts) fun _ => hts
  · exact forward_ite (fun _ => (forward_cons.1 hts).2) fun _ => hts

instance : Placed SelectStep where
  Forward
    | .item f rest => Forward f ∧ Forward rest
    | .done clauses => Forward clauses

theorem forward_selectStep : Forward (q.selectStep ts) := by
  refine forward_bind (forward_skipBraces hq hts _ _) fun us hus => ?_
  cases us with
  | nil => exact ⟨trivial, forward_point _⟩
  | cons t rest =>
    obtain ⟨ht, hrest⟩ := forward_cons.1 hus
    refine forward_ite (fun _ => hus) fun _ =>
      forward_ite (fun _ => ⟨forward_none, hrest⟩) fun _ => ?_
    refine forward_bind (forward_field hq hrest ht) fun ⟨f, after⟩ ⟨hf, hafter⟩ => ?_
    exact forward_bind (forward_itemEnd hq hafter _) fun _ hend => ⟨forward_some.2 hf, hend⟩

theorem forward_selectItems : Forward (q.selectItems ts) := by
  fun_induction selectItems q ts with
  | case1 ts fault hs =>
    have hstep := forward_selectStep hq hts
    rwa [hs] at hstep
  | case2 ts clauses hs =>
    have hstep := forward_selectStep hq hts
    rw [hs] at hstep
    exact ⟨forward_nil, hstep⟩
  | case3 ts f rest hs ih =>
    have hstep := forward_selectStep hq hts
    rw [hs] at hstep
    exact forward_map (ih hstep.2) fun _ h =>
      ⟨forward_append.2 ⟨forward_toList.2 hstep.1, h.1⟩, h.2⟩

theorem forward_selectList : Forward (q.selectList ts) := by
  refine forward_bind (forward_next hq hts _) fun ⟨select, rest⟩ ⟨hselect, hrest⟩ => ?_
  refine forward_ite (fun _ => ⟨trivial, hselect⟩) fun _ => ?_
  refine forward_bind (forward_skipQuantifier hq hrest) fun _ hafter => ?_
  refine forward_bind (forward_selectItems hq hafter) fun ⟨fields, clauses⟩ h => ?_
  exact forward_ite (fun _ => ⟨trivial, hselect⟩) fun _ => h

/-! ## The tables -/

theorem forward_tablePart (dotted : Bool) : Forward (q.tablePart dotted ts) := by
  refine forward_bind (forward_next hq hts _) fun ⟨part, rest⟩ ⟨hpart, hrest⟩ => ?_
  dsimp only
  split
  · exact ⟨⟨trivial, hpart, trivial⟩, hrest⟩
  · exact ⟨⟨trivial, hpart, trivial⟩, hrest⟩
  · exact forward_ite (fun _ => ⟨⟨trivial, hpart, trivial⟩, hrest⟩) fun _ => ⟨trivial, hpart⟩
  · refine forward_ite (fun _ => ?_) fun _ => ⟨trivial, hpart⟩
    exact forward_map (forward_braces hq hrest hpart) fun _ hx =>
      ⟨⟨trivial, hx.1.2, trivial⟩, hx.2⟩

theorem forward_dottedName {part : Text × Span × Bool} (hpart : Forward part) :
    Forward (q.dottedName part ts) := by
  fun_induction dottedName q part ts with
  | case1 => exact forward_atEnd hq ⟨hpart, forward_nil⟩
  | case2 part t rest _ fault hs =>
    have hnext := forward_tablePart hq (forward_cons.1 hts).2 true
    rwa [hs] at hnext
  | case3 part t rest _ name span isVerbatim after hs ih =>
    have hnext := forward_tablePart hq (forward_cons.1 hts).2 true
    rw [hs] at hnext
    exact ih hnext.2 ⟨trivial, Span.forward_merge hpart.2.1, trivial⟩
  | case4 => exact ⟨hpart, hts⟩

theorem forward_tableReference : Forward (q.tableReference ts) := by
  cases ts with
  | nil => exact forward_endFault hq _
  | cons t rest =>
    refine forward_ite (fun _ => ?_) fun _ => ?_
    · refine forward_bind (forward_skipGroup hq (forward_cons.1 hts).2) fun _ hafter => ?_
      exact forward_bind (forward_aliasOf hq hafter _) fun _ h => ⟨forward_none, h.2⟩
    · refine forward_bind (forward_tablePart hq hts _) fun ⟨part, after⟩ ⟨hpart, hafter⟩ => ?_
      refine forward_bind (forward_dottedName hq hafter hpart) fun ⟨⟨_, span, _⟩, _⟩ h => ?_
      exact forward_bind (forward_aliasOf hq h.2 _) fun _ hlast =>
        ⟨forward_some.2 h.1.2.1, hlast.2⟩

theorem forward_tableReferences : Forward (q.tableReferences ts) := by
  fun_induction tableReferences q ts with
  | case1 ts fault hs =>
    have hfirst := forward_tableReference hq hts
    rwa [hs] at hfirst
  | case2 ts table hs =>
    have hfirst := forward_tableReference hq hts
    rw [hs] at hfirst
    exact forward_atEnd hq ⟨forward_toList.2 hfirst.1, forward_nil⟩
  | case3 ts table t rest hs _ ih =>
    have hfirst := forward_tableReference hq hts
    rw [hs] at hfirst
    exact forward_map (ih (forward_cons.1 hfirst.2).2) fun _ h =>
      ⟨forward_append.2 ⟨forward_toList.2 hfirst.1, h.1⟩, h.2⟩
  | case4 ts table t rest hs _ =>
    have hfirst := forward_tableReference hq hts
    rw [hs] at hfirst
    exact ⟨forward_toList.2 hfirst.1, hfirst.2⟩

theorem forward_clauseStep : Forward (q.clauseStep ts) := by
  refine forward_bind (forward_skipBraces hq hts _ _) fun us hus => ?_
  cases us with
  | nil => exact forward_none
  | cons t rest =>
    have hrest := (forward_cons.1 hus).2
    dsimp only
    split
    · cases rest with
      | nil => exact forward_atEnd hq forward_none
      | cons u after => exact forward_some.2 ⟨forward_nil, (forward_cons.1 hrest).2⟩
    · exact forward_bind (forward_skipGroup hq hrest) fun _ h => forward_some.2 ⟨forward_nil, h⟩
    · exact forward_bind (forward_tableReferences hq hrest) fun _ h => forward_some.2 h
    · exact forward_bind (forward_tableReference hq hrest) fun _ h =>
        forward_some.2 ⟨forward_toList.2 h.1, h.2⟩
    · exact forward_some.2 ⟨forward_nil, hrest⟩

theorem forward_clauseTables : Forward (q.clauseTables ts) := by
  fun_induction clauseTables q ts with
  | case1 ts fault hs =>
    have hstep := forward_clauseStep hq hts
    rwa [hs] at hstep
  | case2 => exact forward_nil
  | case3 ts tables rest hs ih =>
    have hstep := forward_clauseStep hq hts
    rw [hs] at hstep
    obtain ⟨htables, hrest⟩ := forward_some.1 hstep
    exact forward_map (ih hrest) fun _ h => forward_append.2 ⟨htables, h⟩

theorem forward_tableList : Forward (q.tableList ts) := by
  refine forward_bind (forward_clauseTables hq hts) fun tables htables => ?_
  refine forward_ite (fun _ => ⟨trivial, ?_⟩) fun _ => htables
  cases ts with
  | nil => exact forward_point _
  | cons t rest => exact (forward_cons.1 hts).1

end Query

/-! ## Binding and analysis -/

theorem QueryField.forward_bindTo (first : QueryTable) (tables : List QueryTable)
    {fields : List QueryField} (h : Forward fields) : Forward (bindTo first tables fields) := by
  induction fields with
  | nil => exact ⟨forward_nil, forward_none⟩
  | cons f rest ih =>
    obtain ⟨hf, hrest⟩ := forward_cons.1 h
    unfold bindTo
    split
    · exact ⟨h, forward_some.2 ⟨trivial, hf⟩⟩
    · exact ⟨forward_cons.2 ⟨hf, (ih hrest).1⟩, (ih hrest).2⟩

theorem QueryField.forward_bindAll (tables : List QueryTable) {fields : List QueryField}
    (h : Forward fields) : Forward (bindAll tables fields) := by
  cases tables with
  | nil => exact ⟨h, forward_none⟩
  | cons first rest => exact forward_bindTo first _ h

namespace Query

theorem forward_shape (lexicon : Lexicon) (source : Fragment) :
    Forward (shape lexicon source) := by
  obtain ⟨htokens, hq⟩ := lexicon.forward_read source
  have hquery : Forward (⟨source, (lexicon.read source).fault⟩ : Query) := hq
  refine forward_bind (forward_skipBraces hquery htokens _ _) fun _ hts => ?_
  refine forward_bind (forward_selectList hquery hts)
    fun ⟨fields, clauses⟩ ⟨hfields, hclauses⟩ => ?_
  refine forward_bind (forward_tableList hquery hclauses) fun tables htables => ?_
  have hbound := QueryField.forward_bindAll tables hfields
  generalize QueryField.bindAll tables fields = bound at hbound
  obtain ⟨bound, _ | fault⟩ := bound
  · exact ⟨hbound.1, htables⟩
  · exact forward_error.2 (forward_some.1 hbound.2)

theorem forward_statementKeyword {q : Query} (hq : Forward q) (inside : Bool) {ts : List Token}
    (hts : Forward ts) : Forward (q.statementKeyword inside ts) := by
  induction ts generalizing inside with
  | nil => cases inside <;> exact forward_endFault hq _
  | cons t rest ih =>
    obtain ⟨ht, hrest⟩ := forward_cons.1 hts
    cases inside with
    | true => exact ih _ hrest
    | false =>
      unfold statementKeyword
      split
      · exact forward_ite (fun _ => ⟨trivial, ht⟩) fun _ => ⟨trivial, ht⟩
      · exact forward_ite (fun _ => ih _ hrest) fun _ => ⟨trivial, ht⟩
      · exact ⟨trivial, ht⟩

theorem forward_leadingKeyword (lexicon : Lexicon) (source : Fragment) :
    Forward (leadingKeyword lexicon source) := by
  obtain ⟨htokens, hq⟩ := lexicon.forward_read source
  have hquery : Forward (⟨source, (lexicon.read source).fault⟩ : Query) := hq
  exact forward_statementKeyword hquery false htokens

end Query

end QueryTemplate
