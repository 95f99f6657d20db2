import QueryTemplate.Proofs.Query.Extent

/-! # The beginning of a query

A reader that finishes before its tokens end reads the same when more tokens follow. So the select
list of a query can be read from the beginning of the query alone, as long as it ends in there.
-/

namespace QueryTemplate

/-- Whether a query is refused because it ends too early. -/
def TemplateCause.IsEnd : TemplateCause → Prop
  | missingFrom | unexpectedEnd _ => True
  | _ => False

/-- What a reader gives, with the tokens that it leaves unread. -/
class Unread (α : Type) where
  unread : α → List Token
  /-- The same with more tokens behind the unread ones. -/
  extend : List Token → α → α

instance : Unread (List Token) := ⟨id, fun more rest => rest ++ more⟩

instance {α : Type} : Unread (α × List Token) := ⟨Prod.snd, fun more x => (x.1, x.2 ++ more)⟩

instance : Unread Query.SelectStep where
  unread
    | .item _ rest => rest
    | .done clauses => clauses
  extend more
    | .item f rest => .item f (rest ++ more)
    | .done clauses => .done (clauses ++ more)

namespace Checked

variable {α β : Type} [Unread α] [Unread β] {more : List Token}

/-- Reading has come to the end of its tokens. -/
def RunsOut : Checked α → Prop
  | .ok x => Unread.unread x = []
  | .error e => e.value.IsEnd

/-- Reading comes to the end of its tokens, or else reads the same where more tokens follow. -/
def Extends (more : List Token) (x x' : Checked α) : Prop :=
  RunsOut x ∨ x' = x.map (Unread.extend more)

theorem Extends.refl_error (e : TemplateFault) :
    Extends more (.error e : Checked α) (.error e) :=
  .inr rfl

theorem runsOut_bind {x : Checked α} {f : α → Checked β} (h : RunsOut x)
    (hf : ∀ a, x = .ok a → Unread.unread a = [] → RunsOut (f a)) : RunsOut (x >>= f) := by
  cases x with
  | error e => exact h
  | ok a => exact hf a rfl h

theorem runsOut_map {x : Checked α} {f : α → β} (h : RunsOut x)
    (hf : ∀ a, Unread.unread (f a) = Unread.unread a) : RunsOut (x.map f) := by
  cases x with
  | error e => exact h
  | ok a => exact (hf a).trans h

theorem Extends.bind {x x' : Checked α} {f f' : α → Checked β} (h : Extends more x x')
    (hend : ∀ a, x = .ok a → Unread.unread a = [] → RunsOut (f a))
    (hf : ∀ a, x = .ok a → Extends more (f a) (f' (Unread.extend more a))) :
    Extends more (x >>= f) (x' >>= f') := by
  rcases h with hout | rfl
  · exact .inl (runsOut_bind hout hend)
  · cases x with
    | error e => exact .refl_error e
    | ok a => exact hf a rfl

theorem Extends.map {x x' : Checked α} {f f' : α → β} (h : Extends more x x')
    (hunread : ∀ a, Unread.unread (f a) = Unread.unread a)
    (hf : ∀ a, f' (Unread.extend more a) = Unread.extend more (f a)) :
    Extends more (x.map f) (x'.map f') := by
  rcases h with hout | rfl
  · exact .inl (runsOut_map hout hunread)
  · cases x with
    | error e => exact .refl_error e
    | ok a => exact .inr (congrArg Except.ok (hf a))

theorem Extends.ite {c : Prop} [Decidable c] {x x' y y' : Checked α}
    (ht : c → Extends more x x') (he : ¬c → Extends more y y') :
    Extends more (if c then x else y) (if c then x' else y') := by
  by_cases h : c
  · simpa only [if_pos h] using ht h
  · simpa only [if_neg h] using he h

end Checked

open Checked

/-- The first query is the beginning of the second one, and the tokens stand in it. -/
structure Query.Begins (q₀ q : Query) (us : List Token) : Prop where
  fault : q₀.fault = none
  slice : ∀ s : Span, s.stop ≤ q₀.source.stop → q.source.slice s = q₀.source.slice s
  within : ∀ t ∈ us, t.span.stop ≤ q₀.source.stop

namespace Query

variable {q₀ q : Query} {us : List Token}

theorem Begins.suffix {vs : List Token} (h : q₀.Begins q us) (hvs : vs <:+ us) : q₀.Begins q vs :=
  ⟨h.fault, h.slice, fun t ht => h.within t (hvs.subset ht)⟩

theorem Begins.tail {t : Token} (h : q₀.Begins q (t :: us)) : q₀.Begins q us :=
  h.suffix (List.suffix_cons ..)

/-! ## Tokens that end -/

section

variable (h : q₀.fault = none)
include h

theorem isEnd_endFault (expected : Expectation) : (q₀.endFault expected).value.IsEnd := by
  rw [endFault, h]
  trivial

theorem atEnd_eq {α : Type} (x : α) : q₀.atEnd x = .ok x := by
  rw [atEnd, h]

theorem runsOut_groupEnd (depth : Nat) : RunsOut (q₀.groupEnd depth []) := isEnd_endFault h _

theorem runsOut_aliasOf (own : Text) : RunsOut (q₀.aliasOf own []) := by
  rw [aliasOf, atEnd_eq h]
  rfl

theorem runsOut_columnAt (first : Token) : RunsOut (q₀.columnAt first []) := by
  rw [columnAt, atEnd_eq h]
  rfl

theorem runsOut_columnInCall (function : Token) (depth : Nat) :
    RunsOut (q₀.columnInCall function depth []) := isEnd_endFault h _

/-- A call whose tokens end at a word has no end. -/
theorem runsOut_columnInCall_word (function : Token) {word : Token} (hword : word.kind = .word)
    (depth : Nat) : RunsOut (q₀.columnInCall function depth [word]) := by
  simp only [columnInCall, hword]
  split
  · rw [columnAt, atEnd_eq h]
    exact runsOut_groupEnd h depth
  · exact runsOut_columnInCall h function depth

theorem runsOut_itemEnd (passing : Passing) : RunsOut (q₀.itemEnd passing []) := by
  cases passing with
  | item =>
    rw [itemEnd, atEnd_eq h]
    rfl
  | braces => exact isEnd_endFault h _
  | group depth => exact isEnd_endFault h _

theorem runsOut_selectItems_nil : RunsOut (q₀.selectItems []) := by
  rw [selectItems_eq, selectStep, skipDirectives, skipBraces, atEnd_eq h]
  trivial

/-- The select list runs out where a step of it does. -/
theorem runsOut_selectItems (hout : RunsOut (q₀.selectStep us)) : RunsOut (q₀.selectItems us) := by
  rw [selectItems_eq]
  cases hstep : q₀.selectStep us with
  | error e =>
    rw [hstep] at hout
    exact hout
  | ok step =>
    rw [hstep] at hout
    cases step with
    | done clauses => exact hout
    | item f rest =>
      obtain rfl : rest = [] := hout
      exact runsOut_map (runsOut_selectItems_nil h) fun _ => rfl

/-- A select list of one word has no end. -/
theorem runsOut_selectItems_word {word : Token} (hword : word.kind = .word) :
    RunsOut (q₀.selectItems [word]) := by
  have hskip : q₀.skipDirectives [word] = .ok [word] := by
    rw [skipDirectives, skipBraces, hword]
  have hfieldAt : RunsOut (q₀.fieldAt word []) := by
    simp only [fieldAt, hword, nextIs, atEnd_eq h]
    split
    · rfl
    · exact runsOut_columnAt h word
  have hfield : RunsOut (q₀.field word []) := by
    refine runsOut_bind hfieldAt fun a _ hnil => ?_
    obtain ⟨f, rest⟩ := a
    obtain rfl : rest = [] := hnil
    exact runsOut_bind (runsOut_aliasOf h f.name) fun _ _ hnil => hnil
  refine runsOut_selectItems h ?_
  simp only [selectStep, hskip, bind, Except.bind, Token.isKeyword, Token.isSymbol, hword]
  refine runsOut_bind hfield fun a _ hnil => ?_
  obtain ⟨f, rest⟩ := a
  obtain rfl : rest = [] := hnil
  exact runsOut_bind (runsOut_itemEnd h .item) fun _ _ hnil => hnil

end

/-! ## Parts -/

theorem closingBrace?_append_of_some {stop : Span} {rest : List Token}
    (h : closingBrace? us = some (stop, rest)) (more : List Token) :
    closingBrace? (us ++ more) = some (stop, rest ++ more) := by
  induction us with
  | nil => cases h
  | cons t us ih =>
    unfold closingBrace? at h
    rw [List.cons_append, closingBrace?]
    split at h
    · rename_i hclose
      cases h
      rw [if_pos hclose]
    · rename_i hclose
      rw [if_neg hclose, ih h]

theorem isSome_closingBrace? {closing : Token} (hmem : closing ∈ us)
    (h : closing.isSymbol .closeBrace) : (closingBrace? us).isSome := by
  induction us with
  | nil => cases hmem
  | cons t us ih =>
    rw [closingBrace?]
    by_cases hclose : t.isSymbol .closeBrace
    · rw [if_pos hclose]
      rfl
    · rw [if_neg hclose]
      apply ih
      rcases List.mem_cons.1 hmem with rfl | hmem
      · exact absurd h hclose
      · exact hmem

theorem closingParen?_append_of_some {depth : Nat} {stop : Span} {rest : List Token}
    (h : closingParen? depth us = some (stop, rest)) (more : List Token) :
    closingParen? depth (us ++ more) = some (stop, rest ++ more) := by
  induction us generalizing depth with
  | nil => cases h
  | cons t us ih =>
    simp only [List.cons_append, closingParen?] at h ⊢
    split at h
    · exact ih h
    · split at h
      · cases h
        rfl
      · exact ih h
    · exact ih h

/-- A group that is left open goes on in the tokens behind. -/
theorem exists_closingParen?_append {depth : Nat} (h : closingParen? depth us = none) :
    ∃ deeper, ∀ more, closingParen? depth (us ++ more) = closingParen? deeper more := by
  induction us generalizing depth with
  | nil => exact ⟨depth, fun _ => rfl⟩
  | cons t us ih =>
    simp only [List.cons_append, closingParen?] at h ⊢
    split at h
    · exact ih h
    · cases depth with
      | zero => cases h
      | succ depth => exact ih h
    · exact ih h

section

variable (h : q₀.Begins q us) (more : List Token)
include h

theorem extends_symbol (s : Symbol) :
    Extends more (q₀.symbol s us) (q.symbol s (us ++ more)) := by
  cases us with
  | nil => exact .inl (isEnd_endFault h.fault _)
  | cons t us =>
    rw [List.cons_append, symbol, symbol]
    exact .ite (fun _ => .inr rfl) fun _ => .refl_error _

theorem extends_groupEnd (depth : Nat) :
    Extends more (q₀.groupEnd depth us) (q.groupEnd depth (us ++ more)) := by
  cases hfound : closingParen? depth us with
  | none =>
    rw [groupEnd, hfound]
    exact .inl (isEnd_endFault h.fault _)
  | some found =>
    rw [groupEnd, hfound, groupEnd, closingParen?_append_of_some hfound]
    exact .inr rfl

theorem extends_skipBraces (skipped : Symbol → Bool) (inside : Bool) :
    Extends more (q₀.skipBraces skipped inside us) (q.skipBraces skipped inside (us ++ more)) := by
  induction us generalizing inside with
  | nil =>
    cases inside with
    | false =>
      rw [skipBraces, atEnd_eq h.fault]
      exact .inl rfl
    | true => exact .inl (isEnd_endFault h.fault _)
  | cons t us ih =>
    cases inside with
    | true => exact ih h.tail _
    | false =>
      rw [List.cons_append, skipBraces, skipBraces]
      split
      · exact .ite (fun _ => ih h.tail _) fun _ => .inr rfl
      · exact .inr rfl

theorem extends_bareAlias (own : Text) :
    Extends more (q₀.bareAlias own us) (q.bareAlias own (us ++ more)) := by
  cases us with
  | nil =>
    rw [bareAlias, atEnd_eq h.fault]
    exact .inl rfl
  | cons t us =>
    rw [List.cons_append, bareAlias, bareAlias]
    split
    · exact .inr rfl
    · exact .inr rfl

theorem extends_aliasOf (own : Text) :
    Extends more (q₀.aliasOf own us) (q.aliasOf own (us ++ more)) := by
  cases us with
  | nil => exact .inl (runsOut_aliasOf h.fault own)
  | cons t us =>
    rw [List.cons_append, aliasOf, aliasOf]
    exact .ite (fun _ => extends_bareAlias h.tail more own) fun _ => extends_bareAlias h more own

end

theorem extends_braces {opening : Token} (h : q₀.Begins q (opening :: us)) (more : List Token) :
    Extends more (q₀.braces opening us) (q.braces opening (us ++ more)) := by
  cases hfound : closingBrace? us with
  | none =>
    rw [braces, hfound]
    exact .inl (isEnd_endFault h.fault _)
  | some found =>
    obtain ⟨stop, rest⟩ := found
    rcases exists_of_closingBrace? hfound with ⟨inner, closing, rfl, rfl, -, -⟩
    have hopening := h.within opening (List.mem_cons_self ..)
    have hclosing := h.within closing (by simp)
    have hslice := h.slice (opening.span.merge closing.span) (Nat.max_le.2 ⟨hopening, hclosing⟩)
    rw [braces, hfound, braces, closingBrace?_append_of_some hfound]
    dsimp only
    rw [hslice]
    exact .inr rfl

/-! ## The select list -/

theorem selectStep_suffix {f : Option QueryField} {rest : List Token}
    (hstep : q.selectStep us = .ok (.item f rest)) : rest <:+ us := by
  rcases Checked.bind_eq_ok hstep with ⟨vs, hskip, hstep⟩
  refine List.IsSuffix.trans ?_ (skipBraces_suffix hskip)
  cases vs with
  | nil => cases hstep
  | cons t vs =>
    dsimp only at hstep
    split at hstep
    · cases Except.ok.inj hstep
    · split at hstep
      · cases Except.ok.inj hstep
        exact List.suffix_cons ..
      · rcases Checked.bind_eq_ok hstep with ⟨⟨g, ws⟩, hfield, hstep⟩
        rcases Checked.bind_eq_ok hstep with ⟨after, hend, hstep⟩
        cases Except.ok.inj hstep
        exact ((itemEnd_suffix hend).trans (field_suffix hfield)).trans (List.suffix_cons ..)

section

variable (h : q₀.Begins q us) (more : List Token)
include h

theorem extends_qualifiedColumn (first : Token) :
    Extends more (q₀.qualifiedColumn first us) (q.qualifiedColumn first (us ++ more)) := by
  cases us with
  | nil => exact .inl (isEnd_endFault h.fault _)
  | cons column us =>
    simp only [List.cons_append, qualifiedColumn, next, bind, Except.bind]
    split
    · exact .inr rfl
    · exact .ite (fun _ => (extends_braces h more).map (fun _ => rfl) fun _ => rfl)
        fun _ => .refl_error _
    · exact .inr rfl

theorem extends_columnAt (first : Token) :
    Extends more (q₀.columnAt first us) (q.columnAt first (us ++ more)) := by
  cases us with
  | nil => exact .inl (runsOut_columnAt h.fault first)
  | cons t us =>
    rw [List.cons_append, columnAt, columnAt]
    exact .ite (fun _ => extends_qualifiedColumn h.tail more first) fun _ => .inr rfl

theorem extends_columnInCall (function : Token) (depth : Nat) :
    Extends more (q₀.columnInCall function depth us)
      (q.columnInCall function depth (us ++ more)) := by
  induction us generalizing depth with
  | nil => exact .inl (runsOut_columnInCall h.fault function depth)
  | cons t us ih =>
    -- Whether a word is a column depends on the token behind it, which the last one does not have.
    by_cases hlast : t.kind = .word ∧ us = []
    · rcases hlast with ⟨hword, rfl⟩
      exact .inl (runsOut_columnInCall_word h.fault function hword depth)
    · simp only [List.cons_append, columnInCall]
      split
      · exact ih h.tail _
      · cases depth with
        | zero => exact .refl_error _
        | succ depth => exact ih h.tail _
      · rename_i hword
        obtain ⟨u, us, rfl⟩ := List.exists_cons_of_ne_nil fun hnil => hlast ⟨hword, hnil⟩
        refine .ite (fun _ => ?_) fun _ => ih h.tail _
        refine (extends_columnAt h.tail more t).bind (fun a _ hnil => ?_) fun a ha => ?_
        · obtain ⟨f, rest⟩ := a
          obtain rfl : rest = [] := hnil
          exact runsOut_groupEnd h.fault depth
        · have hrest := h.tail.suffix (columnAt_suffix ha)
          exact (extends_groupEnd hrest more depth).bind (fun _ _ hnil => hnil) fun _ _ => .inr rfl
      · exact ih h.tail _

theorem extends_call (function : Token) :
    Extends more (q₀.call function us) (q.call function (us ++ more)) := by
  refine (extends_symbol h more _).bind (fun a _ hnil => ?_) fun a ha => ?_
  · obtain ⟨opening, rest⟩ := a
    obtain rfl : rest = [] := hnil
    exact runsOut_columnInCall h.fault function 0
  · exact extends_columnInCall (h.suffix (symbol_suffix ha)) more function 0

theorem extends_countOf (count : Token) :
    Extends more (q₀.countOf count us) (q.countOf count (us ++ more)) := by
  refine (extends_symbol h more _).bind (fun a _ hnil => ?_) fun a ha => ?_
  · obtain ⟨opening, rest⟩ := a
    obtain rfl : rest = [] := hnil
    exact runsOut_groupEnd h.fault 0
  · exact (extends_groupEnd (h.suffix (symbol_suffix ha)) more 0).bind (fun _ _ hnil => hnil)
      fun _ _ => .inr rfl

end

/-- A field that starts with a word can go on as a call or as a column. -/
theorem extends_callOrColumn (h : q₀.Begins q us) (more : List Token) (first : Token)
    {called : Query → Token → List Token → Checked (QueryField × List Token)}
    (hcalled : Extends more (called q₀ first us) (called q first (us ++ more))) :
    Extends more
      (q₀.nextIs .openParen us >>= fun isCall =>
        if isCall then called q₀ first us else q₀.columnAt first us)
      (q.nextIs .openParen (us ++ more) >>= fun isCall =>
        if isCall then called q first (us ++ more) else q.columnAt first (us ++ more)) := by
  cases us with
  | nil =>
    rw [nextIs, atEnd_eq h.fault]
    exact .inl (runsOut_columnAt h.fault first)
  | cons t us =>
    rw [List.cons_append, nextIs, nextIs]
    exact .ite (fun _ => hcalled) fun _ => extends_columnAt h more first

theorem extends_fieldAt {first : Token} (h : q₀.Begins q (first :: us)) (more : List Token) :
    Extends more (q₀.fieldAt first us) (q.fieldAt first (us ++ more)) := by
  have hcall := extends_callOrColumn h.tail more first (extends_call h.tail more first)
  have hcount := extends_callOrColumn h.tail more first (extends_countOf h.tail more first)
  unfold fieldAt
  split
  · exact hcall
  · exact hcount
  · exact .inr rfl
  · exact .ite (fun _ => (extends_braces h more).map (fun _ => rfl) fun _ => rfl)
      fun _ => .refl_error _
  · exact .ite (fun _ => .inr rfl) fun _ => hcall
  · exact extends_columnAt h.tail more first
  · exact .refl_error _

theorem extends_field {first : Token} (h : q₀.Begins q (first :: us)) (more : List Token) :
    Extends more (q₀.field first us) (q.field first (us ++ more)) := by
  refine (extends_fieldAt h more).bind (fun a _ hnil => ?_) fun a ha => ?_
  · obtain ⟨f, rest⟩ := a
    obtain rfl : rest = [] := hnil
    exact runsOut_bind (runsOut_aliasOf h.fault f.name) fun _ _ hnil => hnil
  · have hrest := h.tail.suffix (fieldAt_suffix ha)
    exact (extends_aliasOf hrest more a.1.name).bind (fun _ _ hnil => hnil) fun _ _ => .inr rfl

section

variable (h : q₀.Begins q us) (more : List Token)
include h

theorem extends_itemEnd (passing : Passing) :
    Extends more (q₀.itemEnd passing us) (q.itemEnd passing (us ++ more)) := by
  induction us generalizing passing with
  | nil => exact .inl (runsOut_itemEnd h.fault passing)
  | cons t us ih =>
    cases passing with
    | item =>
      simp only [List.cons_append, itemEnd]
      split
      · exact .inr rfl
      · exact .inr rfl
      · exact ih h.tail _
      · exact ih h.tail _
      · exact ih h.tail _
    | braces => exact ih h.tail _
    | group depth =>
      simp only [List.cons_append, itemEnd]
      split
      · exact ih h.tail _
      · cases depth with
        | zero => exact ih h.tail _
        | succ depth => exact ih h.tail _
      · exact ih h.tail _

theorem extends_selectStep : Extends more (q₀.selectStep us) (q.selectStep (us ++ more)) := by
  refine (extends_skipBraces h more _ false).bind (fun a _ hnil => ?_) fun a ha => ?_
  · obtain rfl : a = [] := hnil
    trivial
  · have hrest := h.suffix (skipBraces_suffix ha)
    cases a with
    | nil => exact .inl trivial
    | cons t rest =>
      refine .ite (fun _ => .inr rfl) fun _ => .ite (fun _ => .inr rfl) fun _ => ?_
      refine (extends_field hrest more).bind (fun a _ hnil => ?_) fun a ha => ?_
      · obtain ⟨f, after⟩ := a
        obtain rfl : after = [] := hnil
        exact runsOut_bind (runsOut_itemEnd h.fault .item) fun _ _ hnil => hnil
      · have hafter := hrest.tail.suffix (field_suffix ha)
        exact (extends_itemEnd hafter more .item).bind (fun _ _ hnil => hnil) fun _ _ => .inr rfl

theorem extends_selectItems : Extends more (q₀.selectItems us) (q.selectItems (us ++ more)) := by
  induction hn : us.length using Nat.strongRecOn generalizing us with
  | ind n ih =>
    rcases extends_selectStep h more with hout | hstep
    · exact .inl (runsOut_selectItems h.fault hout)
    · rw [selectItems_eq q₀, selectItems_eq q, hstep]
      cases hq : q₀.selectStep us with
      | error e => exact .refl_error e
      | ok step =>
        cases step with
        | done clauses => exact .inr rfl
        | item f rest =>
          have hrest := h.suffix (selectStep_suffix hq)
          have hlater := ih _ (hn ▸ selectStep_length hq) hrest rfl
          exact hlater.map (fun _ => rfl) fun _ => rfl

end

/-- The items of the list that `select` is in front of, of which there has to be one. -/
def listBehind (q : Query) (select : Token) (ts : List Token) :
    Checked (List QueryField × List Token) :=
  q.selectItems ts >>= fun x => if x.1.isEmpty then .error ⟨.emptySelect, select.span⟩ else .ok x

theorem runsOut_listBehind (select : Token) (hout : RunsOut (q₀.selectItems us)) :
    RunsOut (q₀.listBehind select us) := by
  refine runsOut_bind hout fun a ha hnil => ?_
  rcases from_of_selectItems ha with ⟨t, later, hclauses, -⟩
  cases hclauses.symm.trans hnil

theorem extends_listBehind (h : q₀.Begins q us) (more : List Token) (select : Token) :
    Extends more (q₀.listBehind select us) (q.listBehind select (us ++ more)) := by
  rcases extends_selectItems h more with hout | heq
  · exact .inl (runsOut_listBehind select hout)
  · rw [listBehind, listBehind, heq]
    cases q₀.selectItems us with
    | error e => exact .refl_error e
    | ok x => exact .ite (fun _ => .refl_error _) fun _ => .inr rfl

/-- A list runs out at a word that is its only token, be it a quantifier or a column. -/
theorem extends_quantified (h : q₀.Begins q us) (more : List Token) (select : Token) :
    Extends more (q₀.skipQuantifier us >>= q₀.listBehind select)
      (q.skipQuantifier (us ++ more) >>= q.listBehind select) := by
  match us with
  | [] =>
    rw [skipQuantifier, atEnd_eq h.fault]
    exact .inl (runsOut_listBehind select (runsOut_selectItems_nil h.fault))
  | [t] =>
    have hskip : q₀.skipQuantifier [t] = .ok [t] := by
      rw [skipQuantifier, atEnd_eq h.fault, ite_self]
    rw [hskip]
    -- With more tokens behind it `t` may be passed over as a quantifier, but then it is a word.
    by_cases hquantifier : isQuantifier t
    · have hword : t.kind = .word := by
        simp only [isQuantifier, Bool.and_eq_true, beq_iff_eq] at hquantifier
        exact hquantifier.1
      exact .inl (runsOut_listBehind select (runsOut_selectItems_word h.fault hword))
    · have hmore : q.skipQuantifier ([t] ++ more) = .ok ([t] ++ more) := by
        cases more <;> simp [skipQuantifier, hquantifier]
      rw [hmore]
      exact extends_listBehind h more select
  | t :: u :: rest =>
    simp only [List.cons_append, skipQuantifier]
    split
    · exact extends_listBehind h.tail more select
    · exact extends_listBehind h more select

theorem extends_selectList (h : q₀.Begins q us) (more : List Token) :
    Extends more (q₀.selectList us) (q.selectList (us ++ more)) := by
  cases us with
  | nil => exact .inl (isEnd_endFault h.fault _)
  | cons select us =>
    have hlist := extends_quantified h.tail more select
    exact .ite (fun _ => .refl_error _) fun _ => hlist

/-- Where the select list of a query ends, it can be read from the beginning of the query. -/
theorem extends_selected (h : q₀.Begins q us) (more : List Token) :
    Extends more (q₀.skipAllBraces us >>= q₀.selectList)
      (q.skipAllBraces (us ++ more) >>= q.selectList) := by
  refine (extends_skipBraces h more _ false).bind (fun a _ hnil => ?_) fun a ha => ?_
  · obtain rfl : a = [] := hnil
    exact isEnd_endFault h.fault _
  · exact extends_selectList (h.suffix (skipBraces_suffix ha)) more

/-- Behind the select list there is a keyword. -/
theorem exists_of_selected {fields : List QueryField} {clauses : List Token} (hq : q.Holds us)
    (h : (q.skipAllBraces us >>= q.selectList) = .ok (fields, clauses)) :
    ∃ keyword later, clauses = keyword :: later ∧ clauses <:+ us := by
  rcases Checked.bind_eq_ok h with ⟨vs, hskip, hselect⟩
  rcases exists_of_selectList hselect with ⟨items, hlist, hitems⟩
  rcases from_of_selectItems hitems with ⟨keyword, later, hclauses, -⟩
  have hsuffix := hlist.trans (skipBraces_suffix hskip)
  have hfields := selects_of_selectItems (hq.suffix hsuffix) hitems
  exact ⟨keyword, later, hclauses, hfields.suffix.trans hsuffix⟩

end Query

end QueryTemplate
