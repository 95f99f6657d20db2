import QueryTemplate.Proofs.Query.Items

/-! # The select list is read item by item

What the readers of the select list take from the tokens ahead is an item, with the parts it has as
a stretch of tokens: directives, the head of a field, an alias, and what is passed over up to the
next comma or `FROM`.
-/

namespace QueryTemplate

namespace Query

variable {q : Query} {ts us rest : List Token} {first t : Token} {own : Text}
  {aliasName : Option Text} {stop : Span}

theorem endsGroups_of_closingParen? {depth : Nat} (h : closingParen? depth ts = some (stop, rest)) :
    ∃ group, ts = group ++ rest ∧ EndsGroups depth group := by
  induction ts generalizing depth with
  | nil => cases h
  | cons t ts ih =>
    unfold closingParen? at h
    split at h
    · rename_i hopen
      rcases ih h with ⟨group, rfl, hgroup⟩
      exact ⟨t :: group, rfl, .opening (by simp [Token.isSymbol, hopen]) hgroup⟩
    · rename_i hclose
      have ht : t.isSymbol .closeParen := by simp [Token.isSymbol, hclose]
      split at h
      · cases h
        exact ⟨[t], rfl, .last ht⟩
      · rcases ih h with ⟨group, rfl, hgroup⟩
        exact ⟨t :: group, rfl, .closing ht hgroup⟩
    · rename_i hopen hclose
      rcases ih h with ⟨group, rfl, hgroup⟩
      exact ⟨t :: group, rfl, .other (by simpa [Token.isSymbol] using hopen)
        (by simpa [Token.isSymbol] using hclose) hgroup⟩

theorem endsGroups_of_groupEnd {depth : Nat} (h : q.groupEnd depth ts = .ok (stop, rest)) :
    ∃ group, ts = group ++ rest ∧ EndsGroups depth group := by
  unfold groupEnd at h
  split at h
  · cases h
  · rename_i hclosing
    exact endsGroups_of_closingParen? (Except.ok.inj h ▸ hclosing)

theorem isBraces_of_braces {s : Symbol} {x : Text × Span} (hs : first.kind = .symbol s)
    (hopens : s.opensBrace) (h : q.braces first ts = .ok (x, rest)) :
    ∃ inner, ts = inner ++ rest ∧ IsBraces s (first :: inner) := by
  unfold braces at h
  split at h
  · cases h
  · rename_i hclosing
    rcases exists_of_closingBrace? hclosing with ⟨inner, closing, rfl, -, hclose, hinner⟩
    cases h
    exact ⟨inner ++ [closing], by simp,
      .intro hopens (by simp [Token.isSymbol, hs]) hinner hclose⟩

/-- Within braces that have been entered, what is skipped begins with the rest of these braces. -/
theorem areBraces_of_skipBraces {skipped : Symbol → Bool} {inside : Bool}
    (h : q.skipBraces skipped inside ts = .ok rest) :
    if inside then ∃ inner closing braces, ts = inner ++ closing :: (braces ++ rest) ∧
      (∀ t ∈ inner, ¬t.isSymbol .closeBrace) ∧ closing.isSymbol .closeBrace ∧
      AreBraces skipped braces
    else ∃ braces, ts = braces ++ rest ∧ AreBraces skipped braces := by
  induction ts generalizing inside with
  | nil =>
    cases inside
    · exact ⟨[], (atEnd_eq_ok h), .nil⟩
    · cases h
  | cons t ts ih =>
    cases inside
    · unfold skipBraces at h
      split at h
      · rename_i s hs
        split at h
        · rename_i hskipped
          rw [Bool.and_eq_true] at hskipped
          rcases ih h with ⟨inner, closing, braces, rfl, hinner, hclosing, hbraces⟩
          refine ⟨(t :: (inner ++ [closing])) ++ braces, by simp, .cons hskipped.2 ?_ hbraces⟩
          exact .intro hskipped.1 (by simp [Token.isSymbol, hs]) hinner hclosing
        · cases h
          exact ⟨[], rfl, .nil⟩
      · cases h
        exact ⟨[], rfl, .nil⟩
    · by_cases hclosing : t.isSymbol .closeBrace
      · rw [skipBraces, hclosing] at h
        rcases ih h with ⟨braces, rfl, hbraces⟩
        exact ⟨[], t, braces, rfl, by simp, hclosing, hbraces⟩
      · rw [skipBraces, Bool.eq_false_iff.2 hclosing] at h
        rcases ih h with ⟨inner, closing, braces, rfl, hinner, hbraces⟩
        exact ⟨t :: inner, closing, braces, rfl, by simp_all, hbraces⟩

theorem qualifies_of_columnAt {f : QueryField} (h : q.columnAt first ts = .ok (f, rest)) :
    ∃ behind, ts = behind ++ rest ∧ Qualifies behind := by
  unfold columnAt at h
  split at h
  · cases atEnd_eq_ok h
    exact ⟨[], rfl, .nothing⟩
  · split at h
    · rename_i dot ts hdot
      cases ts with
      | nil => cases h
      | cons column ts =>
        simp only [qualifiedColumn, next, bind, Except.bind] at h
        split at h
        · rename_i hstar
          cases h
          exact ⟨[dot, column], rfl, .star hdot (by simp [Token.isSymbol, hstar])⟩
        · rename_i s _ hs
          split at h
          · rename_i hopens
            rcases Checked.map_eq_ok h with ⟨⟨x, after⟩, hbraces, hx⟩
            cases hx
            rcases isBraces_of_braces hs hopens hbraces with ⟨inner, rfl, hinner⟩
            exact ⟨dot :: column :: inner, rfl, .braces hdot hinner⟩
          · cases h
        · rename_i hsymbol
          cases h
          exact ⟨[dot, column], rfl, .name hdot hsymbol⟩
    · cases h
      exact ⟨[], rfl, .nothing⟩

theorem endsGroups_of_columnInCall {function : Token} {depth : Nat} {f : QueryField}
    (h : q.columnInCall function depth ts = .ok (f, rest)) :
    ∃ group, ts = group ++ rest ∧ EndsGroups depth group := by
  induction ts generalizing depth with
  | nil => cases h
  | cons t ts ih =>
    have hother (hopen : ¬t.isSymbol .openParen) (hclose : ¬t.isSymbol .closeParen)
        (h : q.columnInCall function depth ts = .ok (f, rest)) :
        ∃ group, t :: ts = group ++ rest ∧ EndsGroups depth group := by
      rcases ih h with ⟨group, rfl, hgroup⟩
      exact ⟨t :: group, rfl, .other hopen hclose hgroup⟩
    unfold columnInCall at h
    split at h
    · rename_i hopen
      rcases ih h with ⟨group, rfl, hgroup⟩
      exact ⟨t :: group, rfl, .opening (by simp [Token.isSymbol, hopen]) hgroup⟩
    · rename_i hclose
      split at h
      · cases h
      · rcases ih h with ⟨group, rfl, hgroup⟩
        exact ⟨t :: group, rfl, .closing (by simp [Token.isSymbol, hclose]) hgroup⟩
    · rename_i hword
      have hopen : ¬t.isSymbol .openParen := by simp [Token.isSymbol, hword]
      have hclose : ¬t.isSymbol .closeParen := by simp [Token.isSymbol, hword]
      split at h
      · rcases Checked.bind_eq_ok h with ⟨⟨g, us⟩, hcolumn, h⟩
        rcases Checked.bind_eq_ok h with ⟨⟨stop, vs⟩, hgroup, h⟩
        cases h
        rcases qualifies_of_columnAt hcolumn with ⟨behind, rfl, hbehind⟩
        rcases endsGroups_of_groupEnd hgroup with ⟨group, rfl, hends⟩
        exact ⟨t :: (behind ++ group), by simp, .other hopen hclose (hends.behind hbehind)⟩
      · exact hother hopen hclose h
    · rename_i hopen hclose _
      exact hother (by simpa [Token.isSymbol] using hopen)
        (by simpa [Token.isSymbol] using hclose) h

theorem exists_of_symbol_openParen (h : q.symbol .openParen ts = .ok (t, rest)) :
    ts = t :: rest ∧ t.isSymbol .openParen := by
  unfold symbol at h
  split at h
  · cases h
  · split at h
    · rename_i hopen
      cases h
      exact ⟨rfl, hopen⟩
    · cases h

theorem isHead_of_call {f : QueryField} (hfirst : first.IsPlain)
    (h : q.call first ts = .ok (f, rest)) :
    ∃ inner, ts = inner ++ rest ∧ IsHead (first :: inner) := by
  rcases Checked.bind_eq_ok h with ⟨⟨opening, us⟩, hopening, hcolumn⟩
  obtain ⟨rfl, hopen⟩ := exists_of_symbol_openParen hopening
  rcases endsGroups_of_columnInCall hcolumn with ⟨group, rfl, hgroup⟩
  exact ⟨opening :: group, rfl, .call hfirst hopen hgroup⟩

theorem isHead_of_countOf {f : QueryField} (hfirst : first.IsPlain)
    (h : q.countOf first ts = .ok (f, rest)) :
    ∃ inner, ts = inner ++ rest ∧ IsHead (first :: inner) := by
  rcases Checked.bind_eq_ok h with ⟨⟨opening, us⟩, hopening, h⟩
  rcases Checked.bind_eq_ok h with ⟨⟨stop, vs⟩, hend, h⟩
  cases h
  obtain ⟨rfl, hopen⟩ := exists_of_symbol_openParen hopening
  rcases endsGroups_of_groupEnd hend with ⟨group, rfl, hgroup⟩
  exact ⟨opening :: group, rfl, .call hfirst hopen hgroup⟩

theorem isHead_of_fieldAt {f : QueryField} (h : q.fieldAt first ts = .ok (f, rest)) :
    ∃ inner, ts = inner ++ rest ∧ IsHead (first :: inner) := by
  have hcolumnAt (hfirst : first.IsPlain) (h : q.columnAt first ts = .ok (f, rest)) :
      ∃ inner, ts = inner ++ rest ∧ IsHead (first :: inner) := by
    rcases qualifies_of_columnAt h with ⟨behind, rfl, hbehind⟩
    exact ⟨behind, rfl, .column hfirst hbehind⟩
  unfold fieldAt at h
  split at h
  · rename_i hkind
    have hfirst : first.IsPlain := by constructor <;> simp [Token.isSymbol, Token.isKeyword, hkind]
    rcases Checked.bind_eq_ok h with ⟨b, -, h⟩
    cases b
    · exact hcolumnAt hfirst h
    · exact isHead_of_call hfirst h
  · rename_i hkind
    have hfirst : first.IsPlain := by constructor <;> simp [Token.isSymbol, Token.isKeyword, hkind]
    rcases Checked.bind_eq_ok h with ⟨b, -, h⟩
    cases b
    · exact hcolumnAt hfirst h
    · exact isHead_of_countOf hfirst h
  · rename_i hstar
    have hfirst : first.IsPlain :=
      Token.isPlain_of_isSymbol (s := .star) (by simp [Token.isSymbol, hstar]) (by decide)
    cases h
    exact ⟨[], rfl, .column hfirst .nothing⟩
  · rename_i s _ hs
    split at h
    · rename_i hopens
      rcases Checked.map_eq_ok h with ⟨⟨x, after⟩, hbraces, hx⟩
      cases hx
      rcases isBraces_of_braces hs hopens hbraces with ⟨inner, rfl, hinner⟩
      exact ⟨inner, rfl, .braces hinner⟩
    · cases h
  · rename_i hkind
    have hfirst : first.IsPlain := by constructor <;> simp [Token.isSymbol, Token.isKeyword, hkind]
    split at h
    · cases h
      exact ⟨[], rfl, .column hfirst .nothing⟩
    · rcases Checked.bind_eq_ok h with ⟨b, -, h⟩
      cases b
      · exact hcolumnAt hfirst h
      · exact isHead_of_call hfirst h
  · rename_i hkind
    have hfirst : first.IsPlain := by constructor <;> simp [Token.isSymbol, Token.isKeyword, hkind]
    exact hcolumnAt hfirst h
  · cases h

theorem writesAlias_of_aliasOf (h : q.aliasOf own ts = .ok (aliasName, rest)) :
    ∃ written, ts = written ++ rest ∧ WritesAlias own written rest aliasName := by
  have hname {ts : List Token} (h : q.bareAlias own ts = .ok (aliasName, rest)) :
      ∃ written, ts = written ++ rest ∧ WritesName own written rest aliasName := by
    unfold bareAlias at h
    split at h
    · cases atEnd_eq_ok h
      exact ⟨[], rfl, .nothing (by simp)⟩
    · split at h
      · rename_i hname
        cases h
        exact ⟨[_], rfl, .name hname⟩
      · rename_i hnone
        cases h
        exact ⟨[], rfl, .nothing (by simpa using hnone)⟩
  unfold aliasOf at h
  split at h
  · cases atEnd_eq_ok h
    exact ⟨[], rfl, .bare (by simp) (.nothing (by simp))⟩
  · rename_i t ts
    split at h
    · rename_i hkeyword
      rcases hname h with ⟨written, rfl, hwritten⟩
      exact ⟨t :: written, rfl, .behindAs hkeyword hwritten⟩
    · rename_i hkeyword
      rcases hname h with ⟨written, hts, hwritten⟩
      exact ⟨written, hts, .bare (by simpa [← hts] using hkeyword) hwritten⟩

/-- The tokens up to `rest` are the end of what has been entered, and then a closed stretch. -/
inductive Passes (rest : List Token) : Passing → List Token → Prop where
  | item {tail : List Token} : IsClosed tail → Passes rest .item (tail ++ rest)
  | braces {inner tail : List Token} {closing : Token} : (∀ t ∈ inner, ¬t.isSymbol .closeBrace) →
    closing.isSymbol .closeBrace → IsClosed tail →
    Passes rest .braces (inner ++ closing :: (tail ++ rest))
  | group {depth : Nat} {group tail : List Token} : EndsGroups depth group → IsClosed tail →
    Passes rest (.group depth) (group ++ (tail ++ rest))

namespace Passes

theorem plain (ht : t.IsPlain) (h : Passes rest .item ts) : Passes rest .item (t :: ts) := by
  cases h with
  | item htail => exact .item (.plain ht htail)

theorem enterBraces {s : Symbol} (hopens : s.opensBrace) (ht : t.isSymbol s)
    (h : Passes rest .braces ts) : Passes rest .item (t :: ts) := by
  cases h with
  | @braces inner tail closing hinner hclosing htail =>
    have hitem : Passes rest .item (t :: (inner ++ [closing]) ++ tail ++ rest) :=
      .item (.braces (.intro hopens ht hinner hclosing) htail)
    simpa using hitem

theorem enterGroup (ht : t.isSymbol .openParen) (h : Passes rest (.group 0) ts) :
    Passes rest .item (t :: ts) := by
  cases h with
  | @group _ group tail hgroup htail =>
    have hitem : Passes rest .item (t :: (group ++ tail) ++ rest) :=
      .item (.group ht hgroup htail)
    simpa using hitem

theorem leaveBraces (ht : t.isSymbol .closeBrace) (h : Passes rest .item ts) :
    Passes rest .braces (t :: ts) := by
  cases h with
  | @item tail htail =>
    have hinner : ∀ u ∈ ([] : List Token), ¬u.isSymbol .closeBrace := List.forall_mem_nil _
    exact .braces hinner ht htail

theorem withinBraces (ht : ¬t.isSymbol .closeBrace) (h : Passes rest .braces ts) :
    Passes rest .braces (t :: ts) := by
  cases h with
  | braces hinner hclosing htail =>
    exact .braces (List.forall_mem_cons.2 ⟨ht, hinner⟩) hclosing htail

theorem leaveGroup (ht : t.isSymbol .closeParen) (h : Passes rest .item ts) :
    Passes rest (.group 0) (t :: ts) := by
  cases h with
  | item htail => exact .group (.last ht) htail

/-- A token of the groups may change their depth. -/
theorem withinGroups {depth depth' : Nat} (h : Passes rest (.group depth) ts)
    (hends : ∀ us, EndsGroups depth us → EndsGroups depth' (t :: us)) :
    Passes rest (.group depth') (t :: ts) := by
  cases h with
  | group hgroup htail => exact .group (hends _ hgroup) htail

end Passes

/-- What is passed over behind the field is the end of braces or groups that have been entered, and
then it is closed. -/
theorem passes_of_itemEnd {passing : Passing} (h : q.itemEnd passing ts = .ok rest) :
    Passes rest passing ts := by
  induction ts generalizing passing with
  | nil =>
    cases passing
    · cases atEnd_eq_ok h
      exact .item .nil
    · cases h
    · cases h
  | cons t ts ih =>
    cases passing with
    | item =>
      unfold itemEnd at h
      split at h
      · cases h
        exact .item .nil
      · cases h
        exact .item .nil
      · rename_i hopen
        exact (ih h).enterGroup (by simp [Token.isSymbol, hopen])
      · rename_i s hcomma hopen hs
        have ht : t.isSymbol s := by simp [Token.isSymbol, hs]
        by_cases hopens : s.opensBrace
        · rw [if_pos hopens] at h
          exact (ih h).enterBraces hopens ht
        · rw [if_neg hopens] at h
          exact (ih h).plain (Token.isPlain_of_isSymbol ht ⟨hcomma, hopen, hopens⟩)
      · rename_i hcomma hfrom hopen hsymbol
        refine (ih h).plain ⟨?_, ?_, ?_, fun s hs => absurd hs (hsymbol s)⟩
        · simpa [Token.isSymbol] using hcomma
        · simpa [Token.isSymbol] using hopen
        · simpa [Token.isKeyword] using hfrom
    | braces =>
      by_cases hclosing : t.isSymbol .closeBrace
      · rw [itemEnd, if_pos hclosing] at h
        exact (ih h).leaveBraces hclosing
      · rw [itemEnd, if_neg hclosing] at h
        exact (ih h).withinBraces hclosing
    | group depth =>
      unfold itemEnd at h
      split at h
      · rename_i hopen
        exact (ih h).withinGroups fun _ => .opening (by simp [Token.isSymbol, hopen])
      · rename_i hclose
        have ht : t.isSymbol .closeParen := by simp [Token.isSymbol, hclose]
        cases depth with
        | zero => exact (ih h).leaveGroup ht
        | succ depth => exact (ih h).withinGroups fun _ => .closing ht
      · rename_i hopen hclose
        exact (ih h).withinGroups fun _ => .other (by simpa [Token.isSymbol] using hopen)
          (by simpa [Token.isSymbol] using hclose)

/-- What is passed over ends in front of a comma or `FROM`. -/
theorem head_of_itemEnd {passing : Passing} (h : q.itemEnd passing ts = .ok rest) :
    ∀ t ∈ rest.head?, t.isSymbol .comma ∨ t.isKeyword .FROM := by
  fun_induction itemEnd q passing ts with
  | case1 =>
    cases atEnd_eq_ok h
    simp
  | case2 => cases h
  | case3 => cases h
  | case4 t ts hcomma =>
    cases h
    simp [Token.isSymbol, hcomma]
  | case5 t ts hfrom =>
    cases h
    simp [Token.isKeyword, hfrom]
  | _ => solve_by_elim

theorem isReadFrom_of_field {lead : List Token} (hlead : IsLead lead) {f : QueryField}
    (hq : q.Holds (first :: ts)) (h : q.field first ts = .ok (f, us))
    (hend : q.itemEnd .item us = .ok rest) : ∃ head written tail,
      first :: ts = head ++ (written ++ tail) ++ rest ∧ f.IsReadFrom lead head written tail := by
  rcases Checked.bind_eq_ok h with ⟨⟨g, vs⟩, hfield, h⟩
  rcases Checked.bind_eq_ok h with ⟨⟨aliasName, ws⟩, halias, h⟩
  cases h
  rcases isField_of_fieldAt hq hfield with ⟨inner, rfl, hg⟩
  rcases isHead_of_fieldAt hfield with ⟨inner', hinner, hhead⟩
  obtain rfl := List.append_cancel_right hinner
  rcases writesAlias_of_aliasOf halias with ⟨written, rfl, hwritten⟩
  obtain @⟨tail, htail⟩ := passes_of_itemEnd hend
  have hwritten := hwritten.of_append
  refine ⟨first :: inner, written, tail, by simp, ?_, hlead, hhead, ⟨first, inner, rfl, hg.span⟩,
    hwritten, fun passed braces htail _ hpassed => ?_⟩
  · exact hlead.isClosed.append (hhead.isClosed.append (hwritten.isClosed.append htail))
  · rw [htail] at hwritten
    exact isNamedByEnd_of_parts hlead hhead hwritten.of_append hpassed

/-- All that a step along the select list can do behind the directives. -/
theorem cases_selectStep {step : SelectStep} (h : q.selectStep ts = .ok step) :
    ∃ directives t us, ts = directives ++ t :: us ∧
      AreBraces (· == .openDirective) directives ∧
      (t.isKeyword .FROM ∧ step = .done (t :: us) ∨ t.isSymbol .comma ∧ step = .item none us ∨
        ∃ f vs rest, q.field t us = .ok (f, vs) ∧ q.itemEnd .item vs = .ok rest ∧
          step = .item (some f) rest) := by
  rcases Checked.bind_eq_ok h with ⟨us, hskip, h⟩
  rcases areBraces_of_skipBraces hskip with ⟨directives, hts, hdirectives⟩
  cases us with
  | nil => cases h
  | cons t us =>
    refine ⟨directives, t, us, hts, hdirectives, ?_⟩
    dsimp only at h
    split at h
    · rename_i hfrom
      cases h
      exact .inl ⟨hfrom, rfl⟩
    · split at h
      · rename_i hcomma
        cases h
        exact .inr (.inl ⟨hcomma, rfl⟩)
      · rcases Checked.bind_eq_ok h with ⟨⟨f, vs⟩, hfield, h⟩
        rcases Checked.bind_eq_ok h with ⟨rest, hend, h⟩
        cases h
        exact .inr (.inr ⟨f, vs, rest, hfield, hend, rfl⟩)

theorem selectItems_of_isSymbol (ht : t.isSymbol .comma) :
    q.selectItems (t :: ts) = q.selectItems ts := by
  have hkind : t.kind = .symbol .comma := eq_of_beq ht
  have hstep : q.selectStep (t :: ts) = .ok (.item none ts) := by
    simp [selectStep, skipDirectives, skipBraces, Symbol.opensBrace, Token.isKeyword, hkind, ht,
      bind, Except.bind, pure, Except.pure]
  rw [selectItems_eq, hstep]
  cases hitems : q.selectItems ts <;> simp [hitems, Except.map]

theorem isLead_append {lead directives : List Token}
    (hlead : lead = [] ∨ ∃ t, lead = [t] ∧ isQuantifier t)
    (h : AreBraces (· == .openDirective) directives) : IsLead (lead ++ directives) := by
  rcases hlead with rfl | ⟨t, rfl, ht⟩
  · exact .directives h
  · exact .quantifier ht h

/-- The items up to `FROM`, behind a quantifier that has been read already. -/
theorem itemizes_of_selectItems {lead : List Token}
    (hlead : lead = [] ∨ ∃ t, lead = [t] ∧ isQuantifier t) {fields : List QueryField}
    {clauses : List Token} (hq : q.Holds ts) (h : q.selectItems ts = .ok (fields, clauses)) :
    ∃ list, ts = list ++ clauses ∧ Itemizes (lead ++ list) fields := by
  induction hn : ts.length using Nat.strongRecOn generalizing lead ts fields with
  | ind n ih =>
    have hlater {part rest : List Token} {fields : List QueryField} (hrest : ts = part ++ rest)
        (hpart : part ≠ []) (h : q.selectItems rest = .ok (fields, clauses)) :
        ∃ list, rest = list ++ clauses ∧ Itemizes list fields := by
      refine ih _ ?_ (.inl rfl) (hq.suffix ⟨part, hrest.symm⟩) h rfl
      have hpos := List.length_pos_iff.2 hpart
      simp only [← hn, hrest, List.length_append]
      omega
    rw [selectItems_eq] at h
    split at h
    · cases h
    · rename_i found hstep
      cases h
      rcases cases_selectStep hstep with ⟨directives, t, us, rfl, hdirectives, ⟨-, hdone⟩ | h | h⟩
      · cases hdone
        exact ⟨directives, rfl, .none (isLead_append hlead hdirectives)⟩
      · cases h.2
      · rcases h with ⟨f, vs, rest, -, -, h⟩
        cases h
    · rename_i f rest hstep
      rcases Checked.map_eq_ok h with ⟨⟨found, after⟩, hfound, hx⟩
      cases hx
      rcases cases_selectStep hstep with ⟨directives, t, us, rfl, hdirectives,
        h | ⟨hcomma, hitem⟩ | ⟨g, vs, rest, hfield, hend, hitem⟩⟩
      · cases h.2
      · cases hitem
        have hts : directives ++ t :: rest = (directives ++ [t]) ++ rest := by simp
        rcases hlater hts (by simp) hfound with ⟨list, rfl, hlist⟩
        refine ⟨directives ++ t :: list, by simp, ?_⟩
        rw [← List.append_assoc]
        exact .skip (isLead_append hlead hdirectives) hcomma hlist
      · cases hitem
        rcases isReadFrom_of_field (isLead_append hlead hdirectives)
          (hq.suffix (List.suffix_append ..)) hfield hend with ⟨head, written, tail, hts, hread⟩
        rw [hts, ← List.append_assoc] at hlater ⊢
        cases rest with
        | nil =>
          obtain ⟨u, later, rfl, -⟩ := from_of_selectItems hfound
          have hsuffix := (selects_of_selectItems (hq.suffix List.nil_suffix) hfound).suffix
          simp at hsuffix
        | cons u rest =>
          rcases head_of_itemEnd hend u rfl with hcomma | hfrom
          · rw [selectItems_of_isSymbol hcomma] at hfound
            rcases hlater (List.append_cons ..) (by simp) hfound with ⟨list, rfl, hlist⟩
            refine ⟨directives ++ (head ++ (written ++ tail)) ++ u :: list, by simp, ?_⟩
            have hcons := Itemizes.cons hread hcomma hlist
            simpa using hcons
          · rw [selectItems_of_isKeyword hfrom] at hfound
            cases hfound
            refine ⟨directives ++ (head ++ (written ++ tail)), rfl, ?_⟩
            have hone := Itemizes.one hread
            simpa using hone

theorem exists_quantifier_of_skipQuantifier (h : q.skipQuantifier ts = .ok rest) :
    ∃ lead, ts = lead ++ rest ∧ (lead = [] ∨ ∃ t, lead = [t] ∧ isQuantifier t) := by
  unfold skipQuantifier at h
  split at h
  · exact ⟨[], atEnd_eq_ok h, .inl rfl⟩
  · split at h
    · exact ⟨[], atEnd_eq_ok h, .inl rfl⟩
    · exact ⟨[], Except.ok.inj h, .inl rfl⟩
  · split at h
    · rename_i hquantifier
      have hfirst := (Bool.and_eq_true_iff.1 hquantifier).1
      exact ⟨[_], congrArg _ (Except.ok.inj h), .inr ⟨_, rfl, hfirst⟩⟩
    · exact ⟨[], Except.ok.inj h, .inl rfl⟩

theorem itemizes_of_selectList {fields : List QueryField} {clauses : List Token} (hq : q.Holds ts)
    (h : q.selectList ts = .ok (fields, clauses)) :
    ∃ select list, ts = select :: (list ++ clauses) ∧ select.isKeyword .SELECT ∧
      Itemizes list fields := by
  rcases Checked.bind_eq_ok h with ⟨⟨select, us⟩, hnext, h⟩
  dsimp only at h
  split at h
  · cases h
  · rename_i hselect
    rcases Checked.bind_eq_ok h with ⟨items, hskip, h⟩
    rcases Checked.bind_eq_ok h with ⟨⟨found, after⟩, hitems, h⟩
    dsimp only at h
    split at h
    · cases h
    · cases h
      cases ts with
      | nil => cases hnext
      | cons t ts =>
        cases hnext
        rcases exists_quantifier_of_skipQuantifier hskip with ⟨lead, rfl, hlead⟩
        rcases itemizes_of_selectItems hlead (hq.suffix ⟨select :: lead, by simp⟩) hitems with
          ⟨list, rfl, hlist⟩
        exact ⟨select, lead ++ list, by simp, by simpa using hselect, hlist⟩

/-- **Each field is read from an item of the select list, and its alias is the name that the item
ends with**, unless further tokens stand behind the field and the name that follows it. -/
theorem itemizes_of_shape {source : Fragment} {shape : QueryShape}
    (h : Query.shape .sql source = .ok shape) : ∃ braces select list keyword clauses,
      (Lexicon.sql.read source).tokens = braces ++ select :: (list ++ keyword :: clauses) ∧
      AreBraces (fun _ => true) braces ∧ select.isKeyword .SELECT ∧ keyword.isKeyword .FROM ∧
      Itemizes list shape.fields := by
  rcases exists_of_shape h with ⟨ts, fields, clauses, hskip, hselect, -, hbound⟩
  rcases areBraces_of_skipBraces hskip with ⟨braces, htokens, hbraces⟩
  have hq := (holds_read source).suffix ⟨braces, htokens.symm⟩
  rcases itemizes_of_selectList hq hselect with ⟨select, list, rfl, hkeyword, hlist⟩
  rcases exists_of_selectList hselect with ⟨items, -, hitems⟩
  rcases from_of_selectItems hitems with ⟨keyword, later, rfl, hfrom⟩
  exact ⟨braces, select, list, keyword, later, htokens, hbraces, hkeyword, hfrom,
    hlist.of_bound hbound⟩

/-- A call, a qualified name and a quoted alias behind directives; in an expression, the operator
stands where an alias is looked for. -/
theorem itemizes_of_shape_expression :
    let source : Fragment := .ofText
      "SELECT ALL %\x7bif a\x7d f(b, 2) AS `n`, t.from w %\x7bendif\x7d, c + d AS e FROM t".toList
    let shape : QueryShape :=
      ⟨[⟨some ['t'], ['b'], some ['n'], false, false, ⟨19, 26⟩⟩,
          ⟨some ['t'], "from".toList, some ['w'], false, false, ⟨35, 41⟩⟩,
          ⟨some ['t'], ['c'], some ['+'], false, false, ⟨54, 55⟩⟩],
        [⟨['t'], none, false, ⟨70, 71⟩⟩]⟩
    Query.shape .sql source = .ok shape ∧ ∃ braces select list keyword clauses,
      (Lexicon.sql.read source).tokens = braces ++ select :: (list ++ keyword :: clauses) ∧
      AreBraces (fun _ => true) braces ∧ select.isKeyword .SELECT ∧ keyword.isKeyword .FROM ∧
      Itemizes list shape.fields := by
  intro source shape
  have h : Query.shape .sql source = .ok shape := by decide +kernel
  exact ⟨h, itemizes_of_shape h⟩

end Query

end QueryTemplate
