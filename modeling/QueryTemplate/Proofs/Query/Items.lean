import QueryTemplate.Proofs.Query.Extent

/-! # The items of a select list

The tokens between `SELECT` and `FROM` are items with commas in between, where placeholders,
directives and groups in parentheses hide what they hold. An item is a head, which the field is read
from, an alias directly behind it, and a rest that is passed over. So the alias is the name that the
item ends with unless something stands behind it.
-/

namespace QueryTemplate

/-! ## Stretches that hide what they hold -/

/-- A placeholder or a directive, which `s` opens. -/
inductive IsBraces (s : Symbol) : List Token → Prop where
  | intro {opening closing : Token} {inner : List Token} : s.opensBrace → opening.isSymbol s →
    (∀ t ∈ inner, ¬t.isSymbol .closeBrace) → closing.isSymbol .closeBrace →
    IsBraces s (opening :: (inner ++ [closing]))

/-- Placeholders and directives of the kinds that `skipped` selects. -/
inductive AreBraces (skipped : Symbol → Bool) : List Token → Prop where
  | nil : AreBraces skipped []
  | cons {s : Symbol} {braces ts : List Token} : skipped s → IsBraces s braces →
    AreBraces skipped ts → AreBraces skipped (braces ++ ts)

/-- The tokens end `depth` groups in parentheses and, with the last of them, one more. Braces may
hide what they hold. -/
inductive EndsGroups : Nat → List Token → Prop where
  | last {t : Token} : t.isSymbol .closeParen → EndsGroups 0 [t]
  | closing {depth : Nat} {t : Token} {ts : List Token} : t.isSymbol .closeParen →
    EndsGroups depth ts → EndsGroups (depth + 1) (t :: ts)
  | opening {depth : Nat} {t : Token} {ts : List Token} : t.isSymbol .openParen →
    EndsGroups (depth + 1) ts → EndsGroups depth (t :: ts)
  | other {depth : Nat} {t : Token} {ts : List Token} : ¬t.isSymbol .openParen →
    ¬t.isSymbol .closeParen → EndsGroups depth ts → EndsGroups depth (t :: ts)
  | braces {depth : Nat} {s : Symbol} {braces ts : List Token} : IsBraces s braces →
    EndsGroups depth ts → EndsGroups depth (braces ++ ts)

/-- A token that neither ends an item nor begins a stretch of braces or a group. -/
structure Token.IsPlain (t : Token) : Prop where
  comma : ¬t.isSymbol .comma
  paren : ¬t.isSymbol .openParen
  keyword : ¬t.isKeyword .FROM
  braces : ∀ s : Symbol, t.kind = .symbol s → ¬s.opensBrace

/-- Neither a comma nor `FROM` stands in the tokens, except within braces or groups; `FROM` may
stand behind a dot, where it is a name. -/
inductive IsClosed : List Token → Prop where
  | nil : IsClosed []
  | plain {t : Token} {ts : List Token} : t.IsPlain → IsClosed ts → IsClosed (t :: ts)
  | dotted {dot t : Token} {ts : List Token} : dot.isSymbol .dot → (∀ s, t.kind ≠ .symbol s) →
    IsClosed ts → IsClosed (dot :: t :: ts)
  | braces {s : Symbol} {braces ts : List Token} : IsBraces s braces → IsClosed ts →
    IsClosed (braces ++ ts)
  | group {t : Token} {group ts : List Token} : t.isSymbol .openParen → EndsGroups 0 group →
    IsClosed ts → IsClosed (t :: (group ++ ts))

variable {ts us rest head written tail item : List Token} {t : Token}

theorem IsClosed.append (hts : IsClosed ts) (hus : IsClosed us) : IsClosed (ts ++ us) := by
  induction hts with
  | nil => exact hus
  | plain ht _ ih => exact .plain ht ih
  | dotted hdot ht _ ih => exact .dotted hdot ht ih
  | braces hbraces _ ih =>
    rw [List.append_assoc]
    exact .braces hbraces ih
  | group ht hgroup _ ih =>
    rw [List.cons_append, List.append_assoc]
    exact .group ht hgroup ih

theorem IsBraces.isClosed {s : Symbol} (h : IsBraces s ts) : IsClosed ts :=
  List.append_nil ts ▸ .braces h .nil

theorem AreBraces.isClosed {skipped : Symbol → Bool} (h : AreBraces skipped ts) :
    IsClosed ts := by
  induction h with
  | nil => exact .nil
  | cons _ hbraces _ ih => exact .braces hbraces ih

/-! ## The last token of a stretch -/

/-- The last token is a symbol, so it is no name and no keyword. -/
def EndsWithSymbol (ts : List Token) : Prop := ∃ t ∈ ts.getLast?, ∃ s : Symbol, t.isSymbol s

theorem EndsWithSymbol.append (h : EndsWithSymbol us) (ts : List Token) :
    EndsWithSymbol (ts ++ us) := by
  rcases h with ⟨t, ht, hsymbol⟩
  exact ⟨t, by simp_all [List.getLast?_append], hsymbol⟩

theorem EndsWithSymbol.cons (h : EndsWithSymbol ts) (t : Token) : EndsWithSymbol (t :: ts) :=
  h.append [t]

theorem EndsWithSymbol.concat {s : Symbol} (h : t.isSymbol s) (ts : List Token) :
    EndsWithSymbol (ts ++ [t]) :=
  ⟨t, List.getLast?_concat, s, h⟩

theorem Token.name?_of_isSymbol {s : Symbol} (h : t.isSymbol s) : t.name? = none := by
  simp_all [isSymbol, name?]

theorem Token.name?_of_isKeyword {k : Keyword} (h : t.isKeyword k) : t.name? = none := by
  simp_all [isKeyword, name?]

theorem EndsWithSymbol.name?_eq_none (h : EndsWithSymbol (ts ++ [t])) : t.name? = none := by
  rcases h with ⟨u, hu, s, hs⟩
  rw [List.getLast?_concat, Option.mem_some_iff] at hu
  exact hu ▸ Token.name?_of_isSymbol hs

theorem EndsWithSymbol.not_isKeyword (h : EndsWithSymbol (ts ++ [t])) (k : Keyword) :
    ¬t.isKeyword k := by
  rcases h with ⟨u, hu, s, hs⟩
  rw [List.getLast?_concat, Option.mem_some_iff] at hu
  simp_all [Token.isSymbol, Token.isKeyword]

theorem IsBraces.endsWithSymbol {s : Symbol} (h : IsBraces s ts) : EndsWithSymbol ts := by
  rcases h with ⟨-, -, -, hclosing⟩
  exact .cons (.concat hclosing _) _

theorem AreBraces.endsWithSymbol {skipped : Symbol → Bool} (h : AreBraces skipped ts)
    (hne : ts ≠ []) : EndsWithSymbol ts := by
  induction h with
  | nil => exact absurd rfl hne
  | @cons s braces ts _ hbraces _ ih =>
    by_cases hts : ts = []
    · rw [hts, List.append_nil]
      exact hbraces.endsWithSymbol
    · exact (ih hts).append braces

theorem EndsGroups.endsWithSymbol {depth : Nat} (h : EndsGroups depth ts) :
    EndsWithSymbol ts := by
  induction h with
  | last ht => exact .concat ht []
  | closing _ _ ih => exact ih.cons _
  | opening _ _ ih => exact ih.cons _
  | other _ _ _ ih => exact ih.cons _
  | braces _ _ ih => exact ih.append _

/-! ## Heads -/

/-- What may follow the first word of a column: nothing, or a dot and what stands behind it. -/
inductive Qualifies : List Token → Prop where
  | nothing : Qualifies []
  | name {dot t : Token} : dot.isSymbol .dot → (∀ s, t.kind ≠ .symbol s) → Qualifies [dot, t]
  | star {dot t : Token} : dot.isSymbol .dot → t.isSymbol .star → Qualifies [dot, t]
  | braces {dot : Token} {s : Symbol} {braces : List Token} : dot.isSymbol .dot →
    IsBraces s braces → Qualifies (dot :: braces)

/-- The tokens that a field is read from: a column, a count or a literal, a call, or a
placeholder. -/
inductive IsHead : List Token → Prop where
  | column {first : Token} {behind : List Token} : first.IsPlain → Qualifies behind →
    IsHead (first :: behind)
  | call {function t : Token} {group : List Token} : function.IsPlain → t.isSymbol .openParen →
    EndsGroups 0 group → IsHead (function :: t :: group)
  | braces {s : Symbol} {braces : List Token} : IsBraces s braces → IsHead braces

theorem Token.isPlain_of_isSymbol {s : Symbol} (h : t.isSymbol s)
    (hs : s ≠ .comma ∧ s ≠ .openParen ∧ ¬s.opensBrace) : t.IsPlain := by
  have hkind : t.kind = .symbol s := eq_of_beq h
  refine ⟨by simp [isSymbol, hkind, hs], by simp [isSymbol, hkind, hs],
    by simp [isKeyword, hkind], fun s' hs' => ?_⟩
  rw [hkind, TokenKind.symbol.injEq] at hs'
  exact hs' ▸ hs.2.2

theorem Qualifies.isClosed (h : Qualifies ts) : IsClosed ts := by
  have hplain {dot : Token} (hdot : dot.isSymbol .dot) : dot.IsPlain :=
    Token.isPlain_of_isSymbol hdot (by decide)
  cases h with
  | nothing => exact .nil
  | name hdot ht => exact .dotted hdot ht .nil
  | star hdot ht =>
    exact .plain (hplain hdot) (.plain (Token.isPlain_of_isSymbol ht (by decide)) .nil)
  | braces hdot hbraces => exact .plain (hplain hdot) hbraces.isClosed

theorem IsHead.isClosed (h : IsHead head) : IsClosed head := by
  cases h with
  | column hfirst hbehind => exact .plain hfirst hbehind.isClosed
  | @call _ _ group hfunction ht hgroup =>
    have hclosed := IsClosed.group ht hgroup .nil
    rw [List.append_nil] at hclosed
    exact .plain hfunction hclosed
  | braces hbraces => exact hbraces.isClosed

theorem EndsGroups.behind {depth : Nat} {behind group : List Token} (hbehind : Qualifies behind)
    (h : EndsGroups depth group) : EndsGroups depth (behind ++ group) := by
  have hother {t : Token} {ts : List Token}
      (ht : ∀ s, t.kind = .symbol s → s ≠ .openParen ∧ s ≠ .closeParen) 
      (hts : EndsGroups depth ts) : EndsGroups depth (t :: ts) :=
    .other (fun hs => (ht _ (eq_of_beq hs)).1 rfl) (fun hs => (ht _ (eq_of_beq hs)).2 rfl) hts
  have hdot {dot : Token} {ts : List Token} (hdot : dot.isSymbol .dot)
      (hts : EndsGroups depth ts) : EndsGroups depth (dot :: ts) := by
    refine hother (fun s hs => ?_) hts
    simp_all [Token.isSymbol]
  cases hbehind with
  | nothing => exact h
  | name hd ht => exact hdot hd (hother (fun s hs => absurd hs (ht s)) h)
  | star hd ht =>
    refine hdot hd (hother (fun s hs => ?_) h)
    simp_all [Token.isSymbol]
  | braces hd hbraces => exact hdot hd (.braces hbraces h)

/-- A head that ends with a name is a single token, or the name stands behind a dot. -/
theorem IsHead.endsWithSymbol_or (h : IsHead head) : EndsWithSymbol head ∨
    (∃ t, head = [t]) ∨ ∃ before dot t, head = before ++ [dot, t] ∧ dot.isSymbol .dot := by
  cases h with
  | @column first behind _ hbehind =>
    cases hbehind with
    | nothing => exact .inr (.inl ⟨first, rfl⟩)
    | name hdot _ => exact .inr (.inr ⟨[first], _, _, rfl, hdot⟩)
    | star hdot _ => exact .inr (.inr ⟨[first], _, _, rfl, hdot⟩)
    | braces _ hbraces => exact .inl ((hbraces.endsWithSymbol.cons _).cons _)
  | call _ _ hgroup => exact .inl ((hgroup.endsWithSymbol.cons _).cons _)
  | braces hbraces => exact .inl hbraces.endsWithSymbol

/-! ## Aliases -/

/-- The alias of something called `own` that is written in front of `tail`, without `AS`: the name
that stands there, unless it repeats the own name. -/
inductive WritesName (own : Text) : List Token → List Token → Option Text → Prop where
  | nothing {tail : List Token} : (∀ t ∈ tail.head?, t.name? = none) → WritesName own [] tail none
  | name {t : Token} {tail : List Token} {w : Text} : t.name? = some w →
    WritesName own [t] tail (if w = own then none else some w)

/-- The alias of something called `own` that is written in front of `tail`, perhaps behind `AS`. -/
inductive WritesAlias (own : Text) : List Token → List Token → Option Text → Prop where
  | bare {written tail : List Token} {aliasName : Option Text} :
    (∀ t ∈ (written ++ tail).head?, ¬t.isKeyword .AS) → WritesName own written tail aliasName →
    WritesAlias own written tail aliasName
  | behindAs {t : Token} {written tail : List Token} {aliasName : Option Text} :
    t.isKeyword .AS → WritesName own written tail aliasName →
    WritesAlias own (t :: written) tail aliasName

variable {own w : Text} {aliasName : Option Text}

/-- Behind a head and its alias, the alias part adds nothing or ends with the alias. -/
theorem WritesAlias.cases_end (h : WritesAlias own written tail aliasName) :
    (aliasName = none ∧ (∀ t ∈ tail.head?, t.name? = none) ∧
      (written = [] ∨ ∃ t, written = [t] ∧ t.isKeyword .AS)) ∨
    ∃ front t w, written = front ++ [t] ∧ t.name? = some w ∧
      aliasName = if w = own then none else some w := by
  cases h with
  | bare _ hname =>
    cases hname with
    | nothing htail => exact .inl ⟨rfl, htail, .inl rfl⟩
    | name ht => exact .inr ⟨[], _, _, rfl, ht, rfl⟩
  | @behindAs t _ _ _ hkeyword hname =>
    cases hname with
    | nothing htail => exact .inl ⟨rfl, htail, .inr ⟨t, rfl, hkeyword⟩⟩
    | name ht => exact .inr ⟨[t], _, _, rfl, ht, rfl⟩

theorem WritesAlias.isClosed (h : WritesAlias own written tail aliasName) : IsClosed written := by
  have hplain {t : Token} {w : Text} (ht : t.name? = some w) : t.IsPlain := by
    refine ⟨fun hs => ?_, fun hs => ?_, fun hk => ?_, fun s hs => ?_⟩
    · simp [Token.name?_of_isSymbol hs] at ht
    · simp [Token.name?_of_isSymbol hs] at ht
    · simp [Token.name?_of_isKeyword hk] at ht
    · simp [Token.name?, hs] at ht
  have hclosed {written : List Token} (h : WritesName own written tail aliasName) :
      IsClosed written := by
    cases h with
    | nothing _ => exact .nil
    | name ht => exact .plain (hplain ht) .nil
  cases h with
  | bare _ hname => exact hclosed hname
  | behindAs hkeyword hname =>
    have hkind : Token.kind _ = .keyword .AS := eq_of_beq hkeyword
    refine .plain ⟨?_, ?_, ?_, fun s hs => ?_⟩ (hclosed hname) <;>
      simp_all [Token.isSymbol, Token.isKeyword]

theorem WritesAlias.of_append (h : WritesAlias own written (tail ++ rest) aliasName) :
    WritesAlias own written tail aliasName := by
  have hhead {t : Token} {us : List Token} (ht : t ∈ us.head?) : t ∈ (us ++ rest).head? := by
    cases us with
    | nil => cases ht
    | cons u us => exact ht
  have hname {written : List Token} (h : WritesName own written (tail ++ rest) aliasName) :
      WritesName own written tail aliasName := by
    cases h with
    | nothing htail => exact .nothing fun t ht => htail t (hhead ht)
    | name ht => exact .name ht
  cases h with
  | bare hkeyword hwritten =>
    rw [← List.append_assoc] at hkeyword
    exact .bare (fun t ht => hkeyword t (hhead ht)) (hname hwritten)
  | behindAs hkeyword hwritten => exact .behindAs hkeyword (hname hwritten)

/-! ## Items -/

/-- The alias of a field is the name that its item ends with. -/
structure QueryField.IsNamedByEnd (item : List Token) (f : QueryField) : Prop where
  last : ∀ w, f.aliasName = some w → ∃ t ∈ item.getLast?, t.name? = some w
  output : ∀ before keyword t w, item = before ++ [keyword, t] → keyword.isKeyword .AS →
    t.name? = some w → f.outputName = w

/-- What may stand in front of the head of an item: directives, behind a quantifier at the beginning
of the list. -/
inductive IsLead : List Token → Prop where
  | directives {directives : List Token} : AreBraces (· == .openDirective) directives →
    IsLead directives
  | quantifier {t : Token} {directives : List Token} : Query.isQuantifier t →
    AreBraces (· == .openDirective) directives → IsLead (t :: directives)

theorem Token.isPlain_of_isQuantifier (h : Query.isQuantifier t) : t.IsPlain := by
  have hkind : t.kind = .word := eq_of_beq (Bool.and_eq_true_iff.1 h).1
  constructor <;> simp [isSymbol, isKeyword, hkind]

theorem IsLead.isClosed {lead : List Token} (h : IsLead lead) : IsClosed lead := by
  cases h with
  | directives hdirectives => exact hdirectives.isClosed
  | quantifier ht hdirectives =>
    exact .plain (Token.isPlain_of_isQuantifier ht) hdirectives.isClosed

theorem IsLead.not_isKeyword {lead : List Token} (h : IsLead (lead ++ [t])) (k : Keyword) :
    ¬t.isKeyword k := by
  have hlast {directives : List Token} (hdirectives : AreBraces (· == .openDirective) directives)
      (ht : t ∈ directives.getLast?) : ¬t.isKeyword k := by
    have hne : directives ≠ [] := by
      rintro rfl
      cases ht
    obtain ⟨u, hu, s, hs⟩ := hdirectives.endsWithSymbol hne
    obtain rfl := Option.mem_unique ht hu
    simp_all [Token.isSymbol, Token.isKeyword]
  generalize hts : lead ++ [t] = ts at h
  have ht : t ∈ ts.getLast? := hts ▸ List.getLast?_concat
  cases h with
  | directives hdirectives => exact hlast hdirectives ht
  | @quantifier u directives hu hdirectives =>
    by_cases hne : directives = []
    · rw [hne, List.getLast?_singleton, Option.mem_some_iff] at ht
      have hkind : t.kind = .word := eq_of_beq (Bool.and_eq_true_iff.1 (ht ▸ hu)).1
      simp [Token.isKeyword, hkind]
    · refine hlast hdirectives ?_
      rwa [List.getLast?_cons_of_ne_nil hne] at ht

/-- What is passed over behind a head and its alias hides no alias: there is nothing, or there is no
alias in front of it and it does not end with one. -/
def HidesNoAlias (f : QueryField) (tail : List Token) : Prop :=
  tail = [] ∨ f.aliasName = none ∧
    ∀ before keyword t, tail = before ++ [keyword, t] → ¬keyword.isKeyword .AS

variable {lead : List Token} {f : QueryField}

/-- If an item ends with `AS` and a name, this is the field's name in the result. -/
theorem output_of_parts (hlead : IsLead lead) (hhead : IsHead head)
    (halias : WritesAlias f.name written tail f.aliasName) (htail : HidesNoAlias f tail)
    {before : List Token} {keyword t : Token}
    (hitem : lead ++ (head ++ (written ++ tail)) = before ++ [keyword, t])
    (hkeyword : keyword.isKeyword .AS) (ht : t.name? = some w) : f.outputName = w := by
  have hunnamed : keyword.name? = none := Token.name?_of_isKeyword hkeyword
  rcases List.eq_nil_or_concat tail with rfl | ⟨tail, last, rfl⟩
  · rw [List.append_nil] at hitem
    rcases halias.cases_end with ⟨-, -, hwritten⟩ | ⟨front, u, v, rfl, hu, hname⟩
    · rcases hwritten with rfl | ⟨u, rfl, hu⟩
      · -- the item ends with its head
        rw [List.append_nil] at hitem
        rcases hhead.endsWithSymbol_or with hsymbol | ⟨u, rfl⟩ | ⟨front, dot, u, rfl, hdot⟩
        · have hlast := hsymbol.append lead
          rw [hitem, List.append_cons before] at hlast
          simp [hlast.name?_eq_none] at ht
        · rw [List.append_cons before] at hitem
          obtain ⟨rfl, -⟩ := List.append_inj' hitem rfl
          exact absurd hkeyword (hlead.not_isKeyword _)
        · rw [← List.append_assoc] at hitem
          obtain ⟨-, heq⟩ := List.append_inj' hitem rfl
          cases heq
          simp_all [Token.isSymbol, Token.isKeyword]
      · rw [← List.append_assoc, List.append_cons before]
          at hitem
        obtain ⟨-, heq⟩ := List.append_inj' hitem rfl
        cases heq
        simp [Token.name?_of_isKeyword hu] at ht
    · rw [← List.append_assoc, ← List.append_assoc,
        List.append_cons before] at hitem
      obtain ⟨-, heq⟩ := List.append_inj' hitem rfl
      cases heq
      obtain rfl : v = w := Option.some.inj (hu.symm.trans ht)
      rw [QueryField.outputName, hname]
      split
      · rename_i hown
        exact hown.symm
      · rfl
  · rcases htail with hnil | ⟨hnone, htail⟩
    · simp at hnil
    · rcases List.eq_nil_or_concat tail with rfl | ⟨tail, last', rfl⟩
      · -- a name directly behind the head or `AS` would be the alias
        rw [List.concat_eq_append, List.nil_append, ← List.append_assoc, ← List.append_assoc,
          List.append_cons before] at hitem
        obtain ⟨hfront, heq⟩ := List.append_inj' hitem rfl
        cases heq
        rcases halias.cases_end with ⟨-, hbehind, -⟩ | ⟨front, u, v, rfl, hu, -⟩
        · simp [hbehind] at ht
        · rw [← List.append_assoc] at hfront
          obtain ⟨-, heq⟩ := List.append_inj' hfront rfl
          cases heq
          simp [hunnamed] at hu
      · rw [List.concat_eq_append, List.concat_eq_append, List.append_assoc, ← List.append_assoc,
          ← List.append_assoc, ← List.append_assoc] at hitem
        obtain ⟨-, heq⟩ := List.append_inj' hitem rfl
        cases heq
        exact absurd hkeyword (htail tail keyword t (by simp))

theorem isNamedByEnd_of_parts (hlead : IsLead lead) (hhead : IsHead head)
    (halias : WritesAlias f.name written tail f.aliasName) (htail : HidesNoAlias f tail) :
    f.IsNamedByEnd (lead ++ (head ++ (written ++ tail))) := by
  refine ⟨fun w hw => ?_, fun before keyword t w hitem hkeyword ht =>
    output_of_parts hlead hhead halias htail hitem hkeyword ht⟩
  rcases htail with rfl | ⟨hnone, -⟩
  · rcases halias.cases_end with ⟨hnone, -⟩ | ⟨front, t, v, rfl, ht, hname⟩
    · simp [hnone] at hw
    · obtain rfl : v = w := by
        rw [hname] at hw
        split at hw
        · cases hw
        · exact Option.some.inj hw
      exact ⟨t, by simp [← List.append_assoc], ht⟩
  · simp [hnone] at hw

/-- A field is read from the item with these parts. Its alias is the name that the item ends with,
up to placeholders and directives at the end, unless the tail in front of them hides one. -/
structure QueryField.IsReadFrom (lead head written tail : List Token) (f : QueryField) : Prop where
  closed : IsClosed (lead ++ (head ++ (written ++ tail)))
  front : IsLead lead
  isHead : IsHead head
  span : ∃ first inner, head = first :: inner ∧ f.span = first.reach inner
  aliasName : WritesAlias f.name written tail f.aliasName
  named : ∀ passed braces, tail = passed ++ braces → AreBraces (fun _ => true) braces →
    HidesNoAlias f passed → f.IsNamedByEnd (lead ++ (head ++ (written ++ passed)))

/-- The tokens are items with commas in between; each item gives a field, or it has no head. -/
inductive Itemizes : List Token → List QueryField → Prop where
  | none {lead : List Token} : IsLead lead → Itemizes lead []
  | one {lead head written tail : List Token} {f : QueryField} :
    f.IsReadFrom lead head written tail → Itemizes (lead ++ (head ++ (written ++ tail))) [f]
  | skip {lead later : List Token} {comma : Token} {fields : List QueryField} :
    IsLead lead → comma.isSymbol .comma → Itemizes later fields →
    Itemizes (lead ++ comma :: later) fields
  | cons {lead head written tail later : List Token} {comma : Token} {f : QueryField}
    {fields : List QueryField} : f.IsReadFrom lead head written tail → comma.isSymbol .comma →
    Itemizes later fields →
    Itemizes (lead ++ (head ++ (written ++ tail)) ++ comma :: later) (f :: fields)

/-- What an item is read as depends on the name, the alias and the place of its field only. -/
theorem QueryField.IsReadFrom.of_bound {lead head written tail : List Token} {f g : QueryField}
    {tables : List QueryTable} (h : f.IsReadFrom lead head written tail)
    (hbound : f.IsBoundAs tables g) : g.IsReadFrom lead head written tail := by
  rcases hbound with ⟨t, -, rfl⟩
  refine ⟨h.closed, h.front, h.isHead, h.span, h.aliasName, ?_⟩
  intro passed braces htail hbraces hpassed
  have hnamed := h.named passed braces htail hbraces hpassed
  exact ⟨hnamed.last, hnamed.output⟩

theorem Itemizes.of_bound {list : List Token} {fields bound : List QueryField}
    {tables : List QueryTable} (h : Itemizes list fields)
    (hbound : List.Forall₂ (QueryField.IsBoundAs tables) fields bound) : Itemizes list bound := by
  induction h generalizing bound with
  | none hlead =>
    cases hbound
    exact .none hlead
  | one hread =>
    cases hbound with
    | cons hf hnil =>
      cases hnil
      exact .one (hread.of_bound hf)
  | skip hlead hcomma _ ih => exact .skip hlead hcomma (ih hbound)
  | cons hread hcomma _ ih =>
    cases hbound with
    | cons hf hlater => exact .cons (hread.of_bound hf) hcomma (ih hlater)

end QueryTemplate
