import QueryTemplate.Proofs.Rewording.Fields

/-! # The select list of a query with a changed token

The items of both select lists give the same fields, but for the name of one that the changed token
names. There is one exception: in the rest of an item, behind its field and alias, the old token or
the new one may be the `FROM` that ends the list.
-/

namespace QueryTemplate

theorem Query.suffix_of_reference? {t : Token} {ts rest : List Token}
    (h : reference? ts = some (t, rest)) : t :: rest <:+ ts := by
  induction ts with
  | nil => cases h
  | cons u ts ih =>
    rw [reference?] at h
    split at h
    · cases h
      exact List.suffix_rfl
    · exact (ih h).trans (List.suffix_cons ..)

/-- A word or quoted text, or a keyword other than `FROM`, does not end an item. -/
theorem Query.itemEnd_cons {q : Query} {t : Token} (ht : ∀ s, t.isSymbol s = false)
    {passing : Passing} (hfrom : passing = .item → ¬t.isKeyword .FROM) (ts : List Token) :
    q.itemEnd passing (t :: ts) = q.itemEnd passing ts := by
  cases passing with
  | braces => simp [itemEnd, ht]
  | group depth =>
    cases hkind : t.kind with
    | symbol s => exact absurd hkind (Token.kind_ne (ht s))
    | _ => simp only [itemEnd, hkind]
  | item =>
    cases hkind : t.kind with
    | symbol s => exact absurd hkind (Token.kind_ne (ht s))
    | keyword k =>
      have hk : k ≠ .FROM := fun hk => hfrom rfl (by simp [Token.isKeyword, hkind, hk])
      rw [itemEnd, hkind]
      split <;> simp_all
    | _ => simp only [itemEnd, hkind]

namespace Rewording

variable {R : Rewording}

def tokensOf (R : Rewording) (f : QueryField) : List Token :=
  R.tokens.dropWhile (·.span.start != f.span.start)

def Names (R : Rewording) (f : QueryField) : Prop := Query.nameToken? (R.tokensOf f) = some R.old

/-- The field is a call, and the token is the first one in it that refers to a column. -/
def Refers (R : Rewording) (f : QueryField) : Prop :=
  f.span.start < R.start ∧ (Query.columnStart? (R.tokensOf f)).map Prod.fst = some R.old

instance (R : Rewording) (f : QueryField) : Decidable (R.Names f) :=
  inferInstanceAs (Decidable (_ = _))

instance (R : Rewording) (f : QueryField) : Decidable (R.Refers f) :=
  inferInstanceAs (Decidable (_ ∧ _))

/-- The fields are the same, but for their places and the name of one that the token names; an alias
that repeats the name counts as none. -/
structure Renames (R : Rewording) (f f' : QueryField) : Prop where
  table : f.table = f'.table
  name : (R.Names f ∧ f.name = R.old.label ∧ f'.name = R.new.label) ∨
    (¬R.Names f ∧ f.name = f'.name)
  aliasName : SameAlias f.name f'.name f.aliasName f'.aliasName
  isAggregate : f.isAggregate = f'.isAggregate
  isVerbatim : f.isVerbatim = f'.isVerbatim
  span : Aligned R.places f.span f'.span

/-- The token is no literal, and it does not stand in a placeholder that gives the name. At the
beginning of a field it is not the name of a function, and within a call it is not the first
reference to a column. -/
structure Admits (R : Rewording) (f : QueryField) : Prop where
  isVerbatim : f.isVerbatim → R.Holds f.span → R.IsDotted ∧ ¬R.IsBraced
  start : R.KeepsName → f.span.start = R.start →
    ¬(R.tail R.word).head?.any fun t => t.isSymbol .openParen
  reference : ¬R.Refers f

theorem IsRead.tokensOf_eq (hR : R.IsRead) {f : QueryField} {first : Token} {ts : List Token}
    (h : first :: ts <:+ R.tokens) (hf : f.span.start = first.span.start) :
    R.tokensOf f = first :: ts := by
  rcases h with ⟨us, hus⟩
  have hholds : (Query.ofText (R.write R.word)).Holds (us ++ first :: ts) :=
    hus ▸ hR.holds_tokens
  have hdrop (u : Token) (hu : u ∈ us) : (u.span.start != first.span.start) = true := by
    have hlt := hholds.start_lt_stop (List.mem_append_left _ hu)
    have hle := (List.pairwise_append.1 hholds.ordered).2.2 u hu first (List.mem_cons_self ..)
    simp only [bne_iff_ne, ne_eq]
    omega
  rw [tokensOf, hf, ← hus, List.dropWhile_append_of_pos hdrop, List.dropWhile_cons_of_neg (by simp)]

/-- The rest of an item ends at the same token, unless it does so at a keyword `FROM` in the place
of the changed one. -/
inductive Ends (R : Rewording) (ts rest : List Token) (other : Checked (List Token)) : Prop where
  | same {rest' : List Token} : other = .ok rest' → R.Resumes rest rest' → Ends R ts rest other
  | stops {us : List Token} : R.old.isKeyword .FROM → R.old ∈ ts → rest = R.old :: us →
    Ends R ts rest other
  | ends {us : List Token} : R.new.isKeyword .FROM → R.old ∈ ts → other = .ok (R.new :: us) →
    rest <:+ R.tail R.word → Ends R ts rest other

/-- The same step, unless it leads to a keyword `FROM` in the place of the token. The field of a
step that leaves the token behind it does not hold it. -/
inductive Steps (R : Rewording) (ts : List Token) (step : Query.SelectStep)
    (other : Checked Query.SelectStep) : Prop where
  | item {f f' : Option QueryField} {rest rest' : List Token} : step = .item f rest →
    other = .ok (.item f' rest') → Option.Rel R.Renames f f' → R.Resumes rest rest' →
    (R.old ∈ rest → ∀ g ∈ f, ¬R.Holds g.span) → Steps R ts step other
  | done {clauses clauses' : List Token} : step = .done clauses → other = .ok (.done clauses') →
    R.Resumes clauses clauses' → Steps R ts step other
  | stops {f : QueryField} {us : List Token} : R.old.isKeyword .FROM → R.old ∈ ts →
    step = .item (some f) (R.old :: us) → ¬R.Holds f.span → Steps R ts step other
  | ends {f f' : QueryField} {rest us : List Token} : R.new.isKeyword .FROM → R.old ∈ ts →
    step = .item (some f) rest → other = .ok (.item (some f') (R.new :: us)) →
    rest <:+ R.tail R.word → ¬R.Holds f.span → Steps R ts step other

/-- A list of fields is the same, but for the name of one, unless either list ends at a keyword
`FROM` in the place of the token. No field then holds the token. -/
inductive Lists (R : Rewording) (ts : List Token) (fields : List QueryField) (clauses : List Token)
    (other : Checked (List QueryField × List Token)) : Prop where
  | same {fields' : List QueryField} {clauses' : List Token} : other = .ok (fields', clauses') →
    List.Forall₂ R.Renames fields fields' → R.Resumes clauses clauses' →
    Lists R ts fields clauses other
  | stops {us : List Token} : R.old.isKeyword .FROM → R.old ∈ ts → clauses = R.old :: us →
    (∀ f ∈ fields, ¬R.Holds f.span) → Lists R ts fields clauses other
  | ends {fields' : List QueryField} {us : List Token} : R.new.isKeyword .FROM → R.old ∈ ts →
    other = .ok (fields', R.new :: us) → fields' ≠ [] → (∀ f ∈ fields, ¬R.Holds f.span) →
    clauses <:+ R.tail R.word → Lists R ts fields clauses other

theorem isQuantifier_eq {t t' : Token} (hkind : t.kind = t'.kind) (hlexeme : t.lexeme = t'.lexeme) :
    Query.isQuantifier t' = Query.isQuantifier t := by
  rw [Query.isQuantifier, Query.isQuantifier, hkind, hlexeme]

/-! ## Where the token stands -/

namespace IsRead

variable (hR : R.IsRead)
include hR

/-- Another token that starts at the same place is the same one. -/
theorem eq_old {t : Token} (ht : t ∈ R.tokens) (hstart : t.span.start = R.start) : t = R.old := by
  have hlt := hR.start_lt_stop
  rcases List.mem_append.1 ht with hlead | hrest
  · have hspan := span_of_mem_lead hlead
    omega
  · rcases List.mem_cons.1 hrest with rfl | htail
    · rfl
    · have hle := hR.stop_le_start htail
      omega

theorem start_lt {t : Token} {ts : List Token} (h : t :: ts <:+ R.tokens) (hold : R.old ∈ ts) :
    t.span.start < R.start := by
  have hholds := hR.holds_tokens.suffix h
  have hlt := hholds.start_lt_stop (List.mem_cons_self ..)
  have hle : t.span.stop ≤ R.start := hholds.stop_le_start hold
  omega

theorem notMem_of_cons {ts : List Token} (h : R.old :: ts <:+ R.tokens) : R.old ∉ ts :=
  fun hold => Nat.lt_irrefl _ (hR.start_lt h hold)

/-- A field that starts at the token is read from it. -/
theorem mem_of_selects {q : Query} {ts clauses : List Token} {fields : List QueryField}
    (hts : ts <:+ R.tokens) (h : Stretches q.Selects ts fields clauses) {f : QueryField}
    (hf : f ∈ fields) (hstart : f.span.start = R.start) : R.old ∈ ts ∧ R.old ∉ clauses := by
  obtain ⟨before, part, more, rfl, hclauses, hselects⟩ := h.exists_of_mem hf
  obtain ⟨-, hfield, -⟩ := hselects
  rename_i first inner
  rw [hfield.span] at hstart
  obtain rfl := hR.eq_old (hts.subset (by simp)) hstart
  refine ⟨by simp, fun hold => ?_⟩
  refine hR.notMem_of_cons ((List.suffix_append before _).trans hts) ?_
  exact List.mem_append_right _ (hclauses.subset hold)

end IsRead

section Readers

variable (hR : R.IsFit) {q q' : Query} (hq : R.Queries q q') {ts ts' : List Token}
include hR hq

/-- A field is the same, but for its name, unless a keyword stands in the place of its alias. -/
theorem exists_field {first first' : Token} {f : QueryField} {rest : List Token}
    (h : R.Resumes (first :: ts) (first' :: ts')) (hf : q.field first ts = .ok (f, rest))
    (hadmits : R.Admits f)
    (hplain : ∀ g us, q.fieldAt first ts = .ok (g, us) → R.old ∈ Query.aliasToken? us →
      R.IsPlain) :
    ∃ f' rest', q'.field first' ts' = .ok (f', rest') ∧ R.Renames f f' ∧ R.Resumes rest rest' := by
  obtain ⟨⟨g, us⟩, hg, hf⟩ := Checked.bind_eq_ok hf
  obtain ⟨⟨a, vs⟩, ha, hf⟩ := Checked.bind_eq_ok hf
  cases hf
  obtain ⟨inner, -, hfield⟩ := Query.isField_of_fieldAt (hq.holds.suffix h.suffix) hg
  have hstart : g.span.start = first.span.start := by rw [hfield.span]; rfl
  have htokens : R.tokensOf { g with aliasName := a } = first :: ts :=
    hR.read.tokensOf_eq h.suffix hstart
  have hword (hold : first = R.old) : Query.canQualify R.old ∧
      ¬ts.head?.any fun t => t.isSymbol .openParen := by
    subst hold
    refine ⟨?_, ?_⟩
    · rcases hR.old_kind with hkind | ⟨k, hkind⟩
      · by_contra hliteral
        have hcolumn : Query.isColumnName R.old.lexeme = false := by
          simpa [Query.canQualify, hkind] using hliteral
        simp only [Query.fieldAt, hkind, hcolumn, Bool.not_false, if_true] at hg
        cases hg
        exact h.start rfl (hadmits.isVerbatim rfl ⟨Nat.le_refl _, Nat.le_refl _⟩).1
      · simp [Query.canQualify, hkind]
    · rw [hR.read.eq_tail h.suffix]
      exact hadmits.start (hR.name (h.start rfl)).1 hstart
  have hreference (hcall : Query.isCall first ts) (later : List Token) :
      Query.reference? ts ≠ some (R.old, later) := by
    intro hreference
    have hold : R.old ∈ ts :=
      (Query.suffix_of_reference? hreference).subset (List.mem_cons_self ..)
    refine hadmits.reference ⟨hstart ▸ hR.read.start_lt h.suffix hold, ?_⟩
    rw [htokens, Query.columnStart?, if_pos hcall, hreference]
    rfl
  obtain ⟨⟨g', us'⟩, hg', ⟨c, hc, hreads⟩, hus⟩ :=
    keeps_fieldAt hR hq h hword hreference (g, us) hg
  obtain ⟨⟨a', vs'⟩, ha', halias, hvs⟩ :=
    keeps_aliasOf hR hq g.name g'.name hus (hplain g us hg) (a, rest) ha
  have hnames : R.Names { g with aliasName := a } ↔ c = R.old := by
    rw [Names, htokens, hc, Option.some_inj]
  refine ⟨{ g' with aliasName := a' }, vs', ?_, ?_, hvs⟩
  · simp only [Query.field, hg', ha', bind, Except.bind, pure, Except.pure]
  · refine ⟨hreads.table, ?_, halias, hreads.isAggregate, hreads.isVerbatim, hreads.span.aligned⟩
    rcases hreads.name with ⟨hold, hname⟩ | ⟨hne, hname⟩
    · exact .inl ⟨hnames.2 hold, hname⟩
    · refine .inr ⟨fun h => hne (hnames.1 h), hname.resolve_right ?_⟩
      rintro ⟨hverbatim, hholds, hbraced⟩
      exact (hadmits.isVerbatim hverbatim hholds).2 hbraced

omit hR in
/-- A token behind a field and its alias does not stand in the field. -/
theorem not_holds_of_field (hR : R.IsRead) {first : Token} {f : QueryField} {rest : List Token}
    (h : first :: ts <:+ R.tokens) (hf : q.field first ts = .ok (f, rest)) (hold : R.old ∈ rest) :
    ¬R.Holds f.span := by
  obtain ⟨⟨g, us⟩, hg, hf⟩ := Checked.bind_eq_ok hf
  obtain ⟨⟨a, vs⟩, ha, hf⟩ := Checked.bind_eq_ok hf
  cases hf
  obtain ⟨inner, rfl, hfield⟩ := Query.isField_of_fieldAt (hq.holds.suffix h) hg
  have hbehind : R.old ∈ us := (Query.aliasOf_suffix ha).subset hold
  have hordered := (hq.holds.suffix h).ordered
  rw [← List.cons_append] at hordered
  have hlast : inner.getLastD first ∈ first :: inner := List.getLastD_mem_cons
  have hle := (List.pairwise_append.1 hordered).2.2 _ hlast _ hbehind
  have hspan : g.span.stop = (inner.getLastD first).span.stop := by rw [hfield.span]; rfl
  intro hholds
  have hstop : R.stop R.word ≤ g.span.stop := hholds.2
  have hstart : R.old.span.start = R.start := rfl
  have hlt := hR.start_lt_stop
  omega

omit hR hq in
theorem Ends.cons {rest : List Token} {other : Checked (List Token)} (h : R.Ends ts rest other)
    (t : Token) : R.Ends (t :: ts) rest other := by
  cases h with
  | same hend hrest => exact .same hend hrest
  | stops hfrom hold hrest => exact .stops hfrom (List.mem_cons_of_mem _ hold) hrest
  | ends hfrom hold hend hrest => exact .ends hfrom (List.mem_cons_of_mem _ hold) hend hrest

omit hq in
/-- The changed token ends an item as the keyword `FROM`, or it is passed over. -/
theorem ends_itemEnd_old {rest : List Token} {passing : Query.Passing}
    (h : R.old :: ts <:+ R.tokens) (hend : q.itemEnd passing (R.old :: ts) = .ok rest)
    (hlater : q.itemEnd passing ts = .ok rest →
      R.Ends (R.old :: ts) rest (q'.itemEnd passing ts')) :
    R.Ends (R.old :: ts) rest (q'.itemEnd passing (R.new :: ts')) := by
  by_cases hstops : passing = .item ∧ R.old.isKeyword .FROM
  · obtain ⟨rfl, hfrom⟩ := hstops
    rw [Query.itemEnd, show R.old.kind = .keyword .FROM from eq_of_beq hfrom] at hend
    cases hend
    exact .stops hfrom (List.mem_cons_self ..) rfl
  rw [Query.itemEnd_cons hR.old_isSymbol fun hitem hfrom => hstops ⟨hitem, hfrom⟩] at hend
  by_cases hends : passing = .item ∧ R.new.isKeyword .FROM
  · obtain ⟨rfl, hfrom⟩ := hends
    have hother : q'.itemEnd .item (R.new :: ts') = .ok (R.new :: ts') := by
      rw [Query.itemEnd, show R.new.kind = .keyword .FROM from eq_of_beq hfrom]
    have hrest : rest <:+ R.tail R.word := hR.read.eq_tail h ▸ Query.itemEnd_suffix hend
    exact .ends hfrom (List.mem_cons_self ..) hother hrest
  rw [Query.itemEnd_cons hR.new_isSymbol fun hitem hfrom => hends ⟨hitem, hfrom⟩]
  exact hlater hend

/-- The rest of an item ends at the same token, or at a keyword in the place of the changed one. -/
theorem ends_itemEnd (h : R.Rest ts ts') {passing : Query.Passing} {rest : List Token}
    (hend : q.itemEnd passing ts = .ok rest) : R.Ends ts rest (q'.itemEnd passing ts') := by
  induction ts generalizing ts' passing with
  | nil =>
    obtain rfl := h.eq_nil
    cases passing with
    | item =>
      have hnil : R.Resumes [] [] := ⟨⟨h, by simp⟩, by simp⟩
      obtain ⟨rest', hend', hrest⟩ := keeps_atEnd hq hnil rest hend
      exact .same hend' hrest
    | braces => cases hend
    | group depth => cases hend
  | cons t ts ih =>
    obtain ⟨t', ts', rfl, ht⟩ := h.exists_cons
    have hlater {passing : Query.Passing} (hend : q.itemEnd passing ts = .ok rest) :
        R.Ends (t :: ts) rest (q'.itemEnd passing ts') := (ih h.tail.2 hend).cons t
    cases ht with
    | word => exact ends_itemEnd_old hR h.suffix hend hlater
    | @alike _ t' hold hkind hlexeme hspan =>
      have ht : R.Match t t' := .alike hold hkind hlexeme hspan
      cases passing with
      | braces =>
        rw [Query.itemEnd] at hend
        rw [Query.itemEnd, hR.isSymbol_eq ht]
        exact hlater hend
      | group depth =>
        rw [Query.itemEnd.eq_def] at hend ⊢
        dsimp only at hend ⊢
        rw [← hkind]
        revert hend
        split
        · exact hlater
        · cases depth <;> exact hlater
        · exact hlater
      | item =>
        rw [Query.itemEnd] at hend
        rw [Query.itemEnd, ← hkind]
        revert hend
        split
        · rename_i hcomma
          rintro ⟨⟩
          exact .same rfl (hR.resumes_cons h hold (by simp [Token.isSymbol, hcomma]))
        · rename_i hfrom
          rintro ⟨⟩
          exact .same rfl (hR.resumes_cons h hold (by simp [Token.isSymbol, hfrom]))
        · exact hlater
        · exact hlater
        · exact hlater

omit hq in
/-- A keyword in the place of an alias is passed over with the rest of the item. -/
theorem notMem_of_itemEnd (hplain : ¬R.IsPlain) {own : Text} {as vs rest : List Token}
    {a : Option Text} (has : as <:+ R.tokens) (hold : R.old ∈ Query.aliasToken? as)
    (ha : q.aliasOf own as = .ok (a, vs)) (hend : q.itemEnd .item vs = .ok rest) :
    R.old ∉ rest := by
  obtain ⟨hword, hdot⟩ := not_or.1 hplain
  obtain ⟨k, hk⟩ := hR.kind.resolve_left hword
  have hname : k = .COUNT ∨ k = .IFNULL := (hR.name hdot).2 k hk
  have hkind : R.old.kind = .keyword k := hk
  have hnot {k' : Keyword} (hcount : k' ≠ .COUNT) (hifnull : k' ≠ .IFNULL) :
      ¬R.old.isKeyword k' := by
    rcases hname with rfl | rfl <;> simp [Token.isKeyword, hkind, hcount.symm, hifnull.symm]
  have hbare (us : List Token) : q.bareAlias own (R.old :: us) = .ok (none, R.old :: us) := by
    simp [Query.bareAlias, Token.name?, hkind]
  have hbehind : ∃ us, vs = R.old :: us ∧ R.old :: us <:+ R.tokens := by
    cases as with
    | nil => cases hold
    | cons t ts =>
      rw [Query.aliasToken?] at hold
      rw [Query.aliasOf] at ha
      split at hold
      · rename_i hkeyword
        rw [if_pos hkeyword] at ha
        cases ts with
        | nil => cases hold
        | cons u us =>
          obtain rfl : u = R.old := Option.some.inj hold
          rw [hbare] at ha
          cases ha
          exact ⟨us, rfl, (List.suffix_cons ..).trans has⟩
      · rename_i hkeyword
        obtain rfl : t = R.old := Option.some.inj hold
        rw [if_neg hkeyword, hbare] at ha
        cases ha
        exact ⟨ts, rfl, has⟩
  obtain ⟨us, rfl, hus⟩ := hbehind
  rw [Query.itemEnd_cons hR.old_isSymbol fun _ => hnot (by decide) (by decide)] at hend
  exact fun hmem => hR.read.notMem_of_cons hus ((Query.itemEnd_suffix hend).subset hmem)

/-- A keyword does not stand in the place of an alias if a field starts at it. -/
theorem isPlain_of_field {first : Token} {f : QueryField} {vs rest : List Token}
    (h : first :: ts <:+ R.tokens) (hf : q.field first ts = .ok (f, vs))
    (hend : q.itemEnd .item vs = .ok rest)
    (hplain : R.IsPlain ∨ f.span.start = R.start ∨ R.old ∈ rest) {g : QueryField}
    {as : List Token} (hg : q.fieldAt first ts = .ok (g, as))
    (hold : R.old ∈ Query.aliasToken? as) : R.IsPlain := by
  obtain ⟨⟨_, _⟩, hg', hf⟩ := Checked.bind_eq_ok hf
  obtain ⟨⟨a, _⟩, ha, hf⟩ := Checked.bind_eq_ok hf
  cases hf
  obtain ⟨rfl, rfl⟩ := Prod.mk.inj (Except.ok.inj (hg.symm.trans hg'))
  obtain ⟨inner, rfl, hfield⟩ := Query.isField_of_fieldAt (hq.holds.suffix h) hg
  rcases hplain with hplain | hstart | hrest
  · exact hplain
  · have hlt := hR.read.start_lt h (List.mem_append_right _ (Query.mem_of_aliasToken? hold))
    have hfirst : g.span.start = first.span.start := by rw [hfield.span]; rfl
    exact absurd (hfirst.symm.trans hstart) (Nat.ne_of_lt hlt)
  · by_contra hplain
    have has : as <:+ R.tokens :=
      ((List.suffix_append inner as).trans (List.suffix_cons ..)).trans h
    exact notMem_of_itemEnd hR hplain has hold ha hend hrest

/-- The same step, where a keyword that is not behind a dot starts a field of this step or of a
later one. -/
theorem steps_selectStep (h : R.Resumes ts ts') {step : Query.SelectStep}
    (hstep : q.selectStep ts = .ok step)
    (hadmits : ∀ f rest, step = .item (some f) rest → R.Admits f)
    (hplain : R.old ∈ ts → ∀ f rest, step = .item (some f) rest →
      R.IsPlain ∨ f.span.start = R.start ∨ R.old ∈ rest) :
    R.Steps ts step (q'.selectStep ts') := by
  obtain ⟨us, hskip, hstep⟩ := Checked.bind_eq_ok hstep
  obtain ⟨us', hskip', hus⟩ :=
    keeps_skipBraces hR hq (fun _ _ => id) _ false h.toRest (fun _ => h) us hskip
  have hskip' : q'.skipDirectives ts' = .ok us' := hskip'
  have hsuffix : us <:+ ts := Query.skipBraces_suffix hskip
  cases us with
  | nil => cases hstep
  | cons t us =>
    obtain ⟨t', us', rfl, ht⟩ := hus.exists_cons
    have hfrom : t'.isKeyword .FROM = t.isKeyword .FROM :=
      hR.isKeyword_eq ht (fun hold => hus.start (congrArg some hold)) (by decide) (by decide)
    simp only [Query.selectStep, hskip', bind, Except.bind, hfrom, hR.isSymbol_eq ht]
    dsimp only at hstep
    split at hstep
    · rename_i hkeyword
      cases hstep
      exact .done rfl (by rw [if_pos hkeyword]; rfl) hus
    · rename_i hkeyword
      rw [if_neg hkeyword]
      split at hstep
      · rename_i hcomma
        cases hstep
        refine .item rfl (by rw [if_pos hcomma]; rfl) .none (hR.resumes hus.toRest ?_) (by simp)
        simp_all [Token.isSymbol]
      · rename_i hcomma
        rw [if_neg hcomma]
        obtain ⟨⟨f, vs⟩, hf, hstep⟩ := Checked.bind_eq_ok hstep
        obtain ⟨ws, hend, hstep⟩ := Checked.bind_eq_ok hstep
        cases hstep
        have hmem : vs <:+ ts := ((Query.field_suffix hf).trans (List.suffix_cons ..)).trans hsuffix
        have hholds (hold : R.old ∈ vs) : ¬R.Holds f.span :=
          not_holds_of_field hq hR.read hus.suffix hf hold
        have halias (g : QueryField) (as : List Token) (hg : q.fieldAt t us = .ok (g, as))
            (hold : R.old ∈ Query.aliasToken? as) : R.IsPlain := by
          have hmem : R.old ∈ us :=
            (Query.fieldAt_suffix hg).subset (Query.mem_of_aliasToken? hold)
          exact isPlain_of_field hR hq hus.suffix hf hend
            (hplain (hsuffix.subset (List.mem_cons_of_mem _ hmem)) f ws rfl) hg hold
        obtain ⟨f', vs', hf', hrenames, hvs⟩ :=
          exists_field hR hq hus hf (hadmits f ws rfl) halias
        cases ends_itemEnd hR hq hvs.toRest hend with
        | @same rest' hend' hrest =>
          refine .item rfl (by simp only [hf', hend']; rfl) (.some hrenames) hrest ?_
          rintro hold _ ⟨⟩
          exact hholds ((Query.itemEnd_suffix hend).subset hold)
        | stops hfrom hold hrest =>
          exact .stops hfrom (hmem.subset hold) (congrArg _ hrest) (hholds hold)
        | ends hfrom hold hend' hrest =>
          exact .ends hfrom (hmem.subset hold) rfl (by simp only [hf', hend']; rfl) hrest
            (hholds hold)

omit hR in
/-- Fields that are read from tokens behind the changed one stand behind it. -/
theorem stop_le_of_selectItems (hR : R.IsRead) {fields : List QueryField} {clauses : List Token}
    (h : ts <:+ R.tail R.word) (hitems : q.selectItems ts = .ok (fields, clauses)) :
    ∀ f ∈ fields, R.stop R.word ≤ f.span.start := by
  have hsuffix : ts <:+ R.tokens :=
    h.trans ((List.suffix_cons R.old _).trans (List.suffix_append ..))
  intro f hf
  obtain ⟨before, part, more, rfl, -, hselects⟩ :=
    (Query.selects_of_selectItems (hq.holds.suffix hsuffix) hitems).exists_of_mem hf
  obtain ⟨-, hfield, -⟩ := hselects
  rename_i first inner
  have hfirst : first ∈ R.tail R.word := h.subset (by simp)
  rw [hfield.span]
  exact hR.stop_le_start hfirst

omit hR in
theorem not_holds_of_selectItems (hR : R.IsRead) {fields : List QueryField} {clauses : List Token}
    (h : ts <:+ R.tail R.word) (hitems : q.selectItems ts = .ok (fields, clauses)) :
    ∀ f ∈ fields, ¬R.Holds f.span := fun f hf hholds =>
  have hstart := Nat.le_trans (stop_le_of_selectItems hq hR h hitems f hf) hholds.1
  Nat.not_lt.2 hstart hR.start_lt_stop

omit hR hq in
/-- An item that is the same, in front of a list. -/
theorem Lists.prepend {f f' : Option QueryField} {rest clauses : List Token}
    {later : List QueryField} {other other' : Checked (List QueryField × List Token)}
    (h : R.Lists rest later clauses other)
    (hother : other' = other.map fun x => (f'.toList ++ x.1, x.2))
    (hf : Option.Rel R.Renames f f') (hrest : rest <:+ ts)
    (hholds : R.old ∈ rest → ∀ g ∈ f, ¬R.Holds g.span) :
    R.Lists ts (f.toList ++ later) clauses other' := by
  subst hother
  have hall (hold : R.old ∈ rest) (hlist : ∀ g ∈ later, ¬R.Holds g.span) :
      ∀ g ∈ f.toList ++ later, ¬R.Holds g.span := by
    intro g hg
    rcases List.mem_append.1 hg with hg | hg
    · exact hholds hold g (Option.mem_toList.1 hg)
    · exact hlist g hg
  cases h with
  | same hlist hrenames hclauses =>
    refine .same (by rw [hlist]; rfl) (List.rel_append ?_ hrenames) hclauses
    cases hf with
    | none => exact .nil
    | some hf => exact .cons hf .nil
  | stops hfrom hold hclauses hlist =>
    exact .stops hfrom (hrest.subset hold) hclauses (hall hold hlist)
  | ends hnew hold hlist hne hnone hclauses =>
    exact .ends hnew (hrest.subset hold) (by rw [hlist]; rfl) (by simp [hne]) (hall hold hnone)
      hclauses

/-- A list that ends here ends here in both queries. -/
theorem lists_of_done (h : R.Resumes ts ts') {clauses : List Token}
    (hstep : q.selectStep ts = .ok (.done clauses)) :
    R.Lists ts [] clauses (q'.selectItems ts') := by
  cases steps_selectStep hR hq h hstep (by simp) (by simp) with
  | done hstep hother hclauses =>
    cases hstep
    exact .same (by rw [Query.selectItems_eq, hother]) .nil hclauses
  | item hstep => cases hstep
  | stops _ _ hstep => cases hstep
  | ends _ _ hstep => cases hstep

/-- A list is the same if its first item is and the list behind that. -/
theorem lists_of_item (h : R.Resumes ts ts') {f : Option QueryField} {rest clauses : List Token}
    {later : List QueryField} (hstep : q.selectStep ts = .ok (.item f rest))
    (hlater : q.selectItems rest = .ok (later, clauses))
    (hadmits : ∀ g ∈ f, R.Admits g)
    (hplain : R.old ∈ ts → R.IsPlain ∨ ∃ g ∈ f.toList ++ later, g.span.start = R.start)
    (hfollow : ∀ rest', R.Resumes rest rest' →
      (R.old ∈ rest → R.IsPlain ∨ ∃ g ∈ later, g.span.start = R.start) →
      R.Lists rest later clauses (q'.selectItems rest')) :
    R.Lists ts (f.toList ++ later) clauses (q'.selectItems ts') := by
  have hfirst := Query.selects_of_selectStep (hq.holds.suffix h.suffix) hstep
  have hrest : rest <:+ R.tokens := hfirst.suffix.trans h.suffix
  have hselects := Query.selects_of_selectItems (hq.holds.suffix hrest) hlater
  have hsteps : R.Steps ts (.item f rest) (q'.selectStep ts') := by
    refine steps_selectStep hR hq h hstep ?_ ?_
    · rintro g _ ⟨⟩
      exact hadmits g rfl
    · rintro hold g _ ⟨⟩
      refine (hplain hold).imp id ?_
      rintro ⟨first, hfirst, hstart⟩
      rcases List.mem_cons.1 hfirst with rfl | hfirst
      · exact .inl hstart
      · exact .inr (hR.read.mem_of_selects hrest hselects hfirst hstart).1
  have hnext {f' : Option QueryField} {rest' : List Token}
      (hitem : q'.selectStep ts' = .ok (.item f' rest')) :
      q'.selectItems ts' = (q'.selectItems rest').map fun x => (f'.toList ++ x.1, x.2) := by
    rw [Query.selectItems_eq, hitem]
  cases hsteps with
  | done hstep => cases hstep
  | stops hfrom hold hstep hholds =>
    cases hstep
    rw [Query.selectItems_of_isKeyword hfrom] at hlater
    cases hlater
    exact .stops hfrom hold rfl (by simpa using hholds)
  | ends hnew hold hstep hother hbehind hholds =>
    cases hstep
    have hother := hnext hother
    rw [Query.selectItems_of_isKeyword hnew] at hother
    refine .ends hnew hold hother (by simp) ?_ (hselects.suffix.trans hbehind)
    exact List.forall_mem_cons.2 ⟨hholds, not_holds_of_selectItems hq hR.read hbehind hlater⟩
  | item hstep hother hf hresumes hholds =>
    cases hstep
    refine (hfollow _ hresumes fun hold => ?_).prepend (hnext hother) hf hfirst.suffix hholds
    refine (hplain (hfirst.suffix.subset hold)).imp id ?_
    rintro ⟨g, hg, hstart⟩
    rcases List.mem_append.1 hg with hg | hg
    · exact absurd hold (hR.read.mem_of_selects h.suffix hfirst hg hstart).2
    · exact ⟨g, hg, hstart⟩

/-- The fields are the same item by item, up to a keyword `FROM` in the place of the token. A
keyword that is not behind a dot has to be the beginning of one of them. -/
theorem lists_selectItems (h : R.Resumes ts ts') {fields : List QueryField} {clauses : List Token}
    (hitems : q.selectItems ts = .ok (fields, clauses)) (hadmits : ∀ f ∈ fields, R.Admits f)
    (hplain : R.old ∈ ts → R.IsPlain ∨ ∃ f ∈ fields, f.span.start = R.start) :
    R.Lists ts fields clauses (q'.selectItems ts') := by
  induction hn : ts.length using Nat.strongRecOn generalizing ts ts' fields with
  | ind n ih =>
    rw [Query.selectItems_eq] at hitems
    cases hstep : q.selectStep ts with
    | error e =>
      rw [hstep] at hitems
      cases hitems
    | ok step =>
      rw [hstep] at hitems
      cases step with
      | done tokens =>
        cases hitems
        exact lists_of_done hR hq h hstep
      | item f rest =>
        obtain ⟨⟨later, _⟩, hlater, hfields⟩ := Checked.map_eq_ok hitems
        cases hfields
        refine lists_of_item hR hq h hstep hlater (fun g hg => ?_) hplain fun rest' hrest hplain' =>
          ih _ (hn ▸ Query.selectStep_length hstep) hrest hlater (fun g hg => ?_) hplain' rfl
        · exact hadmits g (List.mem_append_left _ (Option.mem_toList.2 hg))
        · exact hadmits g (List.mem_append_right _ hg)

/-- The same quantifier is passed over, unless the token is one that its quotes turn into a name. -/
theorem exists_skipQuantifier (h : R.Resumes ts ts') {rest : List Token}
    (hskip : q.skipQuantifier ts = .ok rest) :
    (∃ rest', q'.skipQuantifier ts' = .ok rest' ∧ R.Resumes rest rest') ∨
      (R.KeepsName ∧ Query.isQuantifier R.old ∧ rest <:+ R.tail R.word) := by
  have hnew : Query.isQuantifier R.new = false := by
    rcases hR.new_kind with ⟨quote, hnew⟩ | ⟨k, hnew⟩ <;> simp [Query.isQuantifier, hnew]
  cases ts with
  | nil =>
    obtain rfl := h.eq_nil
    exact .inl (keeps_atEnd hq h rest hskip)
  | cons t ts =>
    obtain ⟨t', ts', rfl, ht⟩ := h.exists_cons
    cases ts with
    | nil =>
      obtain rfl := h.tail.2.eq_nil
      have hrest : [t] = rest := by
        rw [Query.skipQuantifier] at hskip
        split at hskip
        · exact Query.atEnd_eq_ok hskip
        · exact Except.ok.inj hskip
      cases ht with
      | word =>
        refine .inl ⟨[R.new], ?_, hrest ▸ h⟩
        rw [Query.skipQuantifier, hnew]
        rfl
      | alike _ hkind hlexeme =>
        rw [Query.skipQuantifier] at hskip ⊢
        rw [isQuantifier_eq hkind hlexeme]
        have hkeeps : Keeps R.Resumes (if Query.isQuantifier t then q.atEnd [t] else .ok [t])
            (if Query.isQuantifier t then q'.atEnd [t'] else .ok [t']) :=
          .ite (fun _ => keeps_atEnd hq h) fun _ => .ok h
        exact .inl (hkeeps rest hskip)
    | cons u ts =>
      obtain ⟨u', ts', rfl, hu⟩ := h.tail.2.exists_cons
      rw [Query.skipQuantifier] at hskip ⊢
      cases ht with
      | word =>
        rw [hnew, Bool.false_and, if_neg Bool.false_ne_true]
        split at hskip
        · rename_i hquantifier
          cases hskip
          refine .inr ⟨(hR.name (h.start rfl)).1, (Bool.and_eq_true_iff.1 hquantifier).1, ?_⟩
          exact hR.read.eq_tail h.suffix ▸ List.suffix_rfl
        · cases hskip
          exact .inl ⟨_, rfl, h⟩
      | alike _ hkind hlexeme =>
        rw [isQuantifier_eq hkind hlexeme, hR.isSymbol_eq hu]
        by_cases hquantifier : Query.isQuantifier t
        · have hword : t.kind = .word := eq_of_beq (Bool.and_eq_true_iff.1 hquantifier).1
          have hbehind := hR.resumes h.toRest (by simp [Token.isSymbol, hword])
          have hfrom : u'.isKeyword .FROM = u.isKeyword .FROM :=
            hR.isKeyword_eq hu (fun hold => hbehind.start (congrArg some hold)) (by decide)
              (by decide)
          rw [hfrom]
          split at hskip <;> cases hskip
          · exact .inl ⟨_, by rw [if_pos ‹_›], hbehind⟩
          · exact .inl ⟨_, by rw [if_neg ‹_›], h⟩
        · rw [Bool.not_eq_true] at hquantifier
          rw [hquantifier, Bool.false_and, if_neg Bool.false_ne_true] at hskip ⊢
          cases hskip
          exact .inl ⟨_, rfl, h⟩

/-- The select list is the same, if the token does not stand in front of all fields as a
quantifier. -/
theorem lists_selectList (h : R.Resumes ts ts') {fields : List QueryField} {clauses : List Token}
    (hlist : q.selectList ts = .ok (fields, clauses)) (hadmits : ∀ f ∈ fields, R.Admits f)
    (hquantifier : R.KeepsName → Query.isQuantifier R.old →
      ∃ f ∈ fields, f.span.start ≤ R.start)
    (hplain : R.IsPlain ∨ ∃ f ∈ fields, f.span.start = R.start) :
    R.Lists ts fields clauses (q'.selectList ts') := by
  obtain ⟨⟨select, us⟩, hnext, hlist⟩ := Checked.bind_eq_ok hlist
  dsimp only at hlist
  split at hlist
  · cases hlist
  · rename_i hselect
    rw [Bool.not_eq_true', Bool.not_eq_false] at hselect
    obtain ⟨items, hskip, hlist⟩ := Checked.bind_eq_ok hlist
    obtain ⟨⟨found, after⟩, hitems, hlist⟩ := Checked.bind_eq_ok hlist
    dsimp only at hlist
    split at hlist
    · cases hlist
    · rename_i hne
      cases hlist
      cases ts with
      | nil => cases hnext
      | cons t ts =>
        cases hnext
        obtain ⟨t', ts', rfl, ht⟩ := h.exists_cons
        have hselect' : t'.isKeyword .SELECT := by
          have hstart (hold : select = R.old) : ¬R.IsDotted := h.start (congrArg some hold)
          rwa [hR.isKeyword_eq ht hstart (by decide) (by decide)]
        have hdot : ¬select.isSymbol .dot := by
          simp [Token.isSymbol, show select.kind = .keyword .SELECT from eq_of_beq hselect]
        have hother {items' : List Token} {x : List QueryField × List Token}
            (hskip : q'.skipQuantifier ts' = .ok items') (hitems : q'.selectItems items' = .ok x)
            (hx : x.1 ≠ []) : q'.selectList (t' :: ts') = .ok x := by
          simp only [Query.selectList, Query.next, bind, Except.bind, hselect', hskip, hitems,
            Bool.not_true, List.isEmpty_iff, hx, if_false]
          rfl
        rcases exists_skipQuantifier hR hq (hR.resumes h.toRest hdot) hskip with
          ⟨items', hskip', hresumes⟩ | ⟨hname, hold, hbehind⟩
        · have hsuffix : items <:+ select :: us :=
            (Query.skipQuantifier_suffix hskip).trans (List.suffix_cons ..)
          cases lists_selectItems hR hq hresumes hitems hadmits fun _ => hplain with
          | same hitems' hlist hclauses =>
            refine .same (hother hskip' hitems' ?_) hlist hclauses
            rintro rfl
            cases hlist
            exact hne rfl
          | stops hfrom hold hclauses hlist =>
            exact .stops hfrom (hsuffix.subset hold) hclauses hlist
          | ends hnew hold hitems' hne' hlist hclauses =>
            exact .ends hnew (hsuffix.subset hold) (hother hskip' hitems' hne') hne' hlist hclauses
        · obtain ⟨f, hf, hstart⟩ := hquantifier hname hold
          have hstop := stop_le_of_selectItems hq hR.read hbehind hitems f hf
          exact absurd (Nat.le_trans hstop hstart) (Nat.not_le.2 hR.read.start_lt_stop)

end Readers

end Rewording

end QueryTemplate
