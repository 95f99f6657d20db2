import QueryTemplate.Proofs.Query.Itemization
import QueryTemplate.Proofs.Rewording.Parts

/-! # The fields of a query with a changed token

A field takes its name from one token, which stands at its beginning, behind a dot, or inside a
call. The fields of both queries are the same, but for the name of one that takes it from the
changed token.
-/

namespace QueryTemplate

namespace Query

/-- Whether `t`, inside a call and in front of `rest`, refers to a column. -/
def isReference (t : Token) (rest : List Token) : Bool :=
  t.kind == .word && isColumnName t.lexeme && !rest.head?.any (·.isSymbol .openParen)

/-- The first token inside a call that refers to a column, with the tokens behind it. -/
def reference? : List Token → Option (Token × List Token)
  | [] => none
  | t :: rest => if isReference t rest then some (t, rest) else reference? rest

/-- Whether `first`, in front of `rest`, is the function of a call that is read up to a column. -/
def isCall (first : Token) (rest : List Token) : Bool :=
  (first.isKeyword .IFNULL || first.kind == .word && isColumnName first.lexeme) &&
    rest.head?.any (·.isSymbol .openParen)

/-- The first token of the column that the field at the beginning of the tokens is read from, with
the tokens behind it. -/
def columnStart? : List Token → Option (Token × List Token)
  | [] => none
  | first :: rest => if isCall first rest then reference? rest else some (first, rest)

def canQualify (t : Token) : Bool :=
  match t.kind with
  | .symbol _ => false
  | .word => isColumnName t.lexeme
  | _ => true

/-- The token that names the column that starts with `first`, in front of the tokens. -/
def namedBy (first : Token) : List Token → Token
  | dot :: t :: _ => if dot.isSymbol .dot && canQualify first then t else first
  | _ => first

/-- The token that names the field at the beginning of the tokens. -/
def nameToken? (ts : List Token) : Option Token :=
  (columnStart? ts).map fun (first, rest) => namedBy first rest

theorem columnInCall_cons (q : Query) (function : Token) (depth : Nat) (t : Token)
    (rest : List Token) :
    q.columnInCall function depth (t :: rest) =
      match t.kind with
      | .symbol .openParen => q.columnInCall function (depth + 1) rest
      | .symbol .closeParen =>
        match depth with
        | 0 =>
          .error ⟨.unexpectedToken .columnReference (.callWithoutColumn function.lexeme),
            function.span.merge t.span⟩
        | depth + 1 => q.columnInCall function depth rest
      | _ =>
        if isReference t rest then do
          let (field, rest) ← q.columnAt t rest
          let (stop, rest) ← q.groupEnd depth rest
          return ({ field with span := function.span.merge stop }, rest)
        else q.columnInCall function depth rest := by
  rw [columnInCall.eq_def]
  dsimp only
  cases hkind : t.kind with
  | word => simp [isReference, hkind]
  | keyword k => simp [isReference, hkind]
  | quoted quote => simp [isReference, hkind]
  | symbol s => cases s <;> cases depth <;> simp [isReference, hkind]

theorem kind_of_isReference {t : Token} {rest : List Token} (h : isReference t rest) :
    t.kind = .word := by
  simp only [isReference, Bool.and_eq_true, beq_iff_eq] at h
  exact h.1.1

theorem canQualify_of_isReference {t : Token} {rest : List Token} (h : isReference t rest) :
    canQualify t := by
  simp only [isReference, Bool.and_eq_true, beq_iff_eq] at h
  simp [canQualify, h.1.1, h.1.2]

/-- The parenthesis that closes a call stands behind its column. -/
theorem stop_le_of_groupEnd {q : Query} {t : Token} {ts rest last : List Token} {f : QueryField}
    {depth : Nat} {stop : Span} (hq : q.Holds (t :: ts)) (hf : q.columnAt t ts = .ok (f, rest))
    (hstop : q.groupEnd depth rest = .ok (stop, last)) :
    f.span.start = t.span.start ∧ f.span.stop ≤ stop.stop := by
  obtain ⟨inner, rfl, hcolumn⟩ := isColumn_of_columnAt hq hf
  obtain ⟨us, closing, rfl, rfl⟩ := exists_of_groupEnd hstop
  have hmerge : (t.reach inner).merge (closing.reach []) = t.reach (inner ++ us ++ closing :: []) :=
    Holds.merge_reach (hq.sublist (by simp))
  rw [Token.reach_append_cons] at hmerge
  rw [hcolumn.span]
  exact ⟨rfl, Nat.le_trans (Nat.le_max_left ..) (Nat.le_of_eq (congrArg Span.stop hmerge))⟩

theorem nameToken?_of_isCall {first : Token} {ts : List Token} (h : isCall first ts) :
    nameToken? (first :: ts) = (reference? ts).map fun (t, rest) => namedBy t rest := by
  rw [nameToken?, columnStart?, if_pos h]

theorem nameToken?_of_not_isCall {first : Token} {ts : List Token} (h : ¬isCall first ts) :
    nameToken? (first :: ts) = some (namedBy first ts) := by
  rw [nameToken?, columnStart?, if_neg h, Option.map_some]

theorem namedBy_of_not_canQualify {first : Token} (h : ¬canQualify first) (ts : List Token) :
    namedBy first ts = first := by
  rw [namedBy.eq_def]
  split <;> simp [h]

theorem namedBy_of_openParen (first : Token) {ts : List Token}
    (h : ts.head?.any fun t => t.isSymbol .openParen) : namedBy first ts = first := by
  rw [namedBy.eq_def]
  split
  · rename_i dot t _
    rw [if_neg]
    simp_all [Token.isSymbol]
  · rfl

theorem nextIs_eq_ok {q : Query} {s : Symbol} {ts : List Token} {b : Bool}
    (h : q.nextIs s ts = .ok b) : b = ts.head?.any fun t => t.isSymbol s := by
  cases ts with
  | nil => exact (atEnd_eq_ok h).symm
  | cons t ts => exact (Except.ok.inj h).symm

/-- A word or keyword that names a column, and no function, starts one. -/
theorem columnAt_of_fieldAt {q : Query} {first : Token} {ts : List Token}
    {x : QueryField × List Token} (hkind : first.kind = .word ∨ ∃ k, first.kind = .keyword k)
    (hnames : ∀ k, first.kind = .keyword k → k = .COUNT ∨ k = .IFNULL)
    (hqualify : canQualify first) (hopen : ¬ts.head?.any fun t => t.isSymbol .openParen)
    (hx : q.fieldAt first ts = .ok x) : q.columnAt first ts = .ok x := by
  have hbranch {y : Checked (QueryField × List Token)}
      (hx : (do if ← q.nextIs .openParen ts then y else q.columnAt first ts) = .ok x) :
      q.columnAt first ts = .ok x := by
    obtain ⟨b, hb, hx⟩ := Checked.bind_eq_ok hx
    rwa [if_neg (nextIs_eq_ok hb ▸ hopen)] at hx
  rcases hkind with hword | ⟨k, hk⟩
  · have hcolumn : isColumnName first.lexeme := by simpa [canQualify, hword] using hqualify
    simp only [fieldAt, hword, hcolumn, Bool.not_true, Bool.false_eq_true, if_false] at hx
    exact hbranch hx
  · rcases hnames k hk with rfl | rfl
    · rw [fieldAt, hk] at hx
      exact hbranch hx
    · rw [fieldAt, hk] at hx
      exact hbranch hx

end Query

namespace Rewording

variable {R : Rewording}

/-- The fields are the same, but for the name if the token `c`, which gives it, is the changed one,
and but for the text of braces around that token. -/
structure Reads (R : Rewording) (c : Token) (f f' : QueryField) : Prop where
  table : f.table = f'.table
  name : (c = R.old ∧ f.name = R.old.label ∧ f'.name = R.new.label) ∨
    (c ≠ R.old ∧ (f.name = f'.name ∨ f.isVerbatim ∧ R.Holds f.span ∧ R.IsBraced))
  isAggregate : f.isAggregate = f'.isAggregate
  isVerbatim : f.isVerbatim = f'.isVerbatim
  span : R.Placed f.span f'.span

theorem Match.names {t t' : Token} (h : R.Match t t') :
    (t = R.old ∧ t.label = R.old.label ∧ t'.label = R.new.label) ∨
      (t ≠ R.old ∧ t.label = t'.label) := by
  cases h with
  | word => exact .inl ⟨rfl, rfl, rfl⟩
  | alike hold hkind hlexeme =>
    refine .inr ⟨hold, ?_⟩
    rw [Token.label, Token.label, Token.name?, Token.name?, hkind, hlexeme]

theorem Match.label_eq {t t' : Token} (h : R.Match t t') (hword : t = R.old → R.KeepsName) :
    t.label = t'.label := by
  rcases h.names with ⟨rfl, -, hnew⟩ | ⟨-, hlabel⟩
  · rw [hnew, (hword rfl).2]
  · exact hlabel

/-- A column without qualifier takes its name from its only token. -/
theorem Match.reads {t t' : Token} (h : R.Match t t') :
    R.Reads t (.column t.label t.span) (.column t'.label t'.span) :=
  ⟨rfl, h.names.imp id fun ⟨hne, hlabel⟩ => ⟨hne, .inl hlabel⟩, rfl, rfl, h.placed_span⟩

/-- A qualifier that is the same in both texts, or stands for the same name. -/
theorem Reads.qualify {c t t' : Token} {f f' : QueryField} (h : R.Reads c f f')
    (ht : R.Match t t') (hword : t = R.old → R.KeepsName) :
    R.Reads c { f with table := some t.label, span := t.span.merge f.span }
      { f' with table := some t'.label, span := t'.span.merge f'.span } where
  table := congrArg some (ht.label_eq hword)
  name := h.name.imp id fun ⟨hne, hname⟩ =>
    ⟨hne, hname.imp id fun ⟨hverbatim, hholds, hbraced⟩ =>
      ⟨hverbatim, hholds.merge_right _, hbraced⟩⟩
  isAggregate := h.isAggregate
  isVerbatim := h.isVerbatim
  span := ht.placed_span.merge h.span

/-- The span of a call goes as far as its column. -/
theorem Reads.extend {c t t' : Token} {f f' : QueryField} {s s' : Span} (h : R.Reads c f f')
    (ht : R.Match t t') (hs : R.Placed s s')
    (hholds : R.Holds f.span → R.Holds (t.span.merge s)) :
    R.Reads c { f with span := t.span.merge s } { f' with span := t'.span.merge s' } where
  table := h.table
  name := h.name.imp id fun ⟨hne, hname⟩ =>
    ⟨hne, hname.imp id fun ⟨hverbatim, hheld, hbraced⟩ =>
      ⟨hverbatim, hholds hheld, hbraced⟩⟩
  isAggregate := h.isAggregate
  isVerbatim := h.isVerbatim
  span := ht.placed_span.merge hs

theorem any_head?_eq (hR : R.IsFit) {ts ts' : List Token} (h : R.Rest ts ts') :
    (ts'.head?.any fun t => t.isSymbol .openParen) =
      ts.head?.any fun t => t.isSymbol .openParen := by
  cases ts with
  | nil => rw [h.eq_nil]
  | cons t ts =>
    obtain ⟨t', ts', rfl, ht⟩ := h.exists_cons
    exact hR.isSymbol_eq ht _

/-- A token in the span of braces stands between them. -/
theorem isBraced_of_braces {q : Query} (hq : q.Holds R.tokens) {opening : Token}
    {ts rest : List Token} {s : Symbol} {x : Text × Span} (h : opening :: ts <:+ R.tokens)
    (hs : opening.kind = .symbol s) (hopens : s.opensBrace)
    (hx : q.braces opening ts = .ok (x, rest)) (hholds : R.Holds x.2) : R.IsBraced := by
  obtain ⟨inner, hinner, hspan, -⟩ := Query.names_of_braces (hq.suffix h) hs hopens hx
  obtain ⟨inner', hinner', hbraces⟩ := Query.isBraces_of_braces hs hopens hx
  obtain rfl := List.append_cancel_right (hinner.symm.trans hinner')
  obtain ⟨before, hbefore⟩ := h
  rw [hinner, ← List.cons_append, ← List.append_assoc] at hbefore
  refine ⟨s, opening :: inner, ⟨before, rest, hbefore⟩, hbraces, ?_⟩
  have hold : R.old ∈ R.tokens := by simp [tokens]
  rw [← hbefore] at hq hold
  exact hq.mem_of_within_reach hold (hspan ▸ hholds.1) (hspan ▸ hholds.2)

section Readers

variable (hR : R.IsFit) {q q' : Query} (hq : R.Queries q q') {ts ts' : List Token}
include hR hq

/-- The text of braces, as a field. -/
theorem keeps_verbatim {opening opening' : Token} {s : Symbol} (hs : opening.kind = .symbol s)
    (hopens : s.opensBrace) (h : R.Rest (opening :: ts) (opening' :: ts')) :
    Keeps (fun x x' => R.Reads opening (.verbatim x.1.1 x.1.2) (.verbatim x'.1.1 x'.1.2) ∧
      R.Resumes x.2 x'.2) (q.braces opening ts) (q'.braces opening' ts') := by
  obtain ⟨hopening, hts⟩ := h.tail
  have hold : opening ≠ R.old := by
    rintro rfl
    exact Token.kind_ne (hR.old_isSymbol s) hs
  intro x hx
  obtain ⟨x', hx', htext, hspan, hrest⟩ := keeps_braces hR hq hopening.placed_span hts x hx
  refine ⟨x', hx', ⟨rfl, .inr ⟨hold, ?_⟩, rfl, rfl, hspan⟩, hrest⟩
  refine htext.imp id fun hholds => ⟨rfl, hholds, ?_⟩
  exact isBraced_of_braces hq.holds h.suffix hs hopens hx hholds

theorem keeps_qualifiedColumn {first first' : Token} (hfirst : R.Match first first')
    (hword : first = R.old → R.KeepsName) (h : R.Rest ts ts') :
    Keeps (fun x x' => (∀ c ∈ ts.head?, R.Reads c x.1 x'.1) ∧ R.Resumes x.2 x'.2)
      (q.qualifiedColumn first ts) (q'.qualifiedColumn first' ts') := by
  cases ts with
  | nil => exact .error _
  | cons t ts =>
    obtain ⟨t', ts', rfl, ht⟩ := h.exists_cons
    have hqualify {f f' : QueryField} {after after' : List Token} (hf : R.Reads t f f')
        (hafter : R.Resumes after after') :
        (∀ c ∈ (t :: ts).head?, R.Reads c
          { f with table := some first.label, span := first.span.merge f.span }
          { f' with table := some first'.label, span := first'.span.merge f'.span }) ∧
            R.Resumes after after' := by
      refine ⟨?_, hafter⟩
      rintro _ ⟨⟩
      exact hf.qualify hfirst hword
    have hname (hdot : ¬t.isSymbol .dot) := hqualify ht.reads (hR.resumes h hdot)
    simp only [Query.qualifiedColumn, Query.next, bind, Except.bind]
    cases ht with
    | word =>
      have hdot : ¬R.old.isSymbol .dot := by simp [hR.old_isSymbol]
      rcases hR.old_kind with hold | ⟨k, hold⟩ <;>
        rcases hR.new_kind with ⟨quote, hnew⟩ | ⟨k', hnew⟩ <;>
        · simp only [hold, hnew]
          exact .ok (hname hdot)
    | @alike _ t' hold hkind hlexeme hspan =>
      have ht : R.Match t t' := .alike hold hkind hlexeme hspan
      rw [← hkind]
      split
      · rename_i hstar
        refine .ok (hqualify ⟨rfl, .inr ⟨hold, .inl rfl⟩, rfl, rfl, hspan⟩ (hR.resumes h ?_))
        simp [Token.isSymbol, hstar]
      · rename_i hs
        refine .ite (fun hopens => ?_) fun _ => .error _
        exact (keeps_verbatim hR hq hs hopens h).map fun _ _ hx => hqualify hx.1 hx.2
      · rename_i hsymbol
        exact .ok (hname fun hdot => hsymbol .dot (eq_of_beq hdot))

theorem keeps_columnAt {first first' : Token} (hfirst : R.Match first first')
    (hword : first = R.old → R.KeepsName) (hqualify : Query.canQualify first)
    (h : R.Resumes ts ts') :
    Keeps (fun x x' => R.Reads (Query.namedBy first ts) x.1 x'.1 ∧ R.Resumes x.2 x'.2)
      (q.columnAt first ts) (q'.columnAt first' ts') := by
  cases ts with
  | nil =>
    obtain rfl := h.eq_nil
    exact keeps_atEnd hq ⟨hfirst.reads, h⟩
  | cons t ts =>
    obtain ⟨t', ts', rfl, ht⟩ := h.exists_cons
    rw [Query.columnAt, Query.columnAt, hR.isSymbol_eq ht]
    refine .ite (fun hdot => ?_) fun hdot => .ok ⟨?_, h⟩
    · intro x hx
      obtain ⟨x', hx', hreads, hrest⟩ :=
        keeps_qualifiedColumn hR hq hfirst hword h.tail.2 x hx
      refine ⟨x', hx', ?_, hrest⟩
      cases ts with
      | nil => cases hx
      | cons u ts =>
        rw [Query.namedBy, if_pos (by simp [hdot, hqualify])]
        exact hreads u rfl
    · have hnamed : Query.namedBy first (t :: ts) = first := by
        cases ts <;> simp [Query.namedBy, hdot]
      rw [hnamed]
      exact hfirst.reads

/-- The first reference inside a call gives its column, unless it is the changed token. -/
theorem keeps_columnInCall {function function' : Token} (hfunction : R.Match function function')
    (h : R.Rest ts ts') (hfirst : ∀ rest, Query.reference? ts ≠ some (R.old, rest))
    (hstart : ∀ t ∈ ts, function.span.start ≤ t.span.start) (depth : Nat) :
    Keeps (fun x x' => (∃ t rest, Query.reference? ts = some (t, rest) ∧
        R.Reads (Query.namedBy t rest) x.1 x'.1) ∧ R.Resumes x.2 x'.2)
      (q.columnInCall function depth ts) (q'.columnInCall function' depth ts') := by
  induction ts generalizing ts' depth with
  | nil => exact .error _
  | cons t ts ih =>
    obtain ⟨t', ts', rfl, ht⟩ := h.exists_cons
    have hlater (hskipped : Query.isReference t ts = false) (depth : Nat) :
        Keeps (fun x x' => (∃ u rest, Query.reference? (t :: ts) = some (u, rest) ∧
            R.Reads (Query.namedBy u rest) x.1 x'.1) ∧ R.Resumes x.2 x'.2)
          (q.columnInCall function depth ts) (q'.columnInCall function' depth ts') := by
      simp only [Query.reference?, hskipped, Bool.false_eq_true, if_false] at hfirst ⊢
      exact ih h.tail.2 hfirst (fun u hu => hstart u (List.mem_cons_of_mem _ hu)) depth
    have hsymbol (hkind : t.kind ≠ .word) : Query.isReference t ts = false := by
      simp [Query.isReference, hkind]
    cases ht with
    | word =>
      have hskipped : Query.isReference R.old ts = false := by
        by_contra hreference
        exact hfirst ts (by simp [Query.reference?, hreference])
      have hskipped' : Query.isReference R.new ts' = false := by
        rcases hR.new_kind with ⟨quote, hnew⟩ | ⟨k, hnew⟩ <;> simp [Query.isReference, hnew]
      rcases hR.old_kind with hold | ⟨k, hold⟩ <;>
        rcases hR.new_kind with ⟨quote, hnew⟩ | ⟨k', hnew⟩ <;>
        · simp only [Query.columnInCall_cons, hold, hnew, hskipped, hskipped']
          exact hlater hskipped depth
    | @alike _ t' hne hkind hlexeme hspan =>
      have ht : R.Match t t' := .alike hne hkind hlexeme hspan
      have href : Query.isReference t' ts' = Query.isReference t ts := by
        rw [Query.isReference, Query.isReference, hkind, hlexeme, any_head?_eq hR h.tail.2]
      rw [Query.columnInCall_cons, Query.columnInCall_cons, ← hkind, href]
      split
      · rename_i hopen
        exact hlater (hsymbol (by simp [hopen])) _
      · rename_i hclose
        cases depth with
        | zero => exact .error _
        | succ depth => exact hlater (hsymbol (by simp [hclose])) _
      · by_cases hreference : Query.isReference t ts
        · rw [if_pos hreference, if_pos hreference]
          have hdot : ¬t.isSymbol .dot := by
            simp [Token.isSymbol, Query.kind_of_isReference hreference]
          refine (keeps_columnAt hR hq ht (absurd · hne)
            (Query.canQualify_of_isReference hreference) (hR.resumes h hdot)).bind ?_
          rintro ⟨f, us⟩ ⟨f', us'⟩ hf ⟨hreads, hus⟩
          refine (keeps_groupEnd hR hus.toRest depth).bind ?_
          rintro ⟨stop, last⟩ ⟨stop', last'⟩ hend ⟨hstop, hlast⟩
          have hspan := Query.stop_le_of_groupEnd (hq.holds.suffix h.suffix) hf hend
          refine .ok ⟨⟨t, ts, by rw [Query.reference?, if_pos hreference], ?_⟩, hlast⟩
          refine hreads.extend hfunction hstop fun hholds => ⟨?_, ?_⟩
          · refine Nat.le_trans (Nat.min_le_left ..) (Nat.le_trans ?_ hholds.1)
            exact hspan.1 ▸ hstart t (List.mem_cons_self ..)
          · exact Nat.le_trans hholds.2 (Nat.le_trans hspan.2 (Nat.le_max_right ..))
        · rw [if_neg hreference, if_neg hreference]
          exact hlater (Bool.not_eq_true _ ▸ hreference) _

omit hR in
theorem keeps_nextIs (hR : R.IsFit) (s : Symbol) (h : R.Rest ts ts') :
    Keeps (· = ·) (q.nextIs s ts) (q'.nextIs s ts') := by
  cases ts with
  | nil =>
    obtain rfl := h.eq_nil
    exact keeps_atEnd hq rfl
  | cons t ts =>
    obtain ⟨t', ts', rfl, ht⟩ := h.exists_cons
    rw [Query.nextIs, Query.nextIs, hR.isSymbol_eq ht]
    exact .ok rfl

theorem keeps_call {first first' : Token} (h : R.Rest (first :: ts) (first' :: ts'))
    (hcall : Query.isCall first ts)
    (hreference : ∀ rest, Query.reference? ts ≠ some (R.old, rest)) :
    Keeps (fun x x' => (∃ c, Query.nameToken? (first :: ts) = some c ∧ R.Reads c x.1 x'.1) ∧
      R.Resumes x.2 x'.2) (q.call first ts) (q'.call first' ts') := by
  obtain ⟨hfirst, hts⟩ := h.tail
  cases ts with
  | nil => exact .error _
  | cons t ts =>
    obtain ⟨t', ts', rfl, ht⟩ := hts.exists_cons
    have hopen : t.isSymbol .openParen := (Bool.and_eq_true_iff.1 hcall).2
    have hopen' : t'.isSymbol .openParen := (hR.isSymbol_eq ht _).trans hopen
    have hskipped : Query.reference? (t :: ts) = Query.reference? ts := by
      rw [Query.reference?, if_neg]
      intro hreference
      simp [Token.isSymbol, Query.kind_of_isReference hreference] at hopen
    have hstart (u : Token) (hu : u ∈ ts) : first.span.start ≤ u.span.start := by
      have hholds := hq.holds.suffix h.suffix
      have hlt := hholds.start_lt_stop (List.mem_cons_self ..)
      have hle := hholds.stop_le_start (List.mem_cons_of_mem _ hu)
      omega
    rw [hskipped] at hreference
    simp only [Query.call, Query.symbol, hopen, hopen', if_true]
    intro x hx
    obtain ⟨x', hx', ⟨c, rest, hc, hreads⟩, hrest⟩ :=
      keeps_columnInCall hR hq hfirst hts.tail.2 hreference hstart 0 x hx
    exact ⟨x', hx', ⟨_, by rw [Query.nameToken?_of_isCall hcall, hskipped, hc]; rfl, hreads⟩, hrest⟩

theorem keeps_callOrColumn {first first' : Token} (h : R.Rest (first :: ts) (first' :: ts'))
    (hold : first ≠ R.old) (hdot : ¬first.isSymbol .dot) (hqualify : Query.canQualify first)
    (hcall : Query.isCall first ts = ts.head?.any fun t => t.isSymbol .openParen)
    (hreference : Query.isCall first ts → ∀ rest, Query.reference? ts ≠ some (R.old, rest)) :
    Keeps (fun x x' => (∃ c, Query.nameToken? (first :: ts) = some c ∧ R.Reads c x.1 x'.1) ∧
      R.Resumes x.2 x'.2)
      (do if ← q.nextIs .openParen ts then q.call first ts else q.columnAt first ts)
      (do if ← q'.nextIs .openParen ts' then q'.call first' ts' else q'.columnAt first' ts') := by
  refine (keeps_nextIs hq hR .openParen h.tail.2).bind ?_
  rintro b _ hb rfl
  have hb : b = Query.isCall first ts := (Query.nextIs_eq_ok hb).trans hcall.symm
  refine .ite (fun hcalled => ?_) fun hcalled => ?_
  · exact keeps_call hR hq h (hb ▸ hcalled) (hreference (hb ▸ hcalled))
  · intro x hx
    obtain ⟨x', hx', hreads, hrest⟩ := keeps_columnAt hR hq h.tail.1 (absurd · hold) hqualify
      (hR.resumes h hdot) x hx
    exact ⟨x', hx', ⟨_, Query.nameToken?_of_not_isCall (hb ▸ hcalled), hreads⟩, hrest⟩

omit hq in
theorem keeps_countOf {first first' : Token} (hfirst : R.Match first first')
    (hold : first ≠ R.old) (h : R.Rest ts ts') :
    Keeps (fun x x' => R.Reads first x.1 x'.1 ∧ R.Resumes x.2 x'.2) (q.countOf first ts)
      (q'.countOf first' ts') := by
  cases ts with
  | nil => exact .error _
  | cons t ts =>
    obtain ⟨t', ts', rfl, ht⟩ := h.exists_cons
    rw [Query.countOf, Query.countOf, Query.symbol, Query.symbol, hR.isSymbol_eq ht]
    by_cases hopen : t.isSymbol .openParen
    · simp only [hopen, if_true]
      refine (keeps_groupEnd hR h.tail.2 0).bind ?_
      rintro ⟨stop, rest⟩ ⟨stop', rest'⟩ - ⟨hstop, hrest⟩
      have hspan := hfirst.placed_span.merge hstop
      exact .ok ⟨⟨rfl, .inr ⟨hold, .inl rfl⟩, rfl, rfl, hspan⟩, hrest⟩
    · simp only [hopen]
      exact .error _

/-- A changed token at the beginning of a field is a column there. -/
theorem keeps_fieldAt_old (h : R.Resumes (R.old :: ts) (R.new :: ts'))
    (hqualify : Query.canQualify R.old) (hopen : ¬ts.head?.any fun t => t.isSymbol .openParen) :
    Keeps (fun x x' => (∃ c, Query.nameToken? (R.old :: ts) = some c ∧ R.Reads c x.1 x'.1) ∧
      R.Resumes x.2 x'.2) (q.fieldAt R.old ts) (q'.fieldAt R.new ts') := by
  obtain ⟨hname, hnames⟩ := hR.name (h.start rfl)
  obtain ⟨quote, hquote⟩ := hname.1
  have hnew : q'.fieldAt R.new ts' = q'.columnAt R.new ts' := by
    rw [Query.fieldAt, show R.new.kind = .quoted quote from hquote]
  have hcall : ¬Query.isCall R.old ts := fun hcall => hopen (Bool.and_eq_true_iff.1 hcall).2
  intro x hx
  have hcolumnAt : q.columnAt R.old ts = .ok x :=
    Query.columnAt_of_fieldAt hR.kind hnames hqualify hopen hx
  obtain ⟨x', hx', hreads, hrest⟩ := keeps_columnAt hR hq .word (fun _ => hname) hqualify
    (hR.resumes h.toRest (by simp [hR.old_isSymbol])) x hcolumnAt
  exact ⟨x', hnew.trans hx', ⟨_, Query.nameToken?_of_not_isCall hcall, hreads⟩, hrest⟩

/-- The field is the same, if a changed token at its beginning is a column and not the function of a
call, and if it is not the first reference inside a call. -/
theorem keeps_fieldAt {first first' : Token} (h : R.Resumes (first :: ts) (first' :: ts'))
    (hword : first = R.old → Query.canQualify R.old ∧
      ¬ts.head?.any fun t => t.isSymbol .openParen)
    (hreference : Query.isCall first ts → ∀ rest, Query.reference? ts ≠ some (R.old, rest)) :
    Keeps (fun x x' => (∃ c, Query.nameToken? (first :: ts) = some c ∧ R.Reads c x.1 x'.1) ∧
      R.Resumes x.2 x'.2) (q.fieldAt first ts) (q'.fieldAt first' ts') := by
  obtain ⟨hfirst, hts⟩ := h.tail
  cases hfirst with
  | word => exact keeps_fieldAt_old hR hq h (hword rfl).1 (hword rfl).2
  | @alike _ _ hold hkind hlexeme hspan =>
    have hfirst : R.Match first first' := .alike hold hkind hlexeme hspan
    have hnamed (hcall : ¬Query.isCall first ts) (hqualify : ¬Query.canQualify first) :
        Query.nameToken? (first :: ts) = some first := by
      rw [Query.nameToken?_of_not_isCall hcall, Query.namedBy_of_not_canQualify hqualify]
    have hcolumnAt (hcall : ¬Query.isCall first ts) (hqualify : Query.canQualify first) :
        Keeps (fun x x' => (∃ c, Query.nameToken? (first :: ts) = some c ∧ R.Reads c x.1 x'.1) ∧
          R.Resumes x.2 x'.2) (q.columnAt first ts) (q'.columnAt first' ts') := by
      have hdot : ¬first.isSymbol .dot := by
        intro hdot
        simp [Query.canQualify, show first.kind = .symbol .dot from eq_of_beq hdot] at hqualify
      have hcolumn := keeps_columnAt hR hq hfirst (absurd · hold) hqualify
        (hR.resumes h.toRest hdot)
      exact hcolumn.imp fun _ _ hx => ⟨⟨_, Query.nameToken?_of_not_isCall hcall, hx.1⟩, hx.2⟩
    rw [Query.fieldAt, Query.fieldAt, ← hkind, ← hlexeme]
    split
    · rename_i hifnull
      exact keeps_callOrColumn hR hq h.toRest hold (by simp [Token.isSymbol, hifnull])
        (by simp [Query.canQualify, hifnull])
        (by simp [Query.isCall, Token.isKeyword, hifnull]) hreference
    · rename_i hcount
      have hcall : ¬Query.isCall first ts := by simp [Query.isCall, Token.isKeyword, hcount]
      refine (keeps_nextIs hq hR .openParen hts).bind ?_
      rintro b _ hb rfl
      refine .ite (fun hopen => ?_) fun _ => ?_
      · have hnamed : Query.nameToken? (first :: ts) = some first := by
          rw [Query.nameToken?_of_not_isCall hcall]
          exact congrArg some (Query.namedBy_of_openParen first (Query.nextIs_eq_ok hb ▸ hopen))
        exact (keeps_countOf hR hfirst hold hts).imp fun _ _ hx => ⟨⟨_, hnamed, hx.1⟩, hx.2⟩
      · exact hcolumnAt hcall (by simp [Query.canQualify, hcount])
    · rename_i hstar
      refine .ok ⟨⟨first, hnamed ?_ ?_, ⟨rfl, .inr ⟨hold, .inl rfl⟩, rfl, rfl, hspan⟩⟩, ?_⟩
      · simp [Query.isCall, Token.isKeyword, hstar]
      · simp [Query.canQualify, hstar]
      · exact hR.resumes h.toRest (by simp [Token.isSymbol, hstar])
    · rename_i s _ hs
      refine .ite (fun hopens => ?_) fun _ => .error _
      refine (keeps_verbatim hR hq hs hopens h.toRest).map fun _ _ hx =>
        ⟨⟨first, hnamed ?_ ?_, hx.1⟩, hx.2⟩
      · simp [Query.isCall, Token.isKeyword, hs]
      · simp [Query.canQualify, hs]
    · rename_i hword
      have hdot : ¬first.isSymbol .dot := by simp [Token.isSymbol, hword]
      refine .ite (fun hliteral => ?_) fun hcolumn => ?_
      · rw [Bool.not_eq_true'] at hliteral
        refine .ok ⟨⟨first, hnamed ?_ ?_, ⟨rfl, .inr ⟨hold, .inl rfl⟩, rfl, rfl, hspan⟩⟩,
          hR.resumes h.toRest hdot⟩
        · simp [Query.isCall, Token.isKeyword, hword, hliteral]
        · simp [Query.canQualify, hword, hliteral]
      · refine keeps_callOrColumn hR hq h.toRest hold hdot ?_ ?_ hreference
        · simpa [Query.canQualify, hword] using hcolumn
        · simp only [Bool.not_eq_true', Bool.not_eq_false] at hcolumn
          simp [Query.isCall, Token.isKeyword, hword, hcolumn]
    · rename_i quote hquote
      exact hcolumnAt (by simp [Query.isCall, Token.isKeyword, hquote])
        (by simp [Query.canQualify, hquote])
    · exact .error _

end Readers

end Rewording

end QueryTemplate
