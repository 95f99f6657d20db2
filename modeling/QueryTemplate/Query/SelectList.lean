import QueryTemplate.Query.Reading
import QueryTemplate.Text.Letter

/-! # The select list

The select list is read item by item up to the word `FROM`. An item gives one field: a column, a
wildcard, a count, the first column inside a call, or a literal or placeholder taken verbatim.
What follows the field and its alias inside the item is passed over.
-/

namespace QueryTemplate

namespace Query

/-- Whether a word can name a column: it starts with a letter or an underscore. -/
def isColumnName (word : Text) : Bool :=
  word.head?.any fun c => Text.isLetter c || c == '_'

/-- The column that a qualifier at `first` is followed by, from behind the dot. -/
def qualifiedColumn (q : Query) (first : Token) (ts : List Token) :
    Checked (QueryField × List Token) := do
  let (column, rest) ← q.next .columnName ts
  let qualify (f : QueryField) : QueryField :=
    { f with table := some first.label, span := first.span.merge f.span }
  match column.kind with
  | .symbol .star => .ok (qualify (.column QueryField.wildcardName column.span), rest)
  | .symbol s =>
    if s.opensBrace then
      (q.braces column rest).map fun ((text, span), rest) => (qualify (.verbatim text span), rest)
    else .error ⟨.unexpectedToken .columnName (.token column.kind), column.span⟩
  | _ => .ok (qualify (.column column.label column.span), rest)

/-- The column whose first word, a name or its qualifier, is `first`. -/
def columnAt (q : Query) (first : Token) : List Token → Checked (QueryField × List Token)
  | [] => q.atEnd (.column first.label first.span, [])
  | t :: rest =>
    if t.isSymbol .dot then q.qualifiedColumn first rest
    else .ok (.column first.label first.span, t :: rest)

/-- The first column inside a call of `function`, which has been entered together with `depth`
further groups. The field spans the whole call. -/
def columnInCall (q : Query) (function : Token) (depth : Nat) :
    List Token → Checked (QueryField × List Token)
  | [] => .error (q.endFault (.symbol .closeParen))
  | t :: rest =>
    match t.kind with
    | .symbol .openParen => columnInCall q function (depth + 1) rest
    | .symbol .closeParen =>
      match depth with
      | 0 =>
        .error ⟨.unexpectedToken .columnReference (.callWithoutColumn function.lexeme),
          function.span.merge t.span⟩
      | depth + 1 => columnInCall q function depth rest
    | .word =>
      if isColumnName t.lexeme && !rest.head?.any (·.isSymbol .openParen) then do
        let (field, rest) ← q.columnAt t rest
        let (stop, rest) ← q.groupEnd depth rest
        return ({ field with span := function.span.merge stop }, rest)
      else columnInCall q function depth rest
    | _ => columnInCall q function depth rest

def call (q : Query) (function : Token) (ts : List Token) : Checked (QueryField × List Token) := do
  let (_, rest) ← q.symbol .openParen ts
  q.columnInCall function 0 rest

/-- The field that counts rows, from the parenthesis behind the word `COUNT` on. -/
def countOf (q : Query) (count : Token) (ts : List Token) : Checked (QueryField × List Token) := do
  let (_, rest) ← q.symbol .openParen ts
  let (stop, rest) ← q.groupEnd 0 rest
  return (.count (count.span.merge stop), rest)

/-- The field, without its alias, that starts with `first`. -/
def fieldAt (q : Query) (first : Token) (ts : List Token) : Checked (QueryField × List Token) :=
  match first.kind with
  | .keyword .IFNULL => do
    if ← q.nextIs .openParen ts then q.call first ts else q.columnAt first ts
  | .keyword .COUNT => do
    if ← q.nextIs .openParen ts then q.countOf first ts else q.columnAt first ts
  | .symbol .star => .ok (.column QueryField.wildcardName first.span, ts)
  | .symbol s =>
    if s.opensBrace then
      (q.braces first ts).map fun ((text, span), rest) => (.verbatim text span, rest)
    else .error ⟨.unexpectedToken .field (.token first.kind), first.span⟩
  | .word =>
    if !isColumnName first.lexeme then .ok (.verbatim first.lexeme first.span, ts)
    else do if ← q.nextIs .openParen ts then q.call first ts else q.columnAt first ts
  | .quoted _ => q.columnAt first ts
  | .keyword _ => .error ⟨.unexpectedToken .field (.token first.kind), first.span⟩

/-- The field that starts with `first`, with its alias. -/
def field (q : Query) (first : Token) (ts : List Token) : Checked (QueryField × List Token) := do
  let (f, rest) ← q.fieldAt first ts
  let (aliasName, rest) ← q.aliasOf f.name rest
  return ({ f with aliasName := aliasName }, rest)

/-- Where passing over the rest of an item stands. -/
inductive Passing where
  | item
  | braces
  | group (depth : Nat)

/-- The tokens from the comma or `FROM` that ends the item on. Placeholders, directives and groups
inside the item hide what they hold. -/
def itemEnd (q : Query) : Passing → List Token → Checked (List Token)
  | .item, [] => q.atEnd []
  | .braces, [] => .error (q.endFault (.symbol .closeBrace))
  | .group _, [] => .error (q.endFault (.symbol .closeParen))
  | .item, t :: rest =>
    match t.kind with
    | .symbol .comma | .keyword .FROM => .ok (t :: rest)
    | .symbol .openParen => itemEnd q (.group 0) rest
    | .symbol s => itemEnd q (if s.opensBrace then .braces else .item) rest
    | _ => itemEnd q .item rest
  | .braces, t :: rest => itemEnd q (if t.isSymbol .closeBrace then .item else .braces) rest
  | .group depth, t :: rest =>
    match t.kind with
    | .symbol .openParen => itemEnd q (.group (depth + 1)) rest
    | .symbol .closeParen =>
      match depth with
      | 0 => itemEnd q .item rest
      | depth + 1 => itemEnd q (.group depth) rest
    | _ => itemEnd q (.group depth) rest

/-- Whether `word` is one of the two words that may stand in front of the select list. -/
def isQuantifier (t : Token) : Bool :=
  t.kind == .word &&
    (t.lexeme.map Char.toLower == "distinct".toList || t.lexeme.map Char.toLower == "all".toList)

/-- The select list without the quantifier in front of it. A word that is followed by nothing, a
comma or `FROM` is the name of a column and not a quantifier. -/
def skipQuantifier (q : Query) : List Token → Checked (List Token)
  | [] => q.atEnd []
  | [t] => if isQuantifier t then q.atEnd [t] else .ok [t]
  | t :: u :: rest =>
    .ok (if isQuantifier t && !(u.isSymbol .comma || u.isKeyword .FROM) then u :: rest
      else t :: u :: rest)

theorem qualifiedColumn_suffix {q : Query} {first : Token} {ts rest : List Token} {f : QueryField}
    (h : q.qualifiedColumn first ts = .ok (f, rest)) : rest <:+ ts := by
  cases ts with
  | nil => cases h
  | cons t ts =>
    simp only [qualifiedColumn, next, bind, Except.bind] at h
    split at h
    · obtain ⟨-, rfl⟩ := Prod.mk.inj (Except.ok.inj h)
      exact List.suffix_cons ..
    · split at h
      · obtain ⟨x, hb, hx⟩ := Checked.map_eq_ok h
        obtain ⟨-, rfl⟩ := Prod.mk.inj hx
        exact (braces_suffix hb).trans (List.suffix_cons ..)
      · cases h
    · obtain ⟨-, rfl⟩ := Prod.mk.inj (Except.ok.inj h)
      exact List.suffix_cons ..

theorem columnAt_suffix {q : Query} {first : Token} {ts rest : List Token} {f : QueryField}
    (h : q.columnAt first ts = .ok (f, rest)) : rest <:+ ts := by
  unfold columnAt at h
  split at h
  · obtain ⟨-, rfl⟩ := Prod.mk.inj (atEnd_eq_ok h)
    exact List.suffix_rfl
  · split at h
    · exact (qualifiedColumn_suffix h).trans (List.suffix_cons ..)
    · obtain ⟨-, rfl⟩ := Prod.mk.inj (Except.ok.inj h)
      exact List.suffix_rfl

theorem columnInCall_suffix {q : Query} {function : Token} {depth : Nat} {ts rest : List Token}
    {f : QueryField} (h : q.columnInCall function depth ts = .ok (f, rest)) : rest <:+ ts := by
  induction ts generalizing depth with
  | nil => cases h
  | cons t ts ih =>
    unfold columnInCall at h
    split at h
    · exact (ih h).trans (List.suffix_cons ..)
    · split at h
      · cases h
      · exact (ih h).trans (List.suffix_cons ..)
    · split at h
      · obtain ⟨⟨g, us⟩, hc, h⟩ := Checked.bind_eq_ok h
        obtain ⟨⟨stop, vs⟩, hg, h⟩ := Checked.bind_eq_ok h
        obtain ⟨-, rfl⟩ := Prod.mk.inj (Except.ok.inj h)
        exact ((groupEnd_suffix hg).trans (columnAt_suffix hc)).trans (List.suffix_cons ..)
      · exact (ih h).trans (List.suffix_cons ..)
    · exact (ih h).trans (List.suffix_cons ..)

theorem call_suffix {q : Query} {function : Token} {ts rest : List Token} {f : QueryField}
    (h : q.call function ts = .ok (f, rest)) : rest <:+ ts := by
  obtain ⟨⟨_, us⟩, hs, h⟩ := Checked.bind_eq_ok h
  exact (columnInCall_suffix h).trans (symbol_suffix hs)

theorem countOf_suffix {q : Query} {count : Token} {ts rest : List Token} {f : QueryField}
    (h : q.countOf count ts = .ok (f, rest)) : rest <:+ ts := by
  obtain ⟨⟨_, us⟩, hs, h⟩ := Checked.bind_eq_ok h
  obtain ⟨⟨stop, vs⟩, hg, h⟩ := Checked.bind_eq_ok h
  obtain ⟨-, rfl⟩ := Prod.mk.inj (Except.ok.inj h)
  exact (groupEnd_suffix hg).trans (symbol_suffix hs)

theorem fieldAt_suffix {q : Query} {first : Token} {ts rest : List Token} {f : QueryField}
    (h : q.fieldAt first ts = .ok (f, rest)) : rest <:+ ts := by
  unfold fieldAt at h
  split at h
  · obtain ⟨b, -, h⟩ := Checked.bind_eq_ok h
    cases b
    · exact columnAt_suffix h
    · exact call_suffix h
  · obtain ⟨b, -, h⟩ := Checked.bind_eq_ok h
    cases b
    · exact columnAt_suffix h
    · exact countOf_suffix h
  · obtain ⟨-, rfl⟩ := Prod.mk.inj (Except.ok.inj h)
    exact List.suffix_rfl
  · split at h
    · obtain ⟨x, hb, hx⟩ := Checked.map_eq_ok h
      obtain ⟨-, rfl⟩ := Prod.mk.inj hx
      exact braces_suffix hb
    · cases h
  · split at h
    · obtain ⟨-, rfl⟩ := Prod.mk.inj (Except.ok.inj h)
      exact List.suffix_rfl
    · obtain ⟨b, -, h⟩ := Checked.bind_eq_ok h
      cases b
      · exact columnAt_suffix h
      · exact call_suffix h
  · exact columnAt_suffix h
  · cases h

theorem field_suffix {q : Query} {first : Token} {ts rest : List Token} {f : QueryField}
    (h : q.field first ts = .ok (f, rest)) : rest <:+ ts := by
  obtain ⟨⟨g, us⟩, hf, h⟩ := Checked.bind_eq_ok h
  obtain ⟨⟨a, vs⟩, ha, h⟩ := Checked.bind_eq_ok h
  obtain ⟨-, rfl⟩ := Prod.mk.inj (Except.ok.inj h)
  exact (aliasOf_suffix ha).trans (fieldAt_suffix hf)

theorem itemEnd_suffix {q : Query} {passing : Passing} {ts rest : List Token}
    (h : q.itemEnd passing ts = .ok rest) : rest <:+ ts := by
  induction ts generalizing passing with
  | nil =>
    cases passing
    · exact atEnd_eq_ok h ▸ List.suffix_rfl
    · cases h
    · cases h
  | cons t ts ih =>
    cases passing
    · unfold itemEnd at h
      split at h
      · exact Except.ok.inj h ▸ List.suffix_rfl
      · exact Except.ok.inj h ▸ List.suffix_rfl
      · exact (ih h).trans (List.suffix_cons ..)
      · exact (ih h).trans (List.suffix_cons ..)
      · exact (ih h).trans (List.suffix_cons ..)
    · exact (ih h).trans (List.suffix_cons ..)
    · unfold itemEnd at h
      split at h
      · exact (ih h).trans (List.suffix_cons ..)
      · split at h
        · exact (ih h).trans (List.suffix_cons ..)
        · exact (ih h).trans (List.suffix_cons ..)
      · exact (ih h).trans (List.suffix_cons ..)

/-- What the select list goes on with: a comma or an item, or `FROM` and what is behind it. -/
inductive SelectStep where
  | item (field : Option QueryField) (rest : List Token)
  | done (clauses : List Token)

def selectStep (q : Query) (ts : List Token) : Checked SelectStep := do
  match ← q.skipDirectives ts with
  | [] => throw ⟨.missingFrom, .point q.source.stop⟩
  | t :: rest =>
    if t.isKeyword .FROM then return .done (t :: rest)
    else if t.isSymbol .comma then return .item none rest
    else
      let (f, rest) ← q.field t rest
      return .item (some f) (← q.itemEnd .item rest)

theorem selectStep_length {q : Query} {ts rest : List Token} {f : Option QueryField}
    (h : q.selectStep ts = .ok (.item f rest)) : rest.length < ts.length := by
  obtain ⟨us, hd, h⟩ := Checked.bind_eq_ok h
  have hus := (skipBraces_suffix hd).length_le
  cases us with
  | nil => cases h
  | cons t us =>
    refine Nat.lt_of_lt_of_le (Nat.lt_succ_of_le ?_) hus
    dsimp only at h
    split at h
    · cases Except.ok.inj h
    · split at h
      · obtain ⟨-, rfl⟩ := SelectStep.item.inj (Except.ok.inj h)
        exact Nat.le_refl _
      · obtain ⟨⟨g, vs⟩, hf, h⟩ := Checked.bind_eq_ok h
        obtain ⟨ws, he, h⟩ := Checked.bind_eq_ok h
        obtain ⟨-, rfl⟩ := SelectStep.item.inj (Except.ok.inj h)
        exact ((itemEnd_suffix he).trans (field_suffix hf)).length_le

/-- The fields of the select list, and the tokens from `FROM` on. -/
def selectItems (q : Query) (ts : List Token) : Checked (List QueryField × List Token) :=
  match _ : q.selectStep ts with
  | .error fault => .error fault
  | .ok (.done clauses) => .ok ([], clauses)
  | .ok (.item f rest) =>
    (selectItems q rest).map fun (fields, clauses) => (f.toList ++ fields, clauses)
termination_by ts.length
decreasing_by exact selectStep_length (by assumption)

/-- The fields of a query from its first word on, and the tokens from `FROM` on. -/
def selectList (q : Query) (ts : List Token) : Checked (List QueryField × List Token) := do
  let (select, rest) ← q.next .select ts
  if !select.isKeyword .SELECT then
    throw ⟨.unexpectedToken .select (.token select.kind), select.span⟩
  let (fields, clauses) ← q.selectItems (← q.skipQuantifier rest)
  if fields.isEmpty then throw ⟨.emptySelect, select.span⟩
  return (fields, clauses)

end Query

end QueryTemplate
