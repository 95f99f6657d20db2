import QueryTemplate.Query.Reading

/-! # The tables of a query

Behind the select list, `FROM` is followed by a list of table references and `JOIN` by one. A
reference in parentheses is a nested query, which declares tables of its own; the same holds of
every other group. A word behind a dot is a column, whatever it spells.
-/

namespace QueryTemplate

namespace Query

/-- One part of a dotted table name: its text, its place and whether it is a placeholder. Behind
a dot a part may be spelled like a keyword. -/
def tablePart (q : Query) (dotted : Bool) (ts : List Token) :
    Checked ((Text × Span × Bool) × List Token) := do
  let (part, rest) ← q.next .tableName ts
  let refused := ⟨.unexpectedToken .tableName (.token part.kind), part.span⟩
  match part.kind with
  | .word | .quoted _ => return ((part.label, part.span, false), rest)
  | .keyword _ => if dotted then return ((part.lexeme, part.span, false), rest) else throw refused
  | .symbol s =>
    if s.opensBrace then
      (q.braces part rest).map fun ((text, span), rest) => ((text, span, true), rest)
    else throw refused

theorem tablePart_length {q : Query} {dotted : Bool} {ts rest : List Token}
    {part : Text × Span × Bool} (h : q.tablePart dotted ts = .ok (part, rest)) :
    rest.length < ts.length := by
  cases ts with
  | nil => cases h
  | cons t ts =>
    refine Nat.lt_succ_of_le ?_
    simp only [tablePart, next, bind, Except.bind] at h
    split at h
    · obtain ⟨-, rfl⟩ := Prod.mk.inj (Except.ok.inj h)
      exact Nat.le_refl _
    · obtain ⟨-, rfl⟩ := Prod.mk.inj (Except.ok.inj h)
      exact Nat.le_refl _
    · split at h
      · obtain ⟨-, rfl⟩ := Prod.mk.inj (Except.ok.inj h)
        exact Nat.le_refl _
      · cases h
    · split at h
      · obtain ⟨x, hb, hx⟩ := Checked.map_eq_ok h
        obtain ⟨-, rfl⟩ := Prod.mk.inj hx
        exact (braces_suffix hb).length_le
      · cases h

/-- What a dotted name whose last part so far is `part` comes to: its last part names the table,
and its place is that of the whole name. -/
def dottedName (q : Query) (part : Text × Span × Bool) :
    List Token → Checked ((Text × Span × Bool) × List Token)
  | [] => q.atEnd (part, [])
  | t :: rest =>
    if t.isSymbol .dot then
      match _ : q.tablePart true rest with
      | .error fault => .error fault
      | .ok ((name, span, isVerbatim), after) =>
        dottedName q (name, part.2.1.merge span, isVerbatim) after
    else .ok (part, t :: rest)
termination_by ts => ts.length
decreasing_by
  have := tablePart_length (by assumption)
  simp
  omega

theorem dottedName_length {q : Query} {part name : Text × Span × Bool} {ts rest : List Token}
    (h : q.dottedName part ts = .ok (name, rest)) : rest.length ≤ ts.length := by
  fun_induction dottedName q part ts with
  | case1 =>
    obtain ⟨-, rfl⟩ := Prod.mk.inj (atEnd_eq_ok h)
    exact Nat.le_refl _
  | case2 => cases h
  | case3 part t ts _ name' span isVerbatim after hp ih =>
    have := tablePart_length hp
    have := ih h
    simp
    omega
  | case4 =>
    obtain ⟨-, rfl⟩ := Prod.mk.inj (Except.ok.inj h)
    exact Nat.le_refl _

/-- A table reference with its alias; a nested query gives no table. -/
def tableReference (q : Query) : List Token → Checked (Option QueryTable × List Token)
  | [] => .error (q.endFault .tableName)
  | t :: rest =>
    if t.isSymbol .openParen then do
      let (_, after) ← q.aliasOf [] (← q.skipGroup rest)
      return (none, after)
    else do
      let (part, after) ← q.tablePart false (t :: rest)
      let ((name, span, isVerbatim), after) ← q.dottedName part after
      let (aliasName, after) ← q.aliasOf name after
      return (some ⟨name, aliasName, isVerbatim, span⟩, after)

theorem tableReference_length {q : Query} {ts rest : List Token} {table : Option QueryTable}
    (h : q.tableReference ts = .ok (table, rest)) : rest.length < ts.length := by
  cases ts with
  | nil => cases h
  | cons t ts =>
    simp only [tableReference] at h
    split at h
    · obtain ⟨us, hs, h⟩ := Checked.bind_eq_ok h
      obtain ⟨⟨_, vs⟩, ha, h⟩ := Checked.bind_eq_ok h
      obtain ⟨-, rfl⟩ := Prod.mk.inj (Except.ok.inj h)
      exact Nat.lt_succ_of_le ((aliasOf_suffix ha).trans (skipGroup_suffix hs)).length_le
    · obtain ⟨⟨part, us⟩, hp, h⟩ := Checked.bind_eq_ok h
      obtain ⟨⟨⟨name, span, isVerbatim⟩, vs⟩, hd, h⟩ := Checked.bind_eq_ok h
      obtain ⟨⟨_, ws⟩, ha, h⟩ := Checked.bind_eq_ok h
      obtain ⟨-, rfl⟩ := Prod.mk.inj (Except.ok.inj h)
      exact Nat.lt_of_le_of_lt (Nat.le_trans (aliasOf_suffix ha).length_le (dottedName_length hd))
        (tablePart_length hp)

/-- The tables of a list of table references separated by commas. -/
def tableReferences (q : Query) (ts : List Token) : Checked (List QueryTable × List Token) :=
  match _ : q.tableReference ts with
  | .error fault => .error fault
  | .ok (table, []) => q.atEnd (table.toList, [])
  | .ok (table, t :: rest) =>
    if t.isSymbol .comma then
      (tableReferences q rest).map fun (tables, after) => (table.toList ++ tables, after)
    else .ok (table.toList, t :: rest)
termination_by ts.length
decreasing_by
  have := tableReference_length (by assumption)
  simp at this
  omega

theorem tableReferences_length {q : Query} {ts rest : List Token} {tables : List QueryTable}
    (h : q.tableReferences ts = .ok (tables, rest)) : rest.length < ts.length := by
  fun_induction tableReferences q ts generalizing tables rest with
  | case1 => cases h
  | case2 ts table ht =>
    obtain ⟨-, rfl⟩ := Prod.mk.inj (atEnd_eq_ok h)
    exact tableReference_length ht
  | case3 ts table t us ht _ ih =>
    obtain ⟨⟨later, after⟩, hr, hx⟩ := Checked.map_eq_ok h
    obtain ⟨-, rfl⟩ := Prod.mk.inj hx
    have := ih hr
    have := tableReference_length ht
    simp at this
    omega
  | case4 ts table t us ht _ =>
    obtain ⟨-, rfl⟩ := Prod.mk.inj (Except.ok.inj h)
    exact tableReference_length ht

/-- The next step along the clauses: the tables it names and the tokens behind it, or nothing at
the end of the query. -/
def clauseStep (q : Query) (ts : List Token) : Checked (Option (List QueryTable × List Token)) := do
  match ← q.skipAllBraces ts with
  | [] => return none
  | t :: rest =>
    match t.kind with
    | .symbol .dot =>
      match rest with
      | [] => q.atEnd none
      | _ :: after => return some ([], after)
    | .symbol .openParen => return some ([], ← q.skipGroup rest)
    | .keyword .FROM => return some (← q.tableReferences rest)
    | .keyword .JOIN =>
      let (table, after) ← q.tableReference rest
      return some (table.toList, after)
    | _ => return some ([], rest)

theorem clauseStep_length {q : Query} {ts rest : List Token} {tables : List QueryTable}
    (h : q.clauseStep ts = .ok (some (tables, rest))) : rest.length < ts.length := by
  obtain ⟨us, hd, h⟩ := Checked.bind_eq_ok h
  have hus := (skipBraces_suffix hd).length_le
  cases us with
  | nil => cases h
  | cons t us =>
    refine Nat.lt_of_lt_of_le (Nat.lt_succ_of_le ?_) hus
    dsimp only at h
    split at h
    · split at h
      · cases atEnd_eq_ok h
      · obtain ⟨-, rfl⟩ := Prod.mk.inj (Option.some.inj (Except.ok.inj h))
        exact (List.suffix_cons ..).length_le
    · obtain ⟨vs, hs, h⟩ := Checked.bind_eq_ok h
      obtain ⟨-, rfl⟩ := Prod.mk.inj (Option.some.inj (Except.ok.inj h))
      exact (skipGroup_suffix hs).length_le
    · obtain ⟨⟨_, vs⟩, hs, h⟩ := Checked.bind_eq_ok h
      obtain ⟨-, rfl⟩ := Prod.mk.inj (Option.some.inj (Except.ok.inj h))
      exact Nat.le_of_lt (tableReferences_length hs)
    · obtain ⟨⟨_, vs⟩, hs, h⟩ := Checked.bind_eq_ok h
      obtain ⟨-, rfl⟩ := Prod.mk.inj (Option.some.inj (Except.ok.inj h))
      exact Nat.le_of_lt (tableReference_length hs)
    · obtain ⟨-, rfl⟩ := Prod.mk.inj (Option.some.inj (Except.ok.inj h))
      exact Nat.le_refl _

def clauseTables (q : Query) (ts : List Token) : Checked (List QueryTable) :=
  match _ : q.clauseStep ts with
  | .error fault => .error fault
  | .ok none => .ok []
  | .ok (some (tables, rest)) => (clauseTables q rest).map (tables ++ ·)
termination_by ts.length
decreasing_by exact clauseStep_length (by assumption)

/-- The tables of a query from `FROM` on, of which there has to be one. -/
def tableList (q : Query) (ts : List Token) : Checked (List QueryTable) := do
  let tables ← q.clauseTables ts
  if tables.isEmpty then
    throw ⟨.noTables, match ts with
      | [] => .point q.source.stop
      | t :: _ => t.span⟩
  return tables

end Query

end QueryTemplate
