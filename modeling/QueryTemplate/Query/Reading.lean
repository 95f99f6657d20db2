import QueryTemplate.Fault.Template
import QueryTemplate.Query.Basic
import QueryTemplate.Token.Lexer

/-! # Reading query text

The parts of a query are read from the tokens ahead. A reader gives back what it has read and the
tokens it leaves, which are always an end part of the tokens it was given. A lexical fault lies
behind the last token and shows when a reader gets there.
-/

namespace QueryTemplate

/-- A query being read: its text, and the lexical fault behind its last token. -/
structure Query where
  source : Fragment
  fault : Option LexicalFault
deriving DecidableEq, Repr

theorem Checked.bind_eq_ok {ε α β : Type} {x : Except ε α} {f : α → Except ε β} {b : β}
    (h : x >>= f = .ok b) : ∃ a, x = .ok a ∧ f a = .ok b := by
  cases x with
  | error e => cases h
  | ok a => exact ⟨a, rfl, h⟩

theorem Checked.map_eq_ok {ε α β : Type} {x : Except ε α} {f : α → β} {b : β}
    (h : x.map f = .ok b) : ∃ a, x = .ok a ∧ f a = b := by
  cases x with
  | error e => cases h
  | ok a => exact ⟨a, rfl, Except.ok.inj h⟩

namespace Query

/-- The fault of a query whose tokens end where something is expected. -/
def endFault (q : Query) (expected : Expectation) : TemplateFault :=
  match q.fault with
  | some fault => fault.inTemplate
  | none => ⟨.unexpectedEnd expected, .point q.source.stop⟩

/-- The given value, where the tokens may end, unless they end at a lexical fault. -/
def atEnd {α : Type} (q : Query) (x : α) : Checked α :=
  match q.fault with
  | some fault => .error fault.inTemplate
  | none => .ok x

def nextIs (q : Query) (s : Symbol) : List Token → Checked Bool
  | [] => q.atEnd false
  | t :: _ => .ok (t.isSymbol s)

def next (q : Query) (expected : Expectation) : List Token → Checked (Token × List Token)
  | [] => .error (q.endFault expected)
  | t :: rest => .ok (t, rest)

/-- The symbol `s`, which has to be the next token. -/
def symbol (q : Query) (s : Symbol) : List Token → Checked (Token × List Token)
  | [] => .error (q.endFault (.symbol s))
  | t :: rest =>
    if t.isSymbol s then .ok (t, rest)
    else .error ⟨.unexpectedToken (.symbol s) (.token t.kind), t.span⟩

def closingBrace? : List Token → Option (Span × List Token)
  | [] => none
  | t :: rest => if t.isSymbol .closeBrace then some (t.span, rest) else closingBrace? rest

/-- The stretch from the brace that `opening` opens to its end, as written, with its place. -/
def braces (q : Query) (opening : Token) (ts : List Token) : Checked ((Text × Span) × List Token) :=
  match closingBrace? ts with
  | none => .error (q.endFault (.symbol .closeBrace))
  | some (stop, rest) =>
    let span := opening.span.merge stop
    .ok ((q.source.slice span, span), rest)

/-- The tokens behind the brace stretches, of those kinds that `skipped` selects, at the
beginning; `inside` tells whether the first stretch has been entered already. -/
def skipBraces (q : Query) (skipped : Symbol → Bool) :
    (inside : Bool) → List Token → Checked (List Token)
  | false, [] => q.atEnd []
  | true, [] => .error (q.endFault (.symbol .closeBrace))
  | true, t :: rest => skipBraces q skipped (!t.isSymbol .closeBrace) rest
  | false, t :: rest =>
    match t.kind with
    | .symbol s =>
      if s.opensBrace && skipped s then skipBraces q skipped true rest else .ok (t :: rest)
    | _ => .ok (t :: rest)

/-- The tokens behind the placeholders and directives at the beginning. -/
def skipAllBraces (q : Query) (ts : List Token) : Checked (List Token) :=
  skipBraces q (fun _ => true) false ts

def skipDirectives (q : Query) (ts : List Token) : Checked (List Token) :=
  skipBraces q (· == .openDirective) false ts

/-- The place of the parenthesis that closes a group, and the tokens behind it. The group has been
entered, and `depth` further groups inside it. -/
def closingParen? (depth : Nat) : List Token → Option (Span × List Token)
  | [] => none
  | t :: rest =>
    match t.kind with
    | .symbol .openParen => closingParen? (depth + 1) rest
    | .symbol .closeParen =>
      match depth with
      | 0 => some (t.span, rest)
      | depth + 1 => closingParen? depth rest
    | _ => closingParen? depth rest

/-- The end of a group that has been entered; it has to be closed. -/
def groupEnd (q : Query) (depth : Nat) (ts : List Token) : Checked (Span × List Token) :=
  match closingParen? depth ts with
  | none => .error (q.endFault (.symbol .closeParen))
  | some found => .ok found

/-- The tokens behind a group that has been entered; it may be left open at the end. -/
def skipGroup (q : Query) (ts : List Token) : Checked (List Token) :=
  match closingParen? 0 ts with
  | none => q.atEnd []
  | some (_, rest) => .ok rest

/-- The name at the beginning, as an alias of something called `own`; an alias that repeats the
thing's own name counts as none. -/
def bareAlias (q : Query) (own : Text) : List Token → Checked (Option Text × List Token)
  | [] => q.atEnd (none, [])
  | t :: rest =>
    match t.name? with
    | some name => .ok (if name = own then none else some name, rest)
    | none => .ok (none, t :: rest)

/-- The alias at the beginning, with or without the keyword in front of it. -/
def aliasOf (q : Query) (own : Text) : List Token → Checked (Option Text × List Token)
  | [] => q.atEnd (none, [])
  | t :: rest => if t.isKeyword .AS then q.bareAlias own rest else q.bareAlias own (t :: rest)

/-! Every reader leaves an end part of its tokens. -/

theorem atEnd_eq_ok {α : Type} {q : Query} {x y : α} (h : q.atEnd x = .ok y) : x = y := by
  unfold atEnd at h
  split at h
  · cases h
  · exact Except.ok.inj h

theorem symbol_suffix {q : Query} {s : Symbol} {ts rest : List Token} {t : Token}
    (h : q.symbol s ts = .ok (t, rest)) : rest <:+ ts := by
  unfold symbol at h
  split at h
  · cases h
  · split at h
    · obtain ⟨-, rfl⟩ := Prod.mk.inj (Except.ok.inj h)
      exact List.suffix_cons ..
    · cases h

theorem closingBrace?_suffix {ts rest : List Token} {stop : Span}
    (h : closingBrace? ts = some (stop, rest)) : rest <:+ ts := by
  induction ts with
  | nil => cases h
  | cons t ts ih =>
    unfold closingBrace? at h
    split at h
    · obtain ⟨-, rfl⟩ := Prod.mk.inj (Option.some.inj h)
      exact List.suffix_cons ..
    · exact (ih h).trans (List.suffix_cons ..)

theorem braces_suffix {q : Query} {opening : Token} {ts rest : List Token} {x : Text × Span}
    (h : q.braces opening ts = .ok (x, rest)) : rest <:+ ts := by
  unfold braces at h
  split at h
  · cases h
  · rename_i hc
    obtain ⟨-, rfl⟩ := Prod.mk.inj (Except.ok.inj h)
    exact closingBrace?_suffix hc

theorem skipBraces_suffix {q : Query} {skipped : Symbol → Bool} {inside : Bool}
    {ts rest : List Token} (h : q.skipBraces skipped inside ts = .ok rest) : rest <:+ ts := by
  induction ts generalizing inside with
  | nil =>
    cases inside
    · exact atEnd_eq_ok h ▸ List.suffix_rfl
    · cases h
  | cons t ts ih =>
    cases inside
    · unfold skipBraces at h
      split at h
      · split at h
        · exact (ih h).trans (List.suffix_cons ..)
        · exact Except.ok.inj h ▸ List.suffix_rfl
      · exact Except.ok.inj h ▸ List.suffix_rfl
    · exact (ih h).trans (List.suffix_cons ..)

theorem closingParen?_suffix {depth : Nat} {ts rest : List Token} {stop : Span}
    (h : closingParen? depth ts = some (stop, rest)) : rest <:+ ts := by
  induction ts generalizing depth with
  | nil => cases h
  | cons t ts ih =>
    unfold closingParen? at h
    split at h
    · exact (ih h).trans (List.suffix_cons ..)
    · split at h
      · obtain ⟨-, rfl⟩ := Prod.mk.inj (Option.some.inj h)
        exact List.suffix_cons ..
      · exact (ih h).trans (List.suffix_cons ..)
    · exact (ih h).trans (List.suffix_cons ..)

theorem groupEnd_suffix {q : Query} {depth : Nat} {ts rest : List Token} {stop : Span}
    (h : q.groupEnd depth ts = .ok (stop, rest)) : rest <:+ ts := by
  unfold groupEnd at h
  split at h
  · cases h
  · rename_i hc
    exact closingParen?_suffix (Except.ok.inj h ▸ hc)

theorem skipGroup_suffix {q : Query} {ts rest : List Token}
    (h : q.skipGroup ts = .ok rest) : rest <:+ ts := by
  unfold skipGroup at h
  split at h
  · exact atEnd_eq_ok h ▸ List.nil_suffix
  · rename_i hc
    exact closingParen?_suffix (Except.ok.inj h ▸ hc)

theorem bareAlias_suffix {q : Query} {own : Text} {ts rest : List Token} {x : Option Text}
    (h : q.bareAlias own ts = .ok (x, rest)) : rest <:+ ts := by
  unfold bareAlias at h
  split at h
  · obtain ⟨-, rfl⟩ := Prod.mk.inj (atEnd_eq_ok h)
    exact List.suffix_rfl
  · split at h
    · obtain ⟨-, rfl⟩ := Prod.mk.inj (Except.ok.inj h)
      exact List.suffix_cons ..
    · obtain ⟨-, rfl⟩ := Prod.mk.inj (Except.ok.inj h)
      exact List.suffix_rfl

theorem aliasOf_suffix {q : Query} {own : Text} {ts rest : List Token} {x : Option Text}
    (h : q.aliasOf own ts = .ok (x, rest)) : rest <:+ ts := by
  unfold aliasOf at h
  split at h
  · obtain ⟨-, rfl⟩ := Prod.mk.inj (atEnd_eq_ok h)
    exact List.suffix_rfl
  · split at h
    · exact (bareAlias_suffix h).trans (List.suffix_cons ..)
    · exact bareAlias_suffix h

end Query

end QueryTemplate
