import Mathlib.Order.MinMax
import QueryTemplate.Proofs.Alignment.Source
import QueryTemplate.Proofs.Query.Extent
import QueryTemplate.Proofs.Slicing.Text

/-! # Cutting tokens out

A lexer keeps its offset in the text, looks at the text from there on, and cuts the text of a token
out when it has found where the token stops. No cut fails, and the tokens are those that are read
from what is left of the text.
-/

namespace QueryTemplate

open Text (indices)

namespace Lexicon

variable (lexicon : Lexicon) (source : Fragment)

def skipSpace? (pos : Nat) : Option Nat := do
  let rest ← source.from? pos
  let skipped ← minus? (Text.size rest) (Text.size (Text.trimStart rest))
  return pos + skipped

/-- The offset behind the quote that closes a quoted text, given the characters behind the quote
that opens it. A doubled quote closes nothing. -/
def quotedStop? (quote : Char) : List (Nat × Char) → Option (Option Nat)
  | [] => some none
  | (i, c) :: later =>
    if c ≠ quote then quotedStop? quote later
    else do
      let behind ← source.from? (i + c.utf8Size)
      if behind.head? = some quote then
        match later with
        | [] => return none
        | _ :: later => quotedStop? quote later
      else return some (i + c.utf8Size)

def quotedAt? (quote : Char) (start : Nat) : Option (Except LexicalFault Token × Nat) := do
  let body ← source.from? (start + quote.utf8Size)
  match ← quotedStop? source quote (indices (start + quote.utf8Size) body) with
  | some stop =>
    let lexeme ← source.cut? ⟨start, stop⟩
    return (.ok ⟨.quoted quote, lexeme, ⟨start, stop⟩⟩, stop)
  | none => return (.error ⟨.unterminatedQuote quote, ⟨start, source.stop⟩⟩, source.stop)

def wordStop? : List (Nat × Char) → Option Nat
  | [] => some source.stop
  | (i, c) :: later =>
    if Text.isSpace c || lexicon.isQuote c then some i
    else do
      let here ← source.from? i
      if (lexicon.symbol? here).isSome then return i else wordStop? later

def wordAt? (start : Nat) : Option (Except LexicalFault Token × Nat) := do
  let rest ← source.from? start
  let stop ← lexicon.wordStop? source (indices start rest)
  let word ← source.cut? ⟨start, stop⟩
  return (.ok ⟨lexicon.wordKind word, word, ⟨start, stop⟩⟩, stop)

def symbolAt? (s : Symbol) (start : Nat) : Option (Except LexicalFault Token × Nat) := do
  let stop := start + Text.size s.text
  let lexeme ← source.cut? ⟨start, stop⟩
  return (.ok ⟨.symbol s, lexeme, ⟨start, stop⟩⟩, stop)

/-- The token or fault at offset `start`, where the text goes on with `c :: rest`. -/
def itemAt? (start : Nat) (c : Char) (rest : Text) : Option (Except LexicalFault Token × Nat) :=
  if lexicon.isQuote c then quotedAt? source c start
  else
    match lexicon.symbol? (c :: rest) with
    | some s => symbolAt? source s start
    | none => lexicon.wordAt? source start

/-- The next token or fault behind offset `pos`, and the offset behind it. -/
def nextAt? (pos : Nat) : Option (Option (Except LexicalFault Token × Nat)) := do
  let start ← skipSpace? source pos
  match ← source.from? start with
  | [] => return none
  | c :: rest => return some (← lexicon.itemAt? source start c rest)

/-- The tokens behind offset `pos`, if there are less than `fuel` of them. -/
def readAt? : (fuel : Nat) → (pos : Nat) → Option TokenStream
  | 0, _ => none
  | fuel + 1, pos => do
    match ← lexicon.nextAt? source pos with
    | none => return ⟨[], none⟩
    | some (.error fault, _) => return ⟨[], some fault⟩
    | some (.ok token, stop) => return (← readAt? fuel stop).push token

variable {lexicon} {source} {pos : Nat} {rest : Text}

theorem skipSpace?_eq (h : source.RestAt pos rest) :
    skipSpace? source pos = some (pos + Text.size (rest.takeWhile Text.isSpace)) := by
  rw [skipSpace?, h.from?]
  simp only [Option.bind_eq_bind, Option.bind_some, ← Text.size_trimStart rest, minus?_add_left]
  rfl

theorem quotedStop?_other {quote c : Char} (hc : c ≠ quote) (i : Nat) (later : List (Nat × Char)) :
    quotedStop? source quote ((i, c) :: later) = quotedStop? source quote later := by
  cases later <;> simp [quotedStop?, hc]

theorem quotedStop?_eq {quote : Char} (h : source.RestAt pos rest) :
    quotedStop? source quote (indices pos rest) =
      some ((Text.splitQuoted? quote rest).map fun (inner, _) => pos + Text.size inner) := by
  fun_induction Text.splitQuoted? quote rest generalizing pos with
  | case1 => rfl
  | case2 => simp [indices, quotedStop?, h.next.from?]
  | case3 c hc => simp [indices, quotedStop?, hc]
  | case4 rest ih =>
    have hlater := ih (h.next.next)
    rw [Nat.add_assoc] at hlater
    simp [indices, quotedStop?, h.next.from?, Nat.add_assoc, hlater, Function.comp_def]
  | case5 d rest hd =>
    simp [indices, quotedStop?, h.next.from?, hd]
  | case6 c d rest hc ih =>
    rw [indices, quotedStop?_other hc, ih h.next]
    simp [Nat.add_assoc, Function.comp_def]

theorem wordStop?_eq (h : source.RestAt pos rest) :
    lexicon.wordStop? source (indices pos rest) =
      some (pos + Text.size (lexicon.splitWord rest).1) := by
  induction rest generalizing pos with
  | nil =>
    rw [indices, wordStop?, h.stop]
    rfl
  | cons c rest ih =>
    rw [indices, wordStop?, h.from?, ih h.next, splitWord, endsWord]
    by_cases hc : Text.isSpace c || lexicon.isQuote c
    · simp [hc]
    · by_cases hs : (lexicon.symbol? (c :: rest)).isSome
      · simp [hc, hs]
      · simp [hc, hs, Nat.add_assoc]

theorem itemAt?_eq {c : Char} (h : source.RestAt pos (c :: rest)) (hc : Text.isSpace c = false) :
    lexicon.itemAt? source pos c rest =
      some ((lexicon.tokenAt pos c rest).1, (lexicon.tokenAt pos c rest).2.offset) := by
  unfold itemAt? tokenAt
  by_cases hquote : lexicon.isQuote c
  · rw [if_pos hquote, if_pos hquote, quotedAt?, h.next.from?]
    simp only [Option.bind_eq_bind, Option.bind_some, quotedStop?_eq h.next]
    cases hsplit : Text.splitQuoted? c rest with
    | none =>
      simp [h.stop]
    | some found =>
      obtain ⟨inner, after⟩ := found
      have hwhole : source.RestAt pos ((c :: inner) ++ after) := by
        rwa [List.cons_append, ← Text.splitQuoted?_append hsplit]
      have hcut := hwhole.cut?
      rw [Text.size_cons] at hcut
      simp [hcut, token, Nat.add_assoc]
  · rw [if_neg hquote, if_neg hquote]
    cases hsymbol : lexicon.symbol? (c :: rest) with
    | some s =>
      obtain ⟨after, hafter⟩ := symbol?_isPrefix hsymbol
      rw [← hafter] at h
      simp [symbolAt?, h.cut?, token]
    | none =>
      have hends : ¬lexicon.endsWord (c :: rest) := by simp [endsWord, hc, hquote, hsymbol]
      have hword : lexicon.splitWord (c :: rest) =
          (c :: (lexicon.splitWord rest).1, (lexicon.splitWord rest).2) := by
        rw [splitWord, if_neg hends]
      have hstop := @wordStop?_eq lexicon source pos (c :: rest) h
      have hwhole : source.RestAt pos
          ((c :: (lexicon.splitWord rest).1) ++ (lexicon.splitWord rest).2) := by
        rwa [List.cons_append, lexicon.splitWord_append]
      have hcut := hwhole.cut?
      rw [hword] at hstop
      rw [Text.size_cons] at hcut
      simp [wordAt?, h.from?, hstop, hcut, token]

theorem next?_trimStart (pos : Nat) (rest : Text) : lexicon.next? ⟨pos, rest⟩ =
    lexicon.next? ⟨pos + Text.size (rest.takeWhile Text.isSpace), Text.trimStart rest⟩ := by
  induction rest generalizing pos with
  | nil => rfl
  | cons c rest ih =>
    cases hc : Text.isSpace c with
    | false => simp [Text.trimStart, hc]
    | true =>
      rw [next?, if_pos hc, ih]
      simp [Text.trimStart, hc, Nat.add_assoc]

theorem nextAt?_eq (h : source.RestAt pos rest) :
    lexicon.nextAt? source pos =
      some ((lexicon.next? ⟨pos, rest⟩).map fun (item, after) => (item, after.offset)) := by
  have hrest : source.RestAt (pos + Text.size (rest.takeWhile Text.isSpace))
      (Text.trimStart rest) := by
    rw [← Text.trimStart_append rest] at h
    exact h.step
  have hhead := List.head?_dropWhile_not Text.isSpace rest
  rw [next?_trimStart, nextAt?, skipSpace?_eq h]
  simp only [Option.bind_eq_bind, Option.bind_some, hrest.from?]
  cases htrim : Text.trimStart rest with
  | nil => simp [next?]
  | cons c later =>
    rw [← Text.trimStart, htrim] at hhead
    have hc : Text.isSpace c = false := hhead
    rw [htrim] at hrest
    simp [itemAt?_eq hrest hc, next?, hc]

theorem restAt_of_next? {after : Fragment} {t : Token} (h : source.RestAt pos rest)
    (hnext : lexicon.next? ⟨pos, rest⟩ = some (.ok t, after)) :
    source.RestAt after.offset after.text := by
  obtain ⟨gap, c, later, -, -, htext, htoken⟩ := gap_of_next? hnext
  obtain ⟨-, hlexeme, -, hoffset⟩ := lexeme_of_tokenAt htoken
  dsimp only at htext hoffset
  rw [htext, ← hlexeme] at h
  rw [hoffset]
  exact h.step.step

/-- What is read from an offset on are the tokens of what is left of the text. -/
theorem readAt?_eq (fuel : Nat) (h : source.RestAt pos rest) (hfuel : rest.length < fuel) :
    lexicon.readAt? source fuel pos = some (lexicon.read ⟨pos, rest⟩) := by
  induction fuel generalizing pos rest with
  | zero => exact absurd hfuel (Nat.not_lt_zero _)
  | succ fuel ih =>
    rw [readAt?, nextAt?_eq h, read_eq]
    cases hnext : lexicon.next? ⟨pos, rest⟩ with
    | none => rfl
    | some found =>
      obtain ⟨_ | token, after⟩ := found
      · rfl
      · have hlength := next?_length hnext
        have hlater := ih (restAt_of_next? h hnext) (by simp only at hlength; omega)
        simp [hlater]

end Lexicon

/-! ## Stretches between braces -/

namespace Query

def braces? (q : Query) (opening : Token) (ts : List Token) :
    Slicing TemplateFault ((Text × Span) × List Token) :=
  match closingBrace? ts with
  | none => throw (q.endFault (.symbol .closeBrace))
  | some (stop, rest) => do
    let text ← q.source.cut? (opening.span.merge stop)
    return ((text, opening.span.merge stop), rest)

variable {q : Query} {ts : List Token} {t u : Token}

/-- From any token of a text to any other one, the text can be cut out. -/
theorem Holds.cut?_merge (h : q.Holds ts) (ht : t ∈ ts) (hu : u ∈ ts) :
    q.source.cut? (t.span.merge u.span) = some (q.source.slice (t.span.merge u.span)) := by
  have hlt := h.start_lt_stop ht
  have hstart : q.source.IsCut (min t.span.start u.span.start) := by
    rcases min_choice t.span.start u.span.start with hmin | hmin <;> rw [hmin]
    · exact h.isCut_start ht
    · exact h.isCut_start hu
  have hstop : q.source.IsCut (max t.span.stop u.span.stop) := by
    rcases max_choice t.span.stop u.span.stop with hmax | hmax <;> rw [hmax]
    · exact h.isCut_stop ht
    · exact h.isCut_stop hu
  exact Fragment.cut?_of_isCut hstart hstop (by omega)

theorem braces?_yields (h : q.Holds (t :: ts)) : (q.braces? t ts).Yields (q.braces t ts) := by
  unfold braces? braces
  cases hclosing : closingBrace? ts with
  | none => exact .throw _
  | some found =>
    obtain ⟨inner, closing, hts, hstop, -⟩ := exists_of_closingBrace? hclosing
    have hcut := h.cut?_merge (List.mem_cons_self ..) (u := closing) (by simp [hts])
    rw [← hstop] at hcut
    exact .cut hcut (.pure _)

end Query

end QueryTemplate
