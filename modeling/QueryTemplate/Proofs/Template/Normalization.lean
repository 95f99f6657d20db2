import QueryTemplate.Proofs.Slicing.Token
import QueryTemplate.Proofs.Template.Idempotence
import QueryTemplate.Proofs.Token.Division

/-! # Normalized white space

A template without placeholders resolves to itself with normalized white space: none at its ends,
and a single blank for each run inside. Dividing the text into tokens comes to the same before and
after. Every reader of the lexer looks at characters that are no white space, or passes over white
space whole, so each of them gives the same on normalized text up to white space between quotes.
-/

namespace QueryTemplate

/-! ## Texts with normalized white space -/

namespace Text

/-- The text with a single blank in place of each run of white space. -/
def collapse : Text → Text
  | [] => []
  | c :: rest =>
    if isSpace c then (if rest.head?.any isSpace then collapse rest else ' ' :: collapse rest)
    else c :: collapse rest

/-- The blank that is written for white space in front of a character. -/
def gap (spaced : Bool) : Text := if spaced then [' '] else []

/-- The text with single blanks, and none at its end. White space that has been passed in front of
the text, if it is `spaced`, belongs to its first run. -/
def squeeze (spaced : Bool) : Text → Text
  | [] => []
  | c :: rest => if isSpace c then squeeze true rest else gap spaced ++ c :: squeeze false rest

variable {c quote : Char} {t : Text} {spaced : Bool}

theorem squeeze_space (h : isSpace c) (spaced : Bool) (t : Text) :
    squeeze spaced (c :: t) = squeeze true t := if_pos h

theorem squeeze_cons (h : isSpace c = false) (spaced : Bool) (t : Text) :
    squeeze spaced (c :: t) = gap spaced ++ c :: squeeze false t := by
  rw [squeeze, h, if_neg Bool.false_ne_true]

theorem squeeze_of_isBlank (h : isBlank t) (spaced : Bool) : squeeze spaced t = [] := by
  induction t generalizing spaced with
  | nil => rfl
  | cons c t ih =>
    obtain ⟨hc, ht⟩ := Bool.and_eq_true_iff.1 h
    rw [squeeze_space hc, ih ht]

/-- A run of white space in front of a character leaves a blank or nothing. -/
theorem squeeze_append_cons {lead : Text} (hlead : isBlank lead) (hc : isSpace c = false)
    (spaced : Bool) (t : Text) :
    ∃ spaced', squeeze spaced (lead ++ c :: t) = gap spaced' ++ c :: squeeze false t := by
  induction lead generalizing spaced with
  | nil => exact ⟨spaced, squeeze_cons hc spaced t⟩
  | cons d lead ih =>
    obtain ⟨hd, hlead⟩ := Bool.and_eq_true_iff.1 hlead
    rw [List.cons_append, squeeze_space hd]
    exact ih hlead true

/-- Behind white space, a blank or nothing at all is left. -/
theorem head_squeeze_true (t : Text) : ∀ c ∈ (squeeze true t).head?, c = ' ' := by
  induction t with
  | nil => simp [squeeze]
  | cons c t ih =>
    by_cases hc : isSpace c
    · rwa [squeeze_space hc]
    · rw [squeeze_cons (Bool.eq_false_iff.2 hc)]
      simp [gap]

theorem head_squeeze (hquote : isSpace quote = false) (h : t.head? ≠ some quote) :
    (squeeze false t).head? ≠ some quote := by
  intro hhead
  cases t with
  | nil => cases hhead
  | cons c t =>
    by_cases hc : isSpace c
    · rw [squeeze_space hc] at hhead
      rw [head_squeeze_true t quote hhead] at hquote
      exact absurd hquote (by decide)
    · rw [squeeze_cons (Bool.eq_false_iff.2 hc)] at hhead
      exact h hhead

theorem trimEnd_cons (c : Char) (t : Text) :
    trimEnd (c :: t) = if isSpace c ∧ trimEnd t = [] then [] else c :: trimEnd t := by
  rw [trimEnd]
  cases trimEnd t <;> simp

/-- What is left is the text without the white space at its end, with single blanks. -/
theorem squeeze_eq_collapse (t : Text) : squeeze false t = collapse (trimEnd t) ∧
    squeeze true t = if (trimEnd t).head?.all isSpace then collapse (trimEnd t)
      else ' ' :: collapse (trimEnd t) := by
  induction t with
  | nil => exact ⟨rfl, rfl⟩
  | cons c t ih =>
    obtain ⟨ihFirst, ihSpaced⟩ := ih
    by_cases hc : isSpace c
    · have hboth : squeeze true t = collapse (trimEnd (c :: t)) := by
        rw [ihSpaced, trimEnd_cons]
        cases trimEnd t with
        | nil => simp [hc]
        | cons d kept => by_cases hd : isSpace d <;> simp [hc, hd, collapse]
      have hhead : (trimEnd (c :: t)).head?.all isSpace := by
        rw [trimEnd_cons]
        split_ifs <;> simp [hc]
      rw [squeeze_space hc, squeeze_space hc, if_pos hhead]
      exact ⟨hboth, hboth⟩
    · have hspace : isSpace c = false := Bool.eq_false_iff.2 hc
      have htrim : trimEnd (c :: t) = c :: trimEnd t := by
        rw [trimEnd_cons, if_neg fun h => hc h.1]
      have hcollapse : collapse (c :: trimEnd t) = c :: collapse (trimEnd t) := if_neg hc
      rw [squeeze_cons hspace, squeeze_cons hspace, htrim, hcollapse, ihFirst]
      simp [hspace, gap]

theorem squeeze_eq_of_getLast? (h : ∀ c ∈ t.getLast?, isSpace c = false) :
    squeeze false t = collapse t := by
  rw [(squeeze_eq_collapse t).1, trimEnd_eq_self h]

/-- A text without white space begins the text exactly if it begins what is left. -/
theorem prefix_squeeze_iff {lead : Text} (h : ∀ c ∈ lead, isSpace c = false) :
    lead <+: squeeze false t ↔ lead <+: t := by
  induction lead generalizing t with
  | nil => exact iff_of_true List.nil_prefix List.nil_prefix
  | cons d lead ih =>
    obtain ⟨hd, hlead⟩ := List.forall_mem_cons.1 h
    cases t with
    | nil => rfl
    | cons c t =>
      by_cases hc : isSpace c
      · have hne : (c :: t).head? ≠ some d := by
          rintro ⟨⟩
          rw [hc] at hd
          cases hd
        refine iff_of_false ?_ fun hstarts => hne (by rw [(List.cons_prefix_cons.1 hstarts).1]; rfl)
        rintro ⟨rest, hrest⟩
        exact head_squeeze hd hne (by rw [← hrest]; rfl)
      · rw [squeeze_cons (Bool.eq_false_iff.2 hc), gap, if_neg Bool.false_ne_true,
          List.nil_append, List.cons_prefix_cons, List.cons_prefix_cons, ih hlead]

/-- A text without white space is left as it stands. -/
theorem squeeze_append {lead : Text} (h : ∀ c ∈ lead, isSpace c = false) (t : Text) :
    squeeze false (lead ++ t) = lead ++ squeeze false t := by
  induction lead with
  | nil => rfl
  | cons c lead ih =>
    obtain ⟨hc, hlead⟩ := List.forall_mem_cons.1 h
    rw [List.cons_append, squeeze_cons hc, ih hlead]
    rfl

/-! ## Quoted texts -/

theorem splitQuoted?_cons_of_ne (h : c ≠ quote) (t : Text) : splitQuoted? quote (c :: t) =
    (splitQuoted? quote t).map fun (inner, after) => (c :: inner, after) := by
  cases t <;> simp [splitQuoted?, h]

theorem splitQuoted?_single (h : t.head? ≠ some quote) :
    splitQuoted? quote (quote :: t) = some ([quote], t) := by
  cases t with
  | nil => simp [splitQuoted?]
  | cons d t =>
    have hd : d ≠ quote := by simpa using h
    simp [splitQuoted?, hd]

theorem splitQuoted?_gap (hquote : isSpace quote = false) (spaced : Bool) (t : Text) :
    splitQuoted? quote (gap spaced ++ t) =
      (splitQuoted? quote t).map fun (inner, after) => (gap spaced ++ inner, after) := by
  have hne : ' ' ≠ quote := by
    rintro rfl
    exact absurd hquote (by decide)
  cases spaced with
  | true => exact splitQuoted?_cons_of_ne hne t
  | false => exact Option.map_id'.symm

/-- A quoted text is closed at the same quote when white space is normalized. -/
theorem splitQuoted?_squeeze (hquote : isSpace quote = false) (spaced : Bool) (t : Text) :
    splitQuoted? quote (squeeze spaced t) = (splitQuoted? quote t).map fun (inner, after) =>
      (squeeze spaced inner, squeeze false after) := by
  fun_induction splitQuoted? quote t generalizing spaced with
  | case1 => rfl
  | case2 =>
    rw [squeeze_cons hquote, splitQuoted?_gap hquote, splitQuoted?_single (by simp [squeeze])]
    simp [squeeze, hquote]
  | case3 c hc =>
    by_cases hspace : isSpace c
    · rw [squeeze_space hspace]
      rfl
    · rw [squeeze_cons (Bool.eq_false_iff.2 hspace), splitQuoted?_gap hquote]
      simp [squeeze, splitQuoted?, hc]
  | case4 rest ih =>
    have hpair : splitQuoted? quote (quote :: quote :: squeeze false rest) =
        (splitQuoted? quote (squeeze false rest)).map fun (inner, after) =>
          (quote :: quote :: inner, after) := by
      simp [splitQuoted?]
    have hsqueeze (inner : Text) : squeeze spaced (quote :: quote :: inner) =
        gap spaced ++ quote :: quote :: squeeze false inner := by
      rw [squeeze_cons hquote, squeeze_cons hquote]
      rfl
    rw [hsqueeze, splitQuoted?_gap hquote, hpair, ih false]
    simp [Option.map_map, Function.comp_def, hsqueeze]
  | case5 d rest hd =>
    have hhead : (squeeze false (d :: rest)).head? ≠ some quote :=
      head_squeeze hquote (by simpa using hd)
    rw [squeeze_cons hquote, splitQuoted?_gap hquote, splitQuoted?_single hhead]
    simp [squeeze, hquote]
  | case6 c d rest hc ih =>
    by_cases hspace : isSpace c
    · rw [squeeze_space hspace, ih true, Option.map_map]
      simp [Function.comp_def, squeeze_space hspace]
    · have hspace := Bool.eq_false_iff.2 hspace
      rw [squeeze_cons hspace, splitQuoted?_gap hquote, splitQuoted?_cons_of_ne hc, ih false]
      simp [Option.map_map, Function.comp_def, squeeze_cons hspace]

end Text

/-! ## Tokens -/

/-- Two tokens differ in their places at most, and in the white space between quotes, for which
single blanks stand in the second one. -/
structure Token.Collapsed (t u : Token) : Prop where
  kind : u.kind = t.kind
  bare : (∀ quote, t.kind ≠ .quoted quote) → u.lexeme = t.lexeme
  quoted : ∀ quote, t.kind = .quoted quote → u.lexeme = Text.collapse t.lexeme

/-- Both results are values that are related, or a quoted text that the same quote leaves open. -/
inductive Except.SameQuote {α : Type} (r : α → α → Prop) :
    Except LexicalFault α → Except LexicalFault α → Prop where
  | ok {x y : α} : r x y → SameQuote r (.ok x) (.ok y)
  | unterminated {quote : Char} {s s' : Span} :
    SameQuote r (.error ⟨.unterminatedQuote quote, s⟩) (.error ⟨.unterminatedQuote quote, s'⟩)

theorem Symbol.isSpace_of_mem_text (s : Symbol) : ∀ c ∈ s.text, Text.isSpace c = false := by
  have hnone : s.text.any Text.isSpace = false := by cases s <;> rfl
  simpa using hnone

theorem Except.SameQuote.map {α β : Type} {r : α → α → Prop} {r' : β → β → Prop}
    {x y : Except LexicalFault α} (h : Except.SameQuote r x y) {f g : α → β}
    (hfg : ∀ a b, r a b → r' (f a) (g b)) : Except.SameQuote r' (x.map f) (y.map g) := by
  cases h with
  | ok hr => exact .ok (hfg _ _ hr)
  | unterminated => exact .unterminated

theorem TokenStream.complete_push (t : Token) (stream : TokenStream) :
    (stream.push t).complete = stream.complete.map (t :: ·) := by
  rcases stream with ⟨tokens, _ | fault⟩ <;> rfl

namespace Lexicon

variable {lexicon : Lexicon}

theorem wordKind_ne_quoted {word : Text} {quote : Char} :
    lexicon.wordKind word ≠ .quoted quote := by
  rw [wordKind]
  cases lexicon.keyword? word <;> exact TokenKind.noConfusion

theorem symbol?_squeeze (lexicon : Lexicon) (t : Text) :
    lexicon.symbol? (Text.squeeze false t) = lexicon.symbol? t := by
  have hbegins (s : Symbol) : s.text.isPrefixOf (Text.squeeze false t) = s.text.isPrefixOf t := by
    rw [Bool.eq_iff_iff, List.isPrefixOf_iff_prefix, List.isPrefixOf_iff_prefix,
      Text.prefix_squeeze_iff s.isSpace_of_mem_text]
  simp only [symbol?, hbegins]

theorem endsWord_squeeze (lexicon : Lexicon) (t : Text) :
    lexicon.endsWord (Text.squeeze false t) = lexicon.endsWord t := by
  cases t with
  | nil => rfl
  | cons c rest =>
    by_cases hc : Text.isSpace c
    · have hends : lexicon.endsWord (c :: rest) = true := by simp [endsWord, hc]
      have hblank := Text.head_squeeze_true rest
      rw [Text.squeeze_space hc, hends]
      cases hrest : Text.squeeze true rest with
      | nil => rfl
      | cons d last =>
        rw [hrest] at hblank
        rw [hblank d rfl]
        rfl
    · have hsymbol := lexicon.symbol?_squeeze (c :: rest)
      have hsqueeze : Text.squeeze false (c :: rest) = c :: Text.squeeze false rest :=
        Text.squeeze_cons (Bool.eq_false_iff.2 hc) false rest
      rw [hsqueeze] at hsymbol ⊢
      rw [endsWord, endsWord, hsymbol]

theorem splitWord_of_endsWord {t : Text} (h : lexicon.endsWord t) :
    lexicon.splitWord t = ([], t) := by
  cases t with
  | nil => rfl
  | cons c rest => exact if_pos h

theorem splitWord_squeeze (lexicon : Lexicon) (t : Text) :
    lexicon.splitWord (Text.squeeze false t) =
      ((lexicon.splitWord t).1, Text.squeeze false (lexicon.splitWord t).2) := by
  induction t with
  | nil => rfl
  | cons c rest ih =>
    have hends := lexicon.endsWord_squeeze (c :: rest)
    by_cases h : lexicon.endsWord (c :: rest)
    · rw [splitWord_of_endsWord h, splitWord_of_endsWord (hends.trans h)]
    · have hc : Text.isSpace c = false := by
        simp only [endsWord, Bool.or_eq_true, not_or, Bool.not_eq_true] at h
        exact h.1.1
      have hsqueeze : Text.squeeze false (c :: rest) = c :: Text.squeeze false rest :=
        Text.squeeze_cons hc false rest
      rw [splitWord, if_neg h]
      rw [← hends, hsqueeze] at h
      rw [hsqueeze, splitWord, if_neg h, ih]

/-- A text begins with the same token when white space is normalized, and normalized text is left
behind it. -/
theorem tokenAt_squeeze (lexicon : Lexicon) (o o' : Nat) {c : Char} (hc : Text.isSpace c = false)
    (rest : Text) :
    Except.SameQuote Token.Collapsed (lexicon.tokenAt o c rest).1
        (lexicon.tokenAt o' c (Text.squeeze false rest)).1 ∧
      (lexicon.tokenAt o' c (Text.squeeze false rest)).2.text =
        Text.squeeze false (lexicon.tokenAt o c rest).2.text := by
  have hsqueeze (t : Text) : Text.squeeze false (c :: t) = c :: Text.squeeze false t :=
    Text.squeeze_cons hc false t
  rw [tokenAt, tokenAt, Text.splitQuoted?_squeeze hc]
  by_cases hquote : lexicon.isQuote c
  · rw [if_pos hquote, if_pos hquote]
    cases hs : Text.splitQuoted? c rest with
    | none => exact ⟨.unterminated, rfl⟩
    | some found =>
      obtain ⟨inner, after⟩ := found
      have hlast : ∀ d ∈ (c :: inner).getLast?, Text.isSpace d = false := by
        intro d hd
        rw [List.getLast?_cons, Text.getLast?_of_splitQuoted? hs] at hd
        rwa [← Option.some.inj hd]
      refine ⟨.ok ⟨rfl, fun hbare => absurd rfl (hbare c), fun _ _ => ?_⟩, rfl⟩
      exact (hsqueeze inner).symm.trans (Text.squeeze_eq_of_getLast? hlast)
  · have hsymbol := lexicon.symbol?_squeeze (c :: rest)
    rw [hsqueeze] at hsymbol
    rw [if_neg hquote, if_neg hquote, hsymbol]
    cases hs : lexicon.symbol? (c :: rest) with
    | some s =>
      refine ⟨.ok ⟨rfl, fun _ => rfl, fun _ => TokenKind.noConfusion⟩, ?_⟩
      obtain ⟨last, hlast⟩ := symbol?_isPrefix hs
      dsimp only [token]
      rw [← hsqueeze, ← hlast, Text.squeeze_append s.isSpace_of_mem_text, List.drop_left,
        List.drop_left]
    | none =>
      rw [splitWord_squeeze]
      exact ⟨.ok ⟨rfl, fun _ => rfl, fun _ hkind => absurd hkind wordKind_ne_quoted⟩, rfl⟩

/-- Behind a blank or nothing, a text begins with the token that it begins with. -/
theorem next?_gap {c : Char} (hc : Text.isSpace c = false) (o : Nat) (spaced : Bool) (rest : Text) :
    lexicon.next? ⟨o, Text.gap spaced ++ c :: rest⟩ =
      some (lexicon.tokenAt (o + Text.size (Text.gap spaced)) c rest) := by
  have hnext (o : Nat) : lexicon.next? ⟨o, c :: rest⟩ = some (lexicon.tokenAt o c rest) := by
    rw [next?, hc, if_neg Bool.false_ne_true]
  cases spaced with
  | true =>
    change lexicon.next? ⟨o, ' ' :: c :: rest⟩ = _
    rw [next?, if_pos (by decide), hnext]
    rfl
  | false => exact hnext o

/-- Text is divided into the same tokens when white space is normalized. The induction goes over
what is left behind the first token. -/
theorem complete_read_squeeze (lexicon : Lexicon) (o o' : Nat) (spaced : Bool) (t : Text) :
    Except.SameQuote (List.Forall₂ Token.Collapsed) (lexicon.read ⟨o, t⟩).complete
      (lexicon.read ⟨o', Text.squeeze spaced t⟩).complete := by
  induction hn : t.length using Nat.strongRecOn generalizing o o' spaced t with
  | ind n ih =>
    cases hnext : lexicon.next? ⟨o, t⟩ with
    | none =>
      rw [read_eq, hnext, Text.squeeze_of_isBlank (isBlank_of_next?_eq_none hnext),
        lexicon.read_of_isBlank rfl]
      exact .ok .nil
    | some found =>
      obtain ⟨item, after⟩ := found
      obtain ⟨lead, c, rest, hlead, hc, rfl, htoken⟩ := gap_of_next? hnext
      obtain ⟨spaced', hsqueeze⟩ := Text.squeeze_append_cons hlead hc spaced rest
      obtain ⟨hitem, hafter⟩ := lexicon.tokenAt_squeeze (o + Text.size lead)
        (o' + Text.size (Text.gap spaced')) hc rest
      have hlength := next?_length hnext
      rw [read_eq, hnext, hsqueeze, read_eq lexicon ⟨o', _⟩, next?_gap hc]
      dsimp only at htoken
      rw [htoken] at hitem hafter
      generalize lexicon.tokenAt _ c (Text.squeeze false rest) = found at hitem hafter
      obtain ⟨item', after'⟩ := found
      cases hitem with
      | unterminated => exact .unterminated
      | ok htokens =>
        dsimp only at hafter ⊢
        rw [TokenStream.complete_push, TokenStream.complete_push]
        have hrest := ih _ (hn ▸ hlength) after.offset after'.offset false after.text rfl
        rw [← hafter] at hrest
        exact hrest.map fun _ _ hlater => .cons htokens hlater

end Lexicon

/-! ## Statements -/

namespace Piece

theorem write_literals (markers : Markers) (spaced : Bool) (t : Text) :
    write markers spaced true (t.map literal) = Text.squeeze spaced t := by
  induction t generalizing spaced with
  | nil => rfl
  | cons c t ih =>
    rw [List.map_cons, write, ih, ih, Text.squeeze]
    cases spaced <;> rfl

theorem write_literals_start (markers : Markers) (t : Text) :
    write markers false false (t.map literal) = Text.collapse (Text.trim t) := by
  rw [Text.trim, ← (Text.squeeze_eq_collapse _).1]
  induction t with
  | nil => rfl
  | cons c t ih =>
    rw [List.map_cons, write, write_not_started, Text.trimStart, List.dropWhile_cons]
    by_cases hc : Text.isSpace c
    · rw [if_pos hc, if_pos hc, ih, Text.trimStart]
    · rw [if_neg hc, if_neg hc, write_literals, Text.squeeze_cons (Bool.eq_false_iff.2 hc)]
      rfl

end Piece

namespace Statement

/-- **Resolving and dividing into tokens commute.** A text without placeholders resolves to itself
with normalized white space. Both are divided into tokens of the same kinds and texts, but for
collapsed white space between quotes, or the same quote is left open in both. -/
theorem tokenize_resolve (lexicon : Lexicon) (markers : Markers) {t : Text}
    (h : ∀ opener : Placeholder, ¬[opener.mark, '\x7b'] <:+: t) :
    resolve markers (.ofText t) = .ok ⟨Text.collapse (Text.trim t), [], []⟩ ∧
      Except.SameQuote (List.Forall₂ Token.Collapsed) (lexicon.tokenize t)
        (lexicon.tokenize (Text.collapse (Text.trim t))) := by
  constructor
  · rw [resolve, Fragment.ofText, Piece.scan_map_literal (Piece.isChain_of_unopened h)]
    refine congrArg Except.ok ?_
    rw [ofPieces, Piece.write_literals_start, Piece.filterMap_name?_map_literal,
      Piece.filterMap_name?_map_literal]
  · have hstart : lexicon.read (.ofText t) =
        lexicon.read ⟨0 + Text.size (t.takeWhile Text.isSpace), Text.trimStart t⟩ := by
      rw [Lexicon.read_eq, Fragment.ofText, Lexicon.next?_trimStart, ← Lexicon.read_eq]
    rw [Lexicon.tokenize, Lexicon.tokenize, hstart, Text.trim,
      ← (Text.squeeze_eq_collapse (Text.trimStart t)).1]
    exact lexicon.complete_read_squeeze _ 0 false _

/-- White space stands between sigils and braces, beside doubled quotes and at both ends of quoted
texts. -/
theorem tokenize_resolve_quotes :
    let t : Text := "\u00a0a.b  'x \t''\n y'\"\u2003 \"% \x7b\n$\n\x7b %\x7b  \x7d`  ` ".toList
    let normal : Text := "a.b 'x '' y'\" \"% \x7b $ \x7b %\x7b \x7d` `".toList
    (∀ opener : Placeholder, ¬[opener.mark, '\x7b'] <:+: t) ∧
      resolve .standard (.ofText t) = .ok ⟨normal, [], []⟩ ∧
      Except.SameQuote (List.Forall₂ Token.Collapsed) (Lexicon.sql.tokenize t)
        (Lexicon.sql.tokenize normal) := by
  intro t normal
  have hclosed : ∀ opener : Placeholder, ¬[opener.mark, '\x7b'] <:+: t := by
    intro opener
    cases opener <;> decide +kernel
  have hnormal : Text.collapse (Text.trim t) = normal := by decide +kernel
  have hboth := tokenize_resolve .sql .standard hclosed
  rw [hnormal] at hboth
  exact ⟨hclosed, hboth⟩

end Statement

end QueryTemplate
