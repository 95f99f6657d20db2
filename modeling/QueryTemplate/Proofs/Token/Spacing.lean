import QueryTemplate.Proofs.Alignment.Token

/-! # Tokens of texts put together

A text in front of another one is read on its own, unless its last token runs on into the text
behind it. A symbol never runs on, since no symbol is the beginning of another; a quoted text runs
on if its quote is doubled; a word ends where white space, a quote or a symbol stands, and must not
make a symbol together with a brace.
-/

namespace QueryTemplate

/-! ## Symbols -/

namespace Symbol

theorem text_ne_nil (s : Symbol) : s.text ≠ [] := by
  cases s <;> decide

theorem eq_of_text_isPrefix {s s' : Symbol} (h : s.text <+: s'.text) : s = s' := by
  revert h
  cases s <;> cases s' <;> decide

/-- The second character of a symbol is a brace. -/
theorem eq_brace_of_text {s : Symbol} {c d : Char} {rest : Text} (h : s.text = c :: d :: rest) :
    d = '\x7b' ∧ rest = [] := by
  cases s <;> cases h <;> exact ⟨rfl, rfl⟩

end Symbol

namespace Lexicon

variable {lexicon : Lexicon} {t b : Text}

theorem symbol?_append {s : Symbol} (h : lexicon.symbol? t = some s) (b : Text) :
    lexicon.symbol? (t ++ b) = some s := by
  have hprefix := (symbol?_isPrefix h).trans (List.prefix_append t b)
  have hmem : s ∈ lexicon.symbols := List.mem_of_find?_eq_some h
  cases hfound : lexicon.symbol? (t ++ b) with
  | none =>
    have hnot := List.find?_eq_none.1 hfound s hmem
    exact absurd (List.isPrefixOf_iff_prefix.2 hprefix) hnot
  | some s' =>
    rcases List.prefix_or_prefix_of_prefix (symbol?_isPrefix hfound) hprefix with hle | hle
    · rw [Symbol.eq_of_text_isPrefix hle]
    · rw [Symbol.eq_of_text_isPrefix hle]

/-- No symbol stands across the edge of two texts, unless a character in front of the edge makes
one with a brace behind it. -/
theorem symbol?_append_eq_none (ht : t ≠ []) (h : lexicon.symbol? t = none)
    (hedge : t.length = 1 → b.head? ≠ some '\x7b') : lexicon.symbol? (t ++ b) = none := by
  refine List.find?_eq_none.2 fun s hs hprefix => ?_
  have hnot := List.find?_eq_none.1 h s hs
  rw [List.isPrefixOf_iff_prefix] at hprefix hnot
  obtain ⟨c, rest, rfl⟩ := List.exists_cons_of_ne_nil ht
  obtain ⟨after, hafter⟩ := hprefix
  -- A symbol that does not lie in `t` has one character in it and one behind it.
  rcases hsymbol : s.text with _ | ⟨x, _ | ⟨y, tail⟩⟩
  · exact s.text_ne_nil hsymbol
  · rw [hsymbol, List.cons_append, List.cons_append] at hafter
    rw [hsymbol, (List.cons.inj hafter).1] at hnot
    exact hnot (List.prefix_append [c] rest)
  · obtain ⟨rfl, rfl⟩ := Symbol.eq_brace_of_text hsymbol
    rw [hsymbol, List.cons_append, List.cons_append, List.cons_append] at hafter
    obtain ⟨rfl, htail⟩ := List.cons.inj hafter
    cases rest with
    | nil =>
      have hb : '\x7b' :: after = b := htail
      exact hedge rfl (by rw [← hb]; rfl)
    | cons d rest =>
      obtain ⟨rfl, -⟩ := List.cons.inj htail
      rw [hsymbol] at hnot
      exact hnot (List.prefix_append [x, '\x7b'] rest)

theorem endsWord_append (ht : t ≠ []) (h : lexicon.endsWord t) (b : Text) :
    lexicon.endsWord (t ++ b) := by
  obtain ⟨c, rest, rfl⟩ := List.exists_cons_of_ne_nil ht
  simp only [List.cons_append, endsWord, Bool.or_eq_true] at h ⊢
  refine h.imp_right fun hsymbol => ?_
  obtain ⟨s, hs⟩ := Option.isSome_iff_exists.1 hsymbol
  have happend := symbol?_append hs b
  rw [List.cons_append] at happend
  rw [happend]
  rfl

theorem not_endsWord_append (ht : t ≠ []) (h : ¬lexicon.endsWord t)
    (hedge : t.length = 1 → b.head? ≠ some '\x7b') : ¬lexicon.endsWord (t ++ b) := by
  obtain ⟨c, rest, rfl⟩ := List.exists_cons_of_ne_nil ht
  simp only [List.cons_append, endsWord, Bool.or_eq_true, not_or, Option.isSome_iff_ne_none,
    ne_eq, not_not] at h ⊢
  exact ⟨h.1, symbol?_append_eq_none ht h.2 hedge⟩

/-! ## Words and quoted texts -/

/-- A word that ends in front of more text does so whatever follows. -/
theorem splitWord_append_of_ne_nil {word after : Text} (h : lexicon.splitWord t = (word, after))
    (hafter : after ≠ []) (b : Text) : lexicon.splitWord (t ++ b) = (word, after ++ b) := by
  induction t generalizing word with
  | nil =>
    cases h
    exact absurd rfl hafter
  | cons c rest ih =>
    rw [splitWord] at h
    rw [List.cons_append, splitWord]
    by_cases hends : lexicon.endsWord (c :: rest)
    · have happend := endsWord_append (List.cons_ne_nil c rest) hends b
      rw [if_pos hends] at h
      rw [List.cons_append] at happend
      rw [if_pos happend]
      cases h
      rfl
    · rw [if_neg hends] at h
      rcases hrest : lexicon.splitWord rest with ⟨inner, last⟩
      rw [hrest] at h
      cases h
      have hlong : (c :: rest).length = 1 → b.head? ≠ some '\x7b' := by
        intro hone
        obtain rfl : rest = [] := by simpa using hone
        cases hrest
        exact absurd rfl hafter
      have happend := not_endsWord_append (List.cons_ne_nil c rest) hends hlong
      rw [List.cons_append] at happend
      rw [if_neg happend, ih hrest]

/-- A text that is all one word is cut off in front of text that ends words. -/
theorem splitWord_append_of_ends {word : Text} (h : lexicon.splitWord t = (word, []))
    (hb : lexicon.endsWord b) (hbrace : b.head? ≠ some '\x7b') :
    lexicon.splitWord (t ++ b) = (word, b) := by
  induction t generalizing word with
  | nil =>
    cases h
    cases b with
    | nil => rfl
    | cons c rest => rw [List.nil_append, splitWord, if_pos hb]
  | cons c rest ih =>
    rw [splitWord] at h
    rw [List.cons_append, splitWord]
    by_cases hends : lexicon.endsWord (c :: rest)
    · rw [if_pos hends] at h
      cases h
    · rw [if_neg hends] at h
      rcases hrest : lexicon.splitWord rest with ⟨inner, last⟩
      rw [hrest] at h
      cases h
      have happend := not_endsWord_append (List.cons_ne_nil c rest) hends fun _ => hbrace
      rw [List.cons_append] at happend
      rw [if_neg happend, ih hrest]

end Lexicon

theorem Text.splitQuoted?_append_right {quote : Char} {t inner after : Text}
    (h : Text.splitQuoted? quote t = some (inner, after)) {b : Text}
    (hb : after = [] → b.head? ≠ some quote) :
    Text.splitQuoted? quote (t ++ b) = some (inner, after ++ b) := by
  fun_induction Text.splitQuoted? quote t generalizing inner after with
  | case1 => cases h
  | case2 =>
    cases h
    cases b with
    | nil => simp [Text.splitQuoted?]
    | cons d b =>
      have hd : d ≠ quote := by simpa using hb rfl
      simp [Text.splitQuoted?, hd]
  | case3 => cases h
  | case4 rest ih =>
    obtain ⟨⟨u, v⟩, hs, huv⟩ := Option.map_eq_some_iff.1 h
    cases huv
    simp [Text.splitQuoted?, ih hs hb]
  | case5 d rest hd =>
    cases h
    simp [Text.splitQuoted?, hd]
  | case6 c d rest hc ih =>
    obtain ⟨⟨u, v⟩, hs, huv⟩ := Option.map_eq_some_iff.1 h
    cases huv
    have hrest := ih hs hb
    rw [List.cons_append] at hrest
    simp [Text.splitQuoted?, hc, hrest]

/-! ## Tokens -/

theorem TokenStream.eq_of_complete_eq_ok {stream : TokenStream} {ts : List Token}
    (h : stream.complete = .ok ts) : stream = ⟨ts, none⟩ := by
  obtain ⟨tokens, fault⟩ := stream
  cases fault with
  | none =>
    cases h
    rfl
  | some _ => cases h

theorem TokenStream.complete_append (ts : List Token) (stream : TokenStream) :
    complete ⟨ts ++ stream.tokens, stream.fault⟩ = stream.complete.map (ts ++ ·) := by
  rcases stream with ⟨us, _ | fault⟩ <;> rfl

namespace Lexicon

/-- Whether a token of the given kind does not run on into the text behind it. -/
def Ends (lexicon : Lexicon) (behind : Text) : TokenKind → Prop
  | .symbol _ => True
  | .quoted quote => behind.head? ≠ some quote
  | .word | .keyword _ => lexicon.endsWord behind ∧ behind.head? ≠ some '\x7b'

/-- Whether the last token of a text does not run on into the text behind it. -/
def Apart (lexicon : Lexicon) (t behind : Text) : Prop :=
  ∀ last ∈ (lexicon.read (.ofText t)).tokens.getLast?, lexicon.Ends behind last.kind

variable {lexicon : Lexicon}

/-- What is behind a token ends where the text ends. -/
theorem stop_of_tokenAt (lexicon : Lexicon) (o : Nat) (c : Char) (rest : Text) :
    (lexicon.tokenAt o c rest).2.stop = o + Text.size (c :: rest) := by
  unfold tokenAt
  split
  · split
    · rename_i inner after hs
      rw [Text.splitQuoted?_append hs]
      simp [token, Fragment.stop, Nat.add_assoc]
    · simp [Fragment.stop]
  · split
    · rename_i s hs
      obtain ⟨after, hafter⟩ := symbol?_isPrefix hs
      rw [← hafter]
      simp [token, Fragment.stop, Nat.add_assoc]
    · have hsize := congrArg Text.size (lexicon.splitWord_append rest)
      rw [Text.size_append] at hsize
      simp [token, Fragment.stop, Nat.add_assoc, hsize]

theorem stop_of_next? {f after : Fragment} {item : Except LexicalFault Token}
    (h : lexicon.next? f = some (item, after)) : after.stop = f.stop := by
  fun_induction next? lexicon f with
  | case1 => cases h
  | case2 o c rest _ ih => simpa [Fragment.stop, Nat.add_assoc] using ih h
  | case3 o c rest _ =>
    have hstop := lexicon.stop_of_tokenAt o c rest
    rw [Option.some.inj h] at hstop
    exact hstop

/-- A token that does not run on is read in front of any text. -/
theorem tokenAt_append {o : Nat} {c : Char} {rest b : Text} {t : Token} {after : Fragment}
    (h : lexicon.tokenAt o c rest = (.ok t, after)) (hb : after.text = [] → lexicon.Ends b t.kind) :
    lexicon.tokenAt o c (rest ++ b) = (.ok t, ⟨after.offset, after.text ++ b⟩) := by
  unfold tokenAt at h ⊢
  by_cases hquote : lexicon.isQuote c
  · rw [if_pos hquote] at h ⊢
    split at h
    · rename_i inner last hs
      cases h
      rw [Text.splitQuoted?_append_right hs hb]
      rfl
    · cases h
  · rw [if_neg hquote] at h ⊢
    split at h
    · rename_i s hs
      cases h
      have happend := symbol?_append hs b
      rw [List.cons_append] at happend
      obtain ⟨last, hlast⟩ := symbol?_isPrefix hs
      have hlong : s.text ++ (last ++ b) = c :: (rest ++ b) := by
        rw [← List.append_assoc, hlast, List.cons_append]
      rw [happend]
      dsimp only
      rw [← hlast, ← hlong, List.drop_left, List.drop_left]
      rfl
    · rename_i hs
      rcases hword : lexicon.splitWord rest with ⟨word, last⟩
      rw [hword] at h
      cases h
      dsimp only at hb ⊢
      have hends : last = [] → lexicon.endsWord b ∧ b.head? ≠ some '\x7b' := by
        intro hlast
        have hb := hb hlast
        unfold wordKind at hb
        split at hb <;> exact hb
      have hedge : (c :: rest).length = 1 → b.head? ≠ some '\x7b' := by
        intro hone
        obtain rfl : rest = [] := by simpa using hone
        cases hword
        exact (hends rfl).2
      have happend := symbol?_append_eq_none (List.cons_ne_nil c rest) hs hedge
      rw [List.cons_append] at happend
      rw [happend]
      dsimp only
      by_cases hlast : last = []
      · subst hlast
        rw [splitWord_append_of_ends hword (hends rfl).1 (hends rfl).2]
        rfl
      · rw [splitWord_append_of_ne_nil hword hlast]
        rfl

/-- The first token of a text is read in front of any text it does not run on into. -/
theorem next?_append {f after : Fragment} {b : Text} {t : Token}
    (h : lexicon.next? f = some (.ok t, after)) (hb : after.text = [] → lexicon.Ends b t.kind) :
    lexicon.next? ⟨f.offset, f.text ++ b⟩ = some (.ok t, ⟨after.offset, after.text ++ b⟩) := by
  fun_induction next? lexicon f with
  | case1 => cases h
  | case2 o c rest hc ih =>
    rw [List.cons_append, next?, if_pos hc]
    exact ih h
  | case3 o c rest hc =>
    rw [List.cons_append, next?, if_neg hc, tokenAt_append (Option.some.inj h) hb]

/-- White space in front of a text is passed over. -/
theorem next?_append_of_eq_none {f : Fragment} (h : lexicon.next? f = none) (b : Text) :
    lexicon.next? ⟨f.offset, f.text ++ b⟩ = lexicon.next? ⟨f.stop, b⟩ := by
  fun_induction next? lexicon f with
  | case1 o => rfl
  | case2 o c rest hc ih =>
    rw [List.cons_append, next?, if_pos hc]
    simpa [Fragment.stop, Nat.add_assoc] using ih h
  | case3 => cases h

/-- A token stops where what is behind it starts. -/
theorem stop_span_of_next? {f after : Fragment} {t : Token}
    (h : lexicon.next? f = some (.ok t, after)) : t.span.stop = after.offset := by
  fun_induction next? lexicon f with
  | case1 => cases h
  | case2 _ _ _ _ ih => exact ih h
  | case3 o c rest _ =>
    have htoken := Option.some.inj h
    unfold tokenAt at htoken
    split at htoken
    · split at htoken <;> cases htoken
      rfl
    · split at htoken <;> cases htoken <;> rfl

/-- Texts are read one after the other unless the last token of the first one stands at its end and
runs on. -/
theorem read_append_of_stop {f : Fragment} {ts : List Token} (h : lexicon.read f = ⟨ts, none⟩)
    {b : Text} (hb : ∀ last ∈ ts.getLast?, last.span.stop = f.stop → lexicon.Ends b last.kind) :
    lexicon.read ⟨f.offset, f.text ++ b⟩ =
      ⟨ts ++ (lexicon.read ⟨f.stop, b⟩).tokens, (lexicon.read ⟨f.stop, b⟩).fault⟩ := by
  induction hn : f.text.length using Nat.strongRecOn generalizing f ts with
  | ind n ih =>
    rw [read_eq] at h
    cases hnext : lexicon.next? f with
    | none =>
      rw [hnext] at h
      cases h
      rw [read_eq, next?_append_of_eq_none hnext, read_eq lexicon ⟨f.stop, b⟩]
      rfl
    | some p =>
      obtain ⟨_ | t, after⟩ := p
      · rw [hnext] at h
        cases h
      · have hstop := stop_of_next? hnext
        rw [hnext] at h
        dsimp only at h
        rcases hrest : lexicon.read after with ⟨later, fault⟩
        rw [hrest] at h
        cases h
        have hends : after.text = [] → lexicon.Ends b t.kind := by
          intro hnil
          have hlater : lexicon.read after = ⟨[], none⟩ := by
            rw [read_eq, show after = ⟨after.offset, []⟩ from hnil ▸ rfl, next?]
          rw [hrest] at hlater
          cases hlater
          refine hb t rfl ?_
          rw [stop_span_of_next? hnext, ← hstop, Fragment.stop, hnil]
          rfl
        have hlast : ∀ last ∈ later.getLast?, last.span.stop = after.stop →
            lexicon.Ends b last.kind := by
          intro last hlast hadjacent
          refine hb last ?_ (hadjacent.trans hstop)
          rw [List.getLast?_cons, Option.mem_def.1 hlast]
          rfl
        rw [read_eq, next?_append hnext hends]
        dsimp only
        rw [ih _ (hn ▸ next?_length hnext) hrest hlast rfl, hstop]
        rfl

/-- **Texts that stand apart are read one after the other.** -/
theorem read_append {f : Fragment} {ts : List Token} (h : lexicon.read f = ⟨ts, none⟩) {b : Text}
    (hb : ∀ last ∈ ts.getLast?, lexicon.Ends b last.kind) :
    lexicon.read ⟨f.offset, f.text ++ b⟩ =
      ⟨ts ++ (lexicon.read ⟨f.stop, b⟩).tokens, (lexicon.read ⟨f.stop, b⟩).fault⟩ :=
  read_append_of_stop h fun last hlast _ => hb last hlast

/-- What tokens have beside their places does not depend on where their text stands. -/
theorem map_read {α : Type} (lexicon : Lexicon) (f : Fragment) {g : Token → α}
    (hg : ∀ {A : Alignment} {t t' : Token}, Aligned A t t' → g t' = g t) :
    (lexicon.read f).tokens.map g = (lexicon.read (.ofText f.text)).tokens.map g := by
  have hread := (aligned_read lexicon (Fragment.aligned_shift f.offset 0 f.text)).tokens
  rw [Nat.zero_add] at hread
  rw [← List.forall₂_eq_eq_eq, List.forall₂_map_left_iff, List.forall₂_map_right_iff]
  exact (List.Forall₂.imp (fun _ _ ht => hg ht) hread).flip

theorem map_kind_read (lexicon : Lexicon) (f : Fragment) :
    (lexicon.read f).tokens.map Token.kind =
      (lexicon.read (.ofText f.text)).tokens.map Token.kind :=
  lexicon.map_read f fun ht => (Token.Alike.kind ht).symm

/-- A text that can be divided into tokens can be so wherever it stands. -/
theorem exists_read_of_tokenize {t : Text} {ts : List Token} (h : lexicon.tokenize t = .ok ts)
    (o : Nat) :
    ∃ us, lexicon.read ⟨o, t⟩ = ⟨us, none⟩ ∧ us.map Token.kind = ts.map Token.kind := by
  have hfault := (aligned_read lexicon (Fragment.aligned_shift o 0 t)).fault
  have hkinds := lexicon.map_kind_read ⟨o, t⟩
  rw [Nat.zero_add] at hfault
  rw [Fragment.ofText] at hkinds
  rw [tokenize, Fragment.ofText, TokenStream.complete] at h
  generalize lexicon.read ⟨0, t⟩ = stream, lexicon.read ⟨o, t⟩ = moved at h hfault hkinds
  obtain ⟨tokens, fault⟩ := stream
  obtain ⟨us, fault'⟩ := moved
  cases hfault with
  | none =>
    cases h
    exact ⟨us, rfl, hkinds⟩
  | some _ => cases h

theorem ends_of_apart {f : Fragment} {b : Text} (h : lexicon.Apart f.text b) :
    ∀ last ∈ (lexicon.read f).tokens.getLast?, lexicon.Ends b last.kind := by
  intro last hlast
  have hkind := congrArg List.getLast? (lexicon.map_kind_read f)
  rw [List.getLast?_map, List.getLast?_map, Option.mem_def.1 hlast] at hkind
  obtain ⟨last', hlast', heq⟩ := Option.map_eq_some_iff.1 hkind.symm
  rw [← heq]
  exact h last' hlast'

theorem read_of_isBlank (lexicon : Lexicon) {space : Text} (h : Text.isBlank space) (o : Nat) :
    lexicon.read ⟨o, space⟩ = ⟨[], none⟩ := by
  induction space generalizing o with
  | nil =>
    rw [read_eq, next?]
  | cons c space ih =>
    obtain ⟨hc, hspace⟩ := Bool.and_eq_true_iff.1 h
    have hrest := ih hspace (o + c.utf8Size)
    rw [read_eq] at hrest ⊢
    rw [next?, if_pos hc]
    exact hrest

theorem isQuote_of_next? {f after : Fragment} {t : Token} {quote : Char}
    (h : lexicon.next? f = some (.ok t, after)) (ht : t.kind = .quoted quote) :
    lexicon.isQuote quote := by
  fun_induction next? lexicon f with
  | case1 => cases h
  | case2 _ _ _ _ ih => exact ih h
  | case3 o c rest _ =>
    have htoken := Option.some.inj h
    unfold tokenAt at htoken
    split at htoken
    · rename_i hquote
      split at htoken
      · cases htoken
        cases ht
        exact hquote
      · cases htoken
    · split at htoken
      · cases htoken
        cases ht
      · cases htoken
        unfold wordKind at ht
        split at ht <;> cases ht

/-- The tokens of a text are quoted by quotes of the lexicon. -/
theorem isQuote_of_mem_read {f : Fragment} {t : Token} {quote : Char}
    (h : t ∈ (lexicon.read f).tokens) (ht : t.kind = .quoted quote) : lexicon.isQuote quote := by
  induction hn : f.text.length using Nat.strongRecOn generalizing f with
  | ind n ih =>
    rw [read_eq] at h
    split at h
    · cases h
    · cases h
    · rename_i first after hnext
      rcases List.mem_cons.1 h with rfl | hlater
      · exact isQuote_of_next? hnext ht
      · exact ih _ (hn ▸ next?_length hnext) hlater rfl

/-! ## Single tokens -/

theorem read_of_tokenAt {o : Nat} {c : Char} {rest lexeme : Text} {kind : TokenKind}
    (hc : Text.isSpace c = false) (h : lexicon.tokenAt o c rest = token kind lexeme o []) :
    lexicon.read ⟨o, c :: rest⟩ = ⟨[⟨kind, lexeme, ⟨o, o + Text.size lexeme⟩⟩], none⟩ := by
  have hnext : lexicon.next? ⟨o, c :: rest⟩ = some (token kind lexeme o []) := by
    rw [next?, hc, ← h]
    rfl
  rw [read_eq, hnext]
  simp only [token]
  rw [read_eq, next?]
  rfl

/-- Whether a text is one word: it has no white space, quotes and symbols in it. -/
structure IsWord (lexicon : Lexicon) (word : Text) : Prop where
  ne_nil : word ≠ []
  space : ∀ c ∈ word, Text.isSpace c = false
  quote : ∀ c ∈ word, lexicon.isQuote c = false
  symbol : ∀ s ∈ lexicon.symbols, ¬s.text <:+: word

theorem IsWord.symbol?_eq_none {word : Text} (h : lexicon.IsWord word) {t : Text}
    (ht : t <:+ word) : lexicon.symbol? t = none := by
  refine List.find?_eq_none.2 fun s hs hprefix => h.symbol s hs ?_
  exact (List.isPrefixOf_iff_prefix.1 hprefix).isInfix.trans ht.isInfix

theorem IsWord.splitWord_eq {word : Text} (h : lexicon.IsWord word) {t : Text}
    (ht : t <:+ word) : lexicon.splitWord t = (t, []) := by
  induction t with
  | nil => rfl
  | cons c rest ih =>
    have hmem : c ∈ word := ht.subset (List.mem_cons_self ..)
    have hends : ¬lexicon.endsWord (c :: rest) := by
      simp [endsWord, h.space c hmem, h.quote c hmem, h.symbol?_eq_none ht]
    rw [splitWord, if_neg hends, ih ((List.suffix_cons c rest).trans ht)]

theorem IsWord.read {word : Text} (h : lexicon.IsWord word) (o : Nat) :
    lexicon.read ⟨o, word⟩ =
      ⟨[⟨lexicon.wordKind word, word, ⟨o, o + Text.size word⟩⟩], none⟩ := by
  have hsymbol := h.symbol?_eq_none List.suffix_rfl
  obtain ⟨c, rest, rfl⟩ := List.exists_cons_of_ne_nil h.ne_nil
  have hmem : c ∈ c :: rest := List.mem_cons_self ..
  refine read_of_tokenAt (h.space c hmem) ?_
  rw [tokenAt, h.quote c hmem, if_neg Bool.false_ne_true, hsymbol]
  dsimp only
  rw [h.splitWord_eq (List.suffix_cons c rest)]

theorem read_quoted (lexicon : Lexicon) {quote : Char} (hquote : lexicon.isQuote quote)
    (hspace : Text.isSpace quote = false) {inner : Text} (hinner : quote ∉ inner) (o : Nat) :
    let lexeme := quote :: (inner ++ [quote])
    lexicon.read ⟨o, lexeme⟩ =
      ⟨[⟨.quoted quote, lexeme, ⟨o, o + Text.size lexeme⟩⟩], none⟩ := by
  have hsplit : Text.splitQuoted? quote (inner ++ [quote]) = some (inner ++ [quote], []) := by
    induction inner with
    | nil => simp [Text.splitQuoted?]
    | cons c inner ih =>
      obtain ⟨hc, hinner⟩ := not_or.1 (mt List.mem_cons.2 hinner)
      have hrest := ih hinner
      cases inner with
      | nil =>
        rw [List.cons_append, List.nil_append, Text.splitQuoted?, if_neg (Ne.symm hc)]
        rw [List.nil_append] at hrest
        rw [hrest]
        rfl
      | cons d inner =>
        rw [List.cons_append] at hrest
        rw [List.cons_append, List.cons_append, Text.splitQuoted?, if_neg (Ne.symm hc), hrest]
        rfl
  refine read_of_tokenAt hspace ?_
  rw [tokenAt, if_pos hquote, hsplit]

theorem read_symbol {s : Symbol} (hs : s ∈ lexicon.symbols)
    (hquote : ∀ c ∈ s.text.head?, lexicon.isQuote c = false) (o : Nat) :
    lexicon.read ⟨o, s.text⟩ = ⟨[⟨.symbol s, s.text, ⟨o, o + Text.size s.text⟩⟩], none⟩ := by
  have hfound : lexicon.symbol? s.text = some s := by
    cases hfind : lexicon.symbol? s.text with
    | none =>
      have hnot := List.find?_eq_none.1 hfind s hs
      exact absurd (List.isPrefixOf_iff_prefix.2 List.prefix_rfl) hnot
    | some s' => rw [Symbol.eq_of_text_isPrefix (symbol?_isPrefix hfind)]
  have hspace : ∀ c ∈ s.text.head?, Text.isSpace c = false := by
    intro c hc
    cases s <;> cases hc <;> decide
  have hdrop : s.text.drop s.text.length = [] := List.drop_length ..
  obtain ⟨c, rest, htext⟩ := List.exists_cons_of_ne_nil s.text_ne_nil
  rw [htext] at hfound hquote hspace hdrop ⊢
  refine read_of_tokenAt (hspace c rfl) ?_
  rw [tokenAt, hquote c rfl, if_neg Bool.false_ne_true, hfound]
  dsimp only
  rw [htext, hdrop]

end Lexicon

end QueryTemplate
