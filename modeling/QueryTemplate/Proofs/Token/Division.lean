import QueryTemplate.Proofs.Token.Place

/-! # The division of a text into tokens

Every character of a text lies in a token, in the white space around tokens, or in a quoted text
that is left open at the end. What a token is can be read off the text: a quoted text goes on to
the first quote of its kind that is not doubled, a symbol is read wherever it stands outside quotes,
and a word goes on as long as it can.
-/

namespace QueryTemplate

/-! ## Quoted texts -/

/-- A text in which the quote character stands in pairs only. -/
inductive Text.Paired (quote : Char) : Text → Prop where
  | nil : Paired quote []
  | other {c : Char} {rest : Text} : c ≠ quote → Paired quote rest → Paired quote (c :: rest)
  | pair {rest : Text} : Paired quote rest → Paired quote (quote :: quote :: rest)

/-- Behind an opening quote, `rest` closes the quoted text after `inner`: the quote that stands
there is none of a pair. -/
structure Text.Closes (quote : Char) (rest inner after : Text) : Prop where
  text : rest = inner ++ quote :: after
  paired : Paired quote inner
  single : after.head? ≠ some quote

theorem Text.closes_of_splitQuoted? {quote : Char} {rest quoted after : Text}
    (h : splitQuoted? quote rest = some (quoted, after)) :
    ∃ inner, quoted = inner ++ [quote] ∧ Closes quote rest inner after := by
  fun_induction splitQuoted? quote rest generalizing quoted after with
  | case1 => cases h
  | case2 =>
    cases h
    exact ⟨[], rfl, rfl, .nil, by simp⟩
  | case3 => cases h
  | case4 rest ih =>
    simp only [Option.map_eq_some_iff, Prod.exists, Prod.mk.injEq] at h
    rcases h with ⟨u, v, hs, rfl, rfl⟩
    rcases ih hs with ⟨inner, rfl, hrest, hpaired, hsingle⟩
    exact ⟨quote :: quote :: inner, rfl, by simp [hrest], .pair hpaired, hsingle⟩
  | case5 d rest hd =>
    cases h
    exact ⟨[], rfl, rfl, .nil, by simp [hd]⟩
  | case6 c d rest hc ih =>
    simp only [Option.map_eq_some_iff, Prod.exists, Prod.mk.injEq] at h
    rcases h with ⟨u, v, hs, rfl, rfl⟩
    rcases ih hs with ⟨inner, rfl, hrest, hpaired, hsingle⟩
    exact ⟨c :: inner, rfl, by simp [hrest], .other hc hpaired, hsingle⟩

theorem Text.Closes.splitQuoted? {quote : Char} {rest inner after : Text}
    (h : Closes quote rest inner after) :
    Text.splitQuoted? quote rest = some (inner ++ [quote], after) := by
  rcases h with ⟨rfl, hpaired, hsingle⟩
  induction hpaired with
  | nil =>
    cases after with
    | nil => simp [Text.splitQuoted?]
    | cons d after =>
      have hd : d ≠ quote := by simpa using hsingle
      simp [Text.splitQuoted?, hd]
  | @other c inner hc _ ih =>
    cases inner <;> simp_all [Text.splitQuoted?]
  | pair _ ih => simp [Text.splitQuoted?, ih]

theorem Text.splitQuoted?_eq_none_iff {quote : Char} {rest : Text} :
    splitQuoted? quote rest = none ↔ ∀ inner after, ¬Closes quote rest inner after := by
  constructor
  · intro h inner after hcloses
    rw [hcloses.splitQuoted?] at h
    cases h
  · intro h
    cases hs : splitQuoted? quote rest with
    | none => rfl
    | some found =>
      rcases closes_of_splitQuoted? hs with ⟨inner, -, hcloses⟩
      exact absurd hcloses (h inner found.2)

/-- A character of a text that is put together from two parts lies in one of them. -/
theorem Text.cases_of_append_eq {u v before after : Text} {c : Char}
    (h : u ++ v = before ++ c :: after) :
    (∃ w, u = before ++ c :: w) ∨ ∃ w, before = u ++ w ∧ v = w ++ c :: after := by
  rcases List.append_eq_append_iff.1 h with ⟨w, hbefore, hv⟩ | ⟨w, hu, hafter⟩
  · exact .inr ⟨w, hbefore, hv⟩
  · cases w with
    | nil => exact .inr ⟨[], by simpa using hu.symm, by simpa using hafter.symm⟩
    | cons d w =>
      rw [List.cons_append, List.cons.injEq] at hafter
      exact .inl ⟨w, by rw [hu, hafter.1]⟩

/-! ## Kinds of tokens -/

/-- Whether a token of the kind is a word or a keyword. -/
def TokenKind.IsBare : TokenKind → Prop
  | keyword _ | word => True
  | symbol _ | quoted _ => False

namespace Lexicon

/-- A word does not go on where white space, a quote or a symbol begins. -/
def Breaks (lexicon : Lexicon) (text : Text) : Prop :=
  (∃ c ∈ text.head?, Text.isSpace c ∨ c ∈ lexicon.quotes) ∨ ∃ s ∈ lexicon.symbols, s.text <+: text

/-- The word is as long as it can be: it breaks nowhere, and what is behind it ends it. -/
structure IsStretch (lexicon : Lexicon) (word after : Text) : Prop where
  inside : ∀ u v, word = u ++ v → v ≠ [] → ¬lexicon.Breaks (v ++ after)
  behind : after = [] ∨ lexicon.Breaks after

/-- The kind of a token follows from its text and from the text behind it. -/
structure Classifies (lexicon : Lexicon) (t : Token) (after : Text) : Prop where
  quoted : ∀ quote ∈ t.lexeme.head?, quote ∈ lexicon.quotes → t.kind = .quoted quote ∧
    ∃ inner, t.lexeme = quote :: (inner ++ [quote]) ∧ Text.Paired quote inner ∧
      after.head? ≠ some quote
  symbol : (∀ c ∈ t.lexeme.head?, c ∉ lexicon.quotes) → ∀ s ∈ lexicon.symbols,
    s.text <+: t.lexeme → t.kind = .symbol s ∧ t.lexeme = s.text
  word : (∀ c ∈ t.lexeme.head?, c ∉ lexicon.quotes) →
    (∀ s ∈ lexicon.symbols, ¬s.text <+: t.lexeme) → lexicon.IsStretch t.lexeme after ∧
      (∀ k, t.kind = .keyword k ↔ k ∈ lexicon.keywords ∧ k.isSpelledBy t.lexeme) ∧
      (t.kind = .word ↔ ∀ k ∈ lexicon.keywords, ¬k.isSpelledBy t.lexeme)

variable {lexicon : Lexicon}

theorem isQuote_iff {c : Char} : lexicon.isQuote c ↔ c ∈ lexicon.quotes := decide_eq_true_iff

theorem symbol?_eq_none_iff {text : Text} :
    lexicon.symbol? text = none ↔ ∀ s ∈ lexicon.symbols, ¬s.text <+: text := by
  simp [symbol?, List.find?_eq_none]

theorem endsWord_iff {text : Text} : lexicon.endsWord text ↔ text = [] ∨ lexicon.Breaks text := by
  cases text with
  | nil => simp [endsWord]
  | cons c rest =>
    have hsymbol : (lexicon.symbol? (c :: rest)).isSome ↔
        ∃ s ∈ lexicon.symbols, s.text <+: c :: rest := by
      rw [← Option.ne_none_iff_isSome, ne_eq, symbol?_eq_none_iff]
      simp
    simp [endsWord, Breaks, isQuote_iff, hsymbol]

theorem keyword?_eq_some_iff {word : Text} {k : Keyword} :
    lexicon.keyword? word = some k ↔ k ∈ lexicon.keywords ∧ k.isSpelledBy word := by
  constructor
  · intro h
    exact ⟨List.mem_of_find?_eq_some h, List.find?_some (p := (Keyword.isSpelledBy · word)) h⟩
  · rintro ⟨hmem, hspelled⟩
    cases h : lexicon.keyword? word with
    | none => exact absurd hspelled (List.find?_eq_none.1 h k hmem)
    | some k' =>
      have hspelled' := List.find?_some (p := (Keyword.isSpelledBy · word)) h
      rw [Keyword.eq_of_text_eq ((eq_of_beq hspelled').trans (eq_of_beq hspelled).symm)]

theorem wordKind_eq_keyword_iff {word : Text} {k : Keyword} :
    lexicon.wordKind word = .keyword k ↔ k ∈ lexicon.keywords ∧ k.isSpelledBy word := by
  rw [← keyword?_eq_some_iff, wordKind]
  cases lexicon.keyword? word <;> simp

theorem wordKind_eq_word_iff {word : Text} :
    lexicon.wordKind word = .word ↔ ∀ k ∈ lexicon.keywords, ¬k.isSpelledBy word := by
  rw [wordKind]
  cases h : lexicon.keyword? word with
  | none => simpa using List.find?_eq_none.1 h
  | some k =>
    have hk := keyword?_eq_some_iff.1 h
    simpa using ⟨k, hk⟩

theorem isStretch_splitWord (lexicon : Lexicon) (text : Text) :
    lexicon.IsStretch (lexicon.splitWord text).1 (lexicon.splitWord text).2 := by
  induction text with
  | nil => exact ⟨by simp [splitWord], .inl rfl⟩
  | cons c rest ih =>
    rw [splitWord]
    by_cases hends : lexicon.endsWord (c :: rest)
    · rw [if_pos hends]
      exact ⟨by simp, endsWord_iff.1 hends⟩
    · rw [if_neg hends]
      refine ⟨fun u v huv hv => ?_, ih.behind⟩
      cases u with
      | nil =>
        have hwhole : v ++ (lexicon.splitWord rest).2 = c :: rest := by
          rw [← List.nil_append v, ← huv, List.cons_append, splitWord_append]
        rw [hwhole]
        exact fun hbreaks => hends (endsWord_iff.2 (.inr hbreaks))
      | cons d u =>
        rw [List.cons_append, List.cons.injEq] at huv
        exact ih.inside u v huv.2 hv

/-! ## Tokens at the beginning of a text -/

section

variable {o : Nat} {c : Char} {rest : Text} {after : Fragment}

/-- A text begins with a quoted text, else with a symbol, else with a word. -/
theorem cases_of_tokenAt {t : Token} (h : lexicon.tokenAt o c rest = (.ok t, after)) :
    (lexicon.isQuote c ∧ t.kind = .quoted c ∧
      ∃ inner, t.lexeme = c :: (inner ++ [c]) ∧ Text.Closes c rest inner after.text) ∨
    (¬lexicon.isQuote c ∧ ∃ s ∈ lexicon.symbols, t.kind = .symbol s ∧ t.lexeme = s.text) ∨
    (¬lexicon.isQuote c ∧ (∀ s ∈ lexicon.symbols, ¬s.text <+: c :: rest) ∧
      t.kind = lexicon.wordKind t.lexeme ∧ t.lexeme = c :: (lexicon.splitWord rest).1 ∧
      after.text = (lexicon.splitWord rest).2) := by
  unfold tokenAt at h
  by_cases hquote : lexicon.isQuote c
  · rw [if_pos hquote] at h
    split at h
    · rename_i quoted last hs
      rcases Text.closes_of_splitQuoted? hs with ⟨inner, rfl, hcloses⟩
      cases h
      exact .inl ⟨hquote, rfl, inner, rfl, hcloses⟩
    · cases h
  · rw [if_neg hquote] at h
    split at h
    · rename_i s hs
      cases h
      exact .inr (.inl ⟨hquote, s, List.mem_of_find?_eq_some hs, rfl, rfl⟩)
    · rename_i hs
      cases h
      exact .inr (.inr ⟨hquote, symbol?_eq_none_iff.1 hs, rfl, rfl, rfl⟩)

theorem classifies_of_tokenAt {t : Token} (hc : Text.isSpace c = false)
    (h : lexicon.tokenAt o c rest = (.ok t, after)) : lexicon.Classifies t after.text := by
  have happend := (lexeme_of_tokenAt h).2.1
  have hcases := cases_of_tokenAt h
  simp only [isQuote_iff] at hcases
  rcases hcases with ⟨hquote, hkind, inner, hlexeme, hcloses⟩ |
    ⟨hquote, s, hs, hkind, hlexeme⟩ | ⟨hquote, hsymbols, hkind, hlexeme, hafter⟩
  · have hhead : t.lexeme.head? = some c := by rw [hlexeme]; rfl
    refine ⟨fun quote hmem _ => ?_, fun hnot => absurd hquote (hnot c hhead),
      fun hnot => absurd hquote (hnot c hhead)⟩
    obtain rfl : c = quote := by simpa [hhead] using hmem
    exact ⟨hkind, inner, hlexeme, hcloses.paired, hcloses.single⟩
  · have hhead : t.lexeme.head? = some c := by
      obtain ⟨d, lexeme, hd⟩ := List.exists_cons_of_ne_nil (hlexeme ▸ s.text_ne_nil)
      rw [hd, List.cons_append, List.cons.injEq] at happend
      rw [hd, happend.1]
      rfl
    refine ⟨fun quote hmem hquote' => ?_, fun _ s' hs' hstarts => ?_,
      fun _ hnot => absurd (hlexeme ▸ List.prefix_rfl) (hnot s hs)⟩
    · obtain rfl : c = quote := by simpa [hhead] using hmem
      exact absurd hquote' hquote
    · obtain rfl : s' = s := Symbol.eq_of_text_isPrefix (hlexeme ▸ hstarts)
      exact ⟨hkind, hlexeme⟩
  · have hstretch := lexicon.isStretch_splitWord rest
    have hlong : t.lexeme <+: c :: rest := ⟨after.text, happend⟩
    refine ⟨fun quote hmem hquote' => ?_, fun _ s hs hstarts => ?_, fun _ _ => ⟨⟨?_, ?_⟩, ?_, ?_⟩⟩
    · obtain rfl : c = quote := by simpa [hlexeme] using hmem
      exact absurd hquote' hquote
    · exact absurd (hstarts.trans hlong) (hsymbols s hs)
    · intro u v huv hv
      cases u with
      | nil =>
        obtain rfl : t.lexeme = v := huv
        rw [happend]
        rintro (⟨d, hd, hspace | hquote'⟩ | ⟨s, hs, hstarts⟩)
        · obtain rfl : c = d := by simpa using hd
          rw [hc] at hspace
          cases hspace
        · obtain rfl : c = d := by simpa using hd
          exact hquote hquote'
        · exact hsymbols s hs hstarts
      | cons d u =>
        rw [hlexeme, List.cons_append, List.cons.injEq] at huv
        rw [hafter]
        exact hstretch.inside u v huv.2 hv
    · rw [hafter]
      exact hstretch.behind
    · intro k
      rw [hkind, wordKind_eq_keyword_iff]
    · rw [hkind, wordKind_eq_word_iff]

theorem fault_of_tokenAt {e : LexicalFault} (h : lexicon.tokenAt o c rest = (.error e, after)) :
    lexicon.isQuote c ∧ (∀ inner last, ¬Text.Closes c rest inner last) ∧
      e = ⟨.unterminatedQuote c, ⟨o, o + Text.size (c :: rest)⟩⟩ := by
  unfold tokenAt at h
  by_cases hquote : lexicon.isQuote c
  · rw [if_pos hquote] at h
    split at h
    · cases h
    · rename_i hs
      cases h
      exact ⟨hquote, Text.splitQuoted?_eq_none_iff.1 hs, rfl⟩
  · rw [if_neg hquote] at h
    split at h <;> cases h

end

/-- The next item stands behind white space. -/
theorem gap_of_next? {f after : Fragment} {item : Except LexicalFault Token}
    (h : lexicon.next? f = some (item, after)) :
    ∃ gap c rest, Text.isBlank gap ∧ Text.isSpace c = false ∧ f.text = gap ++ c :: rest ∧
      lexicon.tokenAt (f.offset + Text.size gap) c rest = (item, after) := by
  fun_induction next? lexicon f with
  | case1 => cases h
  | case2 o c rest hc ih =>
    rcases ih h with ⟨gap, d, last, hgap, hd, rfl, htoken⟩
    refine ⟨c :: gap, d, last, by simp_all [Text.isBlank], hd, rfl, ?_⟩
    rwa [Text.size_cons, ← Nat.add_assoc]
  | case3 o c rest hc => exact ⟨[], c, rest, rfl, by simpa using hc, rfl, Option.some.inj h⟩

theorem isBlank_of_next?_eq_none {f : Fragment} (h : lexicon.next? f = none) :
    Text.isBlank f.text := by
  fun_induction next? lexicon f with
  | case1 => rfl
  | case2 o c rest hc ih => simpa [Text.isBlank, hc] using ih h
  | case3 => cases h

/-! ## Division -/

/-- The text of a fragment is divided: white space, a token and so on, and in the end white space
or an open quoted text. -/
inductive Divides (lexicon : Lexicon) : Fragment → TokenStream → Prop where
  | blank {o : Nat} {gap : Text} : Text.isBlank gap → Divides lexicon ⟨o, gap⟩ ⟨[], none⟩
  | fault {o : Nat} {gap rest : Text} {quote : Char} : Text.isBlank gap →
    Text.isSpace quote = false → quote ∈ lexicon.quotes →
    (∀ inner last, ¬Text.Closes quote rest inner last) →
    Divides lexicon ⟨o, gap ++ quote :: rest⟩
      ⟨[], some ⟨.unterminatedQuote quote,
        ⟨o + Text.size gap, o + Text.size (gap ++ quote :: rest)⟩⟩⟩
  | token {o : Nat} {gap after : Text} {t : Token} {stream : TokenStream} : Text.isBlank gap →
    t.lexeme ≠ [] → lexicon.Classifies t after →
    t.span = ⟨o + Text.size gap, o + Text.size gap + Text.size t.lexeme⟩ →
    Divides lexicon ⟨t.span.stop, after⟩ stream →
    Divides lexicon ⟨o, gap ++ (t.lexeme ++ after)⟩ (stream.push t)

theorem divides_read (lexicon : Lexicon) (f : Fragment) : lexicon.Divides f (lexicon.read f) := by
  induction hn : f.text.length using Nat.strongRecOn generalizing f with
  | ind n ih =>
    obtain ⟨o, text⟩ := f
    rw [read_eq]
    split
    · rename_i hnext
      exact .blank (isBlank_of_next?_eq_none hnext)
    · rename_i e after hnext
      rcases gap_of_next? hnext with ⟨gap, c, rest, hgap, hc, rfl, htoken⟩
      rcases fault_of_tokenAt htoken with ⟨hquote, hopen, rfl⟩
      have hfault := Divides.fault hgap hc (isQuote_iff.1 hquote) hopen (o := o)
      rwa [Text.size_append, ← Nat.add_assoc] at hfault
    · rename_i t after hnext
      rcases gap_of_next? hnext with ⟨gap, c, rest, hgap, hc, rfl, htoken⟩
      rcases lexeme_of_tokenAt htoken with ⟨hne, happend, hspan, hoffset⟩
      have hrest := ih _ (hn ▸ next?_length hnext) after rfl
      have hstop : after = ⟨t.span.stop, after.text⟩ := by rw [hspan, ← hoffset]
      rw [← happend]
      exact .token hgap hne (classifies_of_tokenAt hc htoken) hspan (hstop ▸ hrest)

end Lexicon

/-- Whether the byte at an offset belongs to a token. -/
def TokenStream.Covers (stream : TokenStream) (n : Nat) : Prop :=
  ∃ t ∈ stream.tokens, t.span.start ≤ n ∧ n < t.span.stop

theorem TokenStream.covers_push {t : Token} {stream : TokenStream} {n : Nat} :
    (stream.push t).Covers n ↔ (t.span.start ≤ n ∧ n < t.span.stop) ∨ stream.Covers n := by
  simp [Covers, push]

theorem Text.isSpace_of_isBlank {t : Text} (h : isBlank t) : ∀ c ∈ t, isSpace c :=
  List.all_eq_true.1 h

namespace Lexicon.Divides

variable {lexicon : Lexicon} {f : Fragment} {stream : TokenStream}

/-- Every token stands in the text where its span says. -/
theorem stands (h : lexicon.Divides f stream) : ∀ t ∈ stream.tokens, ∃ before after,
    f.text = before ++ (t.lexeme ++ after) ∧ t.lexeme ≠ [] ∧ lexicon.Classifies t after ∧
      t.span = ⟨f.offset + Text.size before, f.offset + Text.size before + Text.size t.lexeme⟩ := by
  induction h with
  | blank _ => simp
  | fault _ _ _ _ => simp
  | @token o gap after t stream _ hne hkind hspan _ ih =>
    intro u hu
    rcases List.mem_cons.1 hu with rfl | hu
    · exact ⟨gap, after, rfl, hne, hkind, hspan⟩
    · rcases ih u hu with ⟨before, behind, htext, hne, hkind, hplace⟩
      refine ⟨gap ++ (t.lexeme ++ before), behind, ?_, hne, hkind, ?_⟩
      · rw [show after = before ++ (u.lexeme ++ behind) from htext]
        simp
      · rw [hplace, hspan]
        simp only [Text.size_append, Span.mk.injEq]
        omega

theorem offset_le (h : lexicon.Divides f stream) :
    ∀ t ∈ stream.tokens, f.offset ≤ t.span.start := by
  intro t ht
  rcases h.stands t ht with ⟨before, after, -, -, -, hspan⟩
  rw [hspan]
  exact Nat.le_add_right ..

theorem nonempty (h : lexicon.Divides f stream) :
    ∀ t ∈ stream.tokens, t.span.start < t.span.stop := by
  intro t ht
  rcases h.stands t ht with ⟨before, after, -, hne, -, hspan⟩
  have hpos := Text.size_pos hne
  rw [hspan]
  dsimp only
  omega

theorem ordered (h : lexicon.Divides f stream) :
    stream.tokens.Pairwise fun t u => t.span.stop ≤ u.span.start := by
  induction h with
  | blank _ => exact .nil
  | fault _ _ _ _ => exact .nil
  | token _ _ _ _ hrest ih => exact .cons hrest.offset_le ih

/-- What is no part of a token is white space, up to an open quoted text. -/
theorem gap (h : lexicon.Divides f stream) {before after : Text} {c : Char}
    (htext : f.text = before ++ c :: after) (hcovers : ¬stream.Covers (f.offset + Text.size before))
    (hfault : ∀ e ∈ stream.fault, f.offset + Text.size before < e.span.start) : Text.isSpace c := by
  induction h generalizing before with
  | blank hgap =>
    dsimp only at htext
    exact Text.isSpace_of_isBlank hgap c (by simp [htext])
  | @fault o gap rest quote hgap _ _ _ =>
    have hlt : o + Text.size before < o + Text.size gap := hfault _ rfl
    rcases Text.cases_of_append_eq htext with ⟨w, hw⟩ | ⟨w, hw, -⟩
    · exact Text.isSpace_of_isBlank hgap c (by simp [hw])
    · rw [hw, Text.size_append] at hlt
      omega
  | @token o gap last t stream hgap _ _ hspan _ ih =>
    rw [TokenStream.covers_push, not_or] at hcovers
    rcases Text.cases_of_append_eq htext with ⟨w, hw⟩ | ⟨w, rfl, hrest⟩
    · exact Text.isSpace_of_isBlank hgap c (by simp [hw])
    · rcases Text.cases_of_append_eq hrest with ⟨v, hv⟩ | ⟨v, rfl, hlast⟩
      · have hsize := congrArg Text.size hv
        have hpos := c.utf8Size_pos
        simp only [Text.size_append, Text.size_cons] at hsize hcovers
        rw [hspan] at hcovers
        dsimp only at hcovers
        omega
      · have hplace : o + Text.size (gap ++ (t.lexeme ++ v)) = t.span.stop + Text.size v := by
          simp only [hspan, Text.size_append]
          omega
        dsimp only at hcovers hfault
        rw [hplace] at hcovers hfault
        exact ih hlast hcovers.2 hfault

/-- The text is rebuilt from its tokens and the white space around them. -/
theorem rebuilt (h : lexicon.Divides f stream) : ∃ (gaps : List Text) (rest : Text),
    gaps.length = stream.tokens.length ∧ (∀ gap ∈ gaps, Text.isBlank gap) ∧
      f.text = (List.zipWith (· ++ ·) gaps (stream.tokens.map Token.lexeme)).flatten ++ rest ∧
      (stream.fault = none → Text.isBlank rest) := by
  induction h with
  | @blank _ gap hgap => exact ⟨[], gap, rfl, by simp, rfl, fun _ => hgap⟩
  | @fault _ gap rest quote _ _ _ _ =>
    exact ⟨[], gap ++ quote :: rest, rfl, by simp, rfl, fun hnone => nomatch hnone⟩
  | @token _ gap last t stream hgap _ _ _ _ ih =>
    rcases ih with ⟨gaps, rest, hlength, hgaps, hlast, hrest⟩
    refine ⟨gap :: gaps, rest, by simp [TokenStream.push, hlength], ?_, ?_, hrest⟩
    · simpa using ⟨hgap, hgaps⟩
    · dsimp only at hlast
      simp [TokenStream.push, hlast]

/-- A word is not directly followed by another one. -/
theorem apart (h : lexicon.Divides f stream) {t u : Token} (ht : t ∈ stream.tokens)
    (hu : u ∈ stream.tokens) (hadjacent : t.span.stop = u.span.start) (hbare : t.kind.IsBare) :
    ¬u.kind.IsBare := by
  have hword {t : Token} {after : Text} (hkind : lexicon.Classifies t after)
      (hbare : t.kind.IsBare) : lexicon.IsStretch t.lexeme after := by
    refine (hkind.word (fun c hc hquote => ?_) fun s hs hstarts => ?_).1
    · rw [(hkind.quoted c hc hquote).1] at hbare
      exact hbare
    · by_cases hquote : ∃ c ∈ t.lexeme.head?, c ∈ lexicon.quotes
      · rcases hquote with ⟨c, hc, hquote⟩
        rw [(hkind.quoted c hc hquote).1] at hbare
        exact hbare
      · rw [(hkind.symbol (fun c hc hq => hquote ⟨c, hc, hq⟩) s hs hstarts).1] at hbare
        exact hbare
  rcases h.stands t ht with ⟨before, after, htext, -, hkind, hspan⟩
  rcases h.stands u hu with ⟨before', after', htext', hne, hkind', hspan'⟩
  have hplace : Text.size (before ++ t.lexeme) = Text.size before' := by
    rw [hspan, hspan'] at hadjacent
    simp only [Text.size_append] at hadjacent ⊢
    omega
  have hbehind : after = u.lexeme ++ after' := by
    refine (Text.eq_of_size_eq ?_ hplace).2
    rw [List.append_assoc, ← htext, htext']
  intro hbare'
  rcases (hword hkind hbare).behind with hnil | hbreaks
  · rw [hnil] at hbehind
    exact hne (List.append_eq_nil_iff.1 hbehind.symm).1
  · rw [hbehind] at hbreaks
    exact (hword hkind' hbare').inside [] u.lexeme rfl hne hbreaks

end Lexicon.Divides

/-! ## Open quoted texts -/

/-- Behind tokens and white space, a quote opens a quoted text that is never closed. -/
structure Lexicon.LeavesOpen (lexicon : Lexicon) (f : Fragment) (stream : TokenStream)
    (before : Text) (quote : Char) (rest : Text) : Prop where
  text : f.text = before ++ quote :: rest
  mem_quotes : quote ∈ lexicon.quotes
  notSpace : Text.isSpace quote = false
  outside : ¬stream.Covers (f.offset + Text.size before)
  behind : ∀ u c v, before = u ++ c :: v →
    stream.Covers (f.offset + Text.size u) ∨ Text.isSpace c
  notClosed : ∀ inner last, ¬Text.Closes quote rest inner last

namespace Lexicon

variable {lexicon : Lexicon} {gap : Text} {o : Nat}

theorem not_leavesOpen_blank (hgap : Text.isBlank gap) {stream : TokenStream} {before rest : Text}
    {quote : Char} : ¬lexicon.LeavesOpen ⟨o, gap⟩ stream before quote rest := by
  rintro ⟨htext, -, hspace, -⟩
  dsimp only at htext
  rw [Text.isSpace_of_isBlank hgap quote (by simp [htext])] at hspace
  cases hspace

/-- Where there are no tokens, the first character behind white space is the open quote. -/
theorem LeavesOpen.eq_of_blank {e : Option LexicalFault} {before rest rest' : Text}
    {quote quote' : Char}
    (h : lexicon.LeavesOpen ⟨o, gap ++ quote :: rest⟩ ⟨[], e⟩ before quote' rest')
    (hgap : Text.isBlank gap) (hspace : Text.isSpace quote = false) :
    before = gap ∧ quote' = quote := by
  rcases Text.cases_of_append_eq h.text with ⟨w, hw⟩ | ⟨w, hbefore, hw⟩
  · have hblank := Text.isSpace_of_isBlank hgap quote' (by simp [hw])
    rw [h.notSpace] at hblank
    cases hblank
  · cases w with
    | nil =>
      rw [List.nil_append, List.cons.injEq] at hw
      exact ⟨by simpa using hbefore, hw.1.symm⟩
    | cons d w =>
      rw [List.cons_append, List.cons.injEq] at hw
      have hcases := h.behind gap d w hbefore
      simp [TokenStream.Covers, ← hw.1, hspace] at hcases

section

variable {last : Text} {t : Token} {stream : TokenStream} (hgap : Text.isBlank gap)
  (hspan : t.span = ⟨o + Text.size gap, o + Text.size gap + Text.size t.lexeme⟩)
include hspan

theorem place_of_span (v : Text) :
    o + Text.size (gap ++ (t.lexeme ++ v)) = t.span.stop + Text.size v := by
  simp only [hspan, Text.size_append]
  omega

theorem covers_push_behind (v : Text) :
    (stream.push t).Covers (o + Text.size (gap ++ (t.lexeme ++ v))) ↔
      stream.Covers (t.span.stop + Text.size v) := by
  rw [place_of_span hspan, TokenStream.covers_push]
  constructor
  · rintro (hin | hcovers)
    · omega
    · exact hcovers
  · exact .inr

include hgap

/-- A token and the white space in front of it are white space and covered characters. -/
theorem covers_push_of_append {before u v : Text} {c : Char}
    (h : gap ++ (t.lexeme ++ before) = u ++ c :: v) :
    ((stream.push t).Covers (o + Text.size u) ∨ Text.isSpace c) ∨
      ∃ w, u = gap ++ (t.lexeme ++ w) ∧ before = w ++ c :: v := by
  rcases Text.cases_of_append_eq h with ⟨w, hw⟩ | ⟨w, rfl, hw⟩
  · exact .inl (.inr (Text.isSpace_of_isBlank hgap c (by simp [hw])))
  · rcases Text.cases_of_append_eq hw with ⟨x, hx⟩ | ⟨x, rfl, hx⟩
    · have hsize := congrArg Text.size hx
      have hpos := c.utf8Size_pos
      refine .inl (.inl (TokenStream.covers_push.2 (.inl ?_)))
      simp only [Text.size_append, Text.size_cons, hspan] at hsize ⊢
      omega
    · exact .inr ⟨x, rfl, hx⟩

/-- The open quote is behind the first token. -/
theorem leavesOpen_push_iff {before rest : Text} {quote : Char} :
    lexicon.LeavesOpen ⟨o, gap ++ (t.lexeme ++ last)⟩ (stream.push t) before quote rest ↔
      ∃ w, before = gap ++ (t.lexeme ++ w) ∧
        lexicon.LeavesOpen ⟨t.span.stop, last⟩ stream w quote rest := by
  constructor
  · intro h
    rcases covers_push_of_append hgap hspan h.text with hcases | ⟨w, rfl, hw⟩
    · rcases hcases with hcovers | hblank
      · exact absurd hcovers h.outside
      · rw [h.notSpace] at hblank
        cases hblank
    · refine ⟨w, rfl, hw, h.mem_quotes, h.notSpace, ?_, fun u c v huv => ?_, h.notClosed⟩
      · exact mt (covers_push_behind hspan w).2 h.outside
      · have hcases := h.behind (gap ++ (t.lexeme ++ u)) c v (by simp [huv])
        rwa [covers_push_behind hspan] at hcases
  · rintro ⟨w, rfl, h⟩
    have htext : last = w ++ quote :: rest := h.text
    refine ⟨by simp [htext], h.mem_quotes, h.notSpace, ?_, fun u c v huv => ?_, h.notClosed⟩
    · exact mt (covers_push_behind hspan w).1 h.outside
    · rcases covers_push_of_append hgap hspan huv with hcases | ⟨x, rfl, hx⟩
      · exact hcases
      · dsimp only
        rw [covers_push_behind hspan]
        exact h.behind x c v hx

end

/-- Reading ends with a fault where a quoted text is left open. -/
theorem Divides.fault_iff {f : Fragment} {stream : TokenStream} (h : lexicon.Divides f stream)
    (e : LexicalFault) : stream.fault = some e ↔ ∃ before quote rest,
      lexicon.LeavesOpen f stream before quote rest ∧
        e = ⟨.unterminatedQuote quote, ⟨f.offset + Text.size before, f.stop⟩⟩ := by
  induction h with
  | blank hgap =>
    constructor
    · intro hnone
      cases hnone
    · rintro ⟨before, quote, rest, hopen, -⟩
      exact absurd hopen (not_leavesOpen_blank hgap)
  | @fault o gap rest quote hgap hspace hquote hopen =>
    constructor
    · intro he
      refine ⟨gap, quote, rest, ⟨rfl, hquote, hspace, ?_, fun u c v huv => ?_, hopen⟩,
        (Option.some.inj he).symm⟩
      · simp [TokenStream.Covers]
      · exact .inr (Text.isSpace_of_isBlank hgap c (by simp [huv]))
    · rintro ⟨before, quote', rest', hleaves, rfl⟩
      obtain ⟨rfl, rfl⟩ := hleaves.eq_of_blank hgap hspace
      rfl
  | @token o gap last t stream hgap _ _ hspan _ ih =>
    have hstop : Fragment.stop ⟨t.span.stop, last⟩ =
        Fragment.stop ⟨o, gap ++ (t.lexeme ++ last)⟩ := (place_of_span hspan last).symm
    rw [show (stream.push t).fault = stream.fault from rfl, ih, hstop]
    constructor
    · rintro ⟨w, quote, rest, hleaves, rfl⟩
      refine ⟨_, quote, rest, (leavesOpen_push_iff hgap hspan).2 ⟨w, rfl, hleaves⟩, ?_⟩
      rw [place_of_span hspan]
    · rintro ⟨before, quote, rest, hleaves, rfl⟩
      rcases (leavesOpen_push_iff hgap hspan).1 hleaves with ⟨w, rfl, hw⟩
      exact ⟨w, quote, rest, hw, by rw [place_of_span hspan]⟩

end Lexicon

/-- What the tokens and the fault of a text say about the text. -/
structure Lexicon.IsDivision (lexicon : Lexicon) (source : Text) (stream : TokenStream) : Prop where
  nonempty : ∀ t ∈ stream.tokens, t.span.start < t.span.stop
  ordered : stream.tokens.Pairwise fun t u => t.span.stop ≤ u.span.start
  lexeme : ∀ t ∈ stream.tokens, source.slice t.span = t.lexeme
  gap : ∀ before c after, source = before ++ c :: after → ¬stream.Covers (Text.size before) →
    (∀ e ∈ stream.fault, Text.size before < e.span.start) → Text.isSpace c
  rebuilt : ∃ (gaps : List Text) (rest : Text), gaps.length = stream.tokens.length ∧
    (∀ gap ∈ gaps, Text.isBlank gap) ∧
    source = (List.zipWith (· ++ ·) gaps (stream.tokens.map Token.lexeme)).flatten ++ rest ∧
    (stream.fault = none → Text.isBlank rest)
  classified : ∀ t ∈ stream.tokens, ∃ before after, source = before ++ (t.lexeme ++ after) ∧
    t.span.start = Text.size before ∧ lexicon.Classifies t after
  apart : ∀ t ∈ stream.tokens, ∀ u ∈ stream.tokens, t.span.stop = u.span.start →
    t.kind.IsBare → ¬u.kind.IsBare
  fault : ∀ e, stream.fault = some e ↔ ∃ before quote rest,
    lexicon.LeavesOpen (.ofText source) stream before quote rest ∧
      e = ⟨.unterminatedQuote quote, ⟨Text.size before, Text.size source⟩⟩

/-- **Nothing is lost, and every token is what its text makes it.** -/
theorem Lexicon.isDivision_read (lexicon : Lexicon) (source : Text) :
    lexicon.IsDivision source (lexicon.read (.ofText source)) := by
  have h := lexicon.divides_read (.ofText source)
  have hoffset (n : Nat) : (Fragment.ofText source).offset + n = n := Nat.zero_add n
  refine ⟨h.nonempty, h.ordered, fun t ht => ?_, fun before c after htext hcovers hfault => ?_,
    h.rebuilt, fun t ht => ?_, fun t ht u hu => h.apart ht hu, fun e => ?_⟩
  · rcases h.stands t ht with ⟨before, after, htext, -, -, hspan⟩
    have hslice : (Fragment.ofText source).slice t.span = t.lexeme :=
      Fragment.slice_of_text htext (by rw [hspan]) (by rw [hspan])
    simpa [Fragment.slice, Fragment.ofText] using hslice
  · rw [← hoffset (Text.size before)] at hcovers hfault
    exact h.gap htext hcovers hfault
  · rcases h.stands t ht with ⟨before, after, htext, -, hkind, hspan⟩
    exact ⟨before, after, htext, by rw [hspan, hoffset], hkind⟩
  · have hiff := h.fault_iff e
    simp only [Fragment.stop, hoffset] at hiff
    exact hiff

end QueryTemplate
