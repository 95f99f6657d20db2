import QueryTemplate.Proofs.Text.Slice
import QueryTemplate.Proofs.Token.Spacing

/-! # Where tokens stand

A token is read at the place where it stands: it takes a stretch of the text for itself, and no
token starts inside a quote that is open. A symbol stands in a token only if the token is that
symbol or quoted.
-/

namespace QueryTemplate

theorem Text.exists_of_splitQuoted?_eq_none {quote : Char} {t b inner after : Text}
    (h : splitQuoted? quote t = none) (hb : splitQuoted? quote (t ++ b) = some (inner, after)) :
    ∃ extra, extra ≠ [] ∧ inner = t ++ extra := by
  have hne {t inner after : Text} (h : splitQuoted? quote t = some (inner, after)) :
      inner ≠ [] := by
    rintro rfl
    cases Text.getLast?_of_splitQuoted? h
  fun_induction splitQuoted? quote t generalizing inner with
  | case1 => exact ⟨inner, hne hb, rfl⟩
  | case2 => cases h
  | case3 c hc =>
    cases b with
    | nil => simp [splitQuoted?, hc] at hb
    | cons d b =>
      rw [List.cons_append, List.nil_append, splitQuoted?, if_neg hc] at hb
      obtain ⟨⟨u, v⟩, hs, huv⟩ := Option.map_eq_some_iff.1 hb
      cases huv
      exact ⟨u, hne hs, rfl⟩
  | case4 rest ih =>
    rw [List.cons_append, List.cons_append, splitQuoted?, if_pos rfl, if_pos rfl] at hb
    obtain ⟨⟨u, v⟩, hs, huv⟩ := Option.map_eq_some_iff.1 hb
    cases huv
    obtain ⟨extra, hextra, rfl⟩ := ih (Option.map_eq_none_iff.1 h) hs
    exact ⟨extra, hextra, rfl⟩
  | case5 => cases h
  | case6 c d rest hc ih =>
    rw [List.cons_append, List.cons_append, splitQuoted?, if_neg hc] at hb
    obtain ⟨⟨u, v⟩, hs, huv⟩ := Option.map_eq_some_iff.1 hb
    cases huv
    obtain ⟨extra, hextra, rfl⟩ := ih (Option.map_eq_none_iff.1 h) hs
    exact ⟨extra, hextra, rfl⟩

namespace Lexicon

variable {lexicon : Lexicon} {f after : Fragment} {t : Token}

theorem lexeme_of_tokenAt {o : Nat} {c : Char} {rest : Text}
    (h : lexicon.tokenAt o c rest = (.ok t, after)) :
    t.lexeme ≠ [] ∧ t.lexeme ++ after.text = c :: rest ∧
      t.span = ⟨o, o + Text.size t.lexeme⟩ ∧ after.offset = o + Text.size t.lexeme := by
  unfold tokenAt at h
  split at h
  · split at h
    · rename_i hs
      cases h
      exact ⟨by simp, by rw [Text.splitQuoted?_append hs]; rfl, rfl, rfl⟩
    · cases h
  · split at h
    · rename_i s hs
      cases h
      obtain ⟨last, hlast⟩ := symbol?_isPrefix hs
      exact ⟨s.text_ne_nil, by rw [← hlast, List.drop_left], rfl, rfl⟩
    · cases h
      exact ⟨by simp, congrArg (c :: ·) (lexicon.splitWord_append rest), rfl, rfl⟩

theorem exists_tokenAt_of_next? (h : lexicon.next? f = some (.ok t, after)) :
    ∃ o c rest, lexicon.tokenAt o c rest = (.ok t, after) ∧ f.offset ≤ o := by
  fun_induction next? lexicon f with
  | case1 => cases h
  | case2 o c rest _ ih =>
    obtain ⟨o', c', rest', htoken, hle⟩ := ih h
    exact ⟨o', c', rest', htoken, Nat.le_of_add_right_le hle⟩
  | case3 o c rest _ => exact ⟨o, c, rest, Option.some.inj h, Nat.le_refl _⟩

theorem span_of_next? (h : lexicon.next? f = some (.ok t, after)) :
    f.offset ≤ t.span.start ∧ t.span.start < t.span.stop ∧ t.span.stop = after.offset := by
  obtain ⟨o, c, rest, htoken, hle⟩ := exists_tokenAt_of_next? h
  obtain ⟨hne, -, hspan, hoffset⟩ := lexeme_of_tokenAt htoken
  have hpos := Text.size_pos hne
  rw [hspan, hoffset]
  exact ⟨hle, Nat.lt_add_of_pos_right hpos, rfl⟩

/-- Every token of a text is the token at the place where it is read. -/
theorem exists_tokenAt_of_mem_read (h : t ∈ (lexicon.read f).tokens) :
    ∃ o c rest after, lexicon.tokenAt o c rest = (.ok t, after) := by
  induction hn : f.text.length using Nat.strongRecOn generalizing f with
  | ind n ih =>
    rw [read_eq] at h
    split at h
    · cases h
    · cases h
    · rename_i first after hnext
      rcases List.mem_cons.1 h with rfl | hlater
      · obtain ⟨o, c, rest, htoken, -⟩ := exists_tokenAt_of_next? hnext
        exact ⟨o, c, rest, after, htoken⟩
      · exact ih _ (hn ▸ next?_length hnext) hlater rfl

/-- Every token of a text has a place of its own in it. -/
theorem span_of_mem_read (h : t ∈ (lexicon.read f).tokens) :
    f.offset ≤ t.span.start ∧ t.span.start < t.span.stop ∧ t.span.stop ≤ f.stop := by
  induction hn : f.text.length using Nat.strongRecOn generalizing f with
  | ind n ih =>
    rw [read_eq] at h
    split at h
    · cases h
    · cases h
    · rename_i first after hnext
      obtain ⟨hle, hlt, hoffset⟩ := span_of_next? hnext
      have hstop := stop_of_next? hnext
      rcases List.mem_cons.1 h with rfl | hlater
      · exact ⟨hle, hlt, by rw [hoffset, ← hstop]; exact Nat.le_add_right ..⟩
      · obtain ⟨hle', hlt', hstop'⟩ := ih _ (hn ▸ next?_length hnext) hlater rfl
        exact ⟨by omega, hlt', hstop ▸ hstop'⟩

/-- No token starts behind an open quote where the text that leaves it open ends. -/
theorem start_ne_of_next?_error {e : LexicalFault} (h : lexicon.next? f = some (.error e, after))
    {b : Text} (ht : t ∈ (lexicon.read ⟨f.offset, f.text ++ b⟩).tokens) :
    t.span.start ≠ f.stop := by
  fun_induction next? lexicon f with
  | case1 => cases h
  | case2 o c rest hc ih =>
    rw [List.cons_append, read_eq, next?, if_pos hc, ← read_eq] at ht
    simpa [Fragment.stop, Nat.add_assoc] using ih h ht
  | case3 o c rest hc =>
    have hstop : Fragment.stop ⟨o, c :: rest⟩ = o + (c.utf8Size + Text.size rest) := rfl
    have htoken := Option.some.inj h
    unfold tokenAt at htoken
    split at htoken
    · rename_i hquote
      split at htoken
      · cases htoken
      · rename_i hs
        rw [List.cons_append, read_eq, next?, if_neg hc, tokenAt, if_pos hquote] at ht
        split at ht
        · cases ht
        · cases ht
        · rename_i first last hfirst
          split at hfirst
          · rename_i inner last hinner
            obtain ⟨extra, hextra, rfl⟩ := Text.exists_of_splitQuoted?_eq_none hs hinner
            have hpos := Text.size_pos hextra
            cases hfirst
            rcases List.mem_cons.1 ht with rfl | hlater
            · have hc := c.utf8Size_pos
              rw [hstop]
              dsimp only
              omega
            · have hle := (span_of_mem_read hlater).1
              simp only [Text.size_cons, Text.size_append] at hle
              omega
          · cases hfirst
    · split at htoken <;> cases htoken

/-- A text where another token starts at its end leaves no quote open. -/
theorem fault_eq_none_of_start {b : Text}
    (h : t ∈ (lexicon.read ⟨f.offset, f.text ++ b⟩).tokens) (ht : t.span.start = f.stop) :
    (lexicon.read f).fault = none := by
  induction hn : f.text.length using Nat.strongRecOn generalizing f with
  | ind n ih =>
    rw [read_eq lexicon f]
    split
    · rfl
    · rename_i hnext
      exact absurd ht (start_ne_of_next?_error hnext h)
    · rename_i first after hnext
      change (lexicon.read after).fault = none
      have hstop := stop_of_next? hnext
      by_cases hafter : after.text = []
      · rw [read_eq, show after = ⟨after.offset, []⟩ from hafter ▸ rfl, next?]
      · rw [read_eq, next?_append hnext fun hnil => absurd hnil hafter] at h
        obtain ⟨-, hlt, hoffset⟩ := span_of_next? hnext
        rcases List.mem_cons.1 h with rfl | hlater
        · have hle : after.offset ≤ after.stop := Nat.le_add_right ..
          omega
        · exact ih _ (hn ▸ next?_length hnext) hlater (ht.trans hstop.symm) rfl

/-! ## Symbols in tokens -/

theorem not_isInfix_splitWord {s : Symbol} (hs : s ∈ lexicon.symbols) (rest : Text) :
    ¬s.text <:+: (lexicon.splitWord rest).1 := by
  induction rest with
  | nil => exact fun h => s.text_ne_nil (List.infix_nil.1 h)
  | cons c rest ih =>
    rw [splitWord]
    split_ifs with hends
    · exact fun h => s.text_ne_nil (List.infix_nil.1 h)
    · intro h
      rcases List.infix_cons_iff.1 h with hprefix | hlater
      · have hlong : s.text <+: c :: rest := by
          rw [← lexicon.splitWord_append rest]
          exact hprefix.trans (List.prefix_append (c :: _) _)
        simp only [endsWord, Bool.or_eq_true, not_or, Option.isSome_iff_ne_none, ne_eq,
          not_not] at hends
        exact List.find?_eq_none.1 hends.2 s hs (List.isPrefixOf_iff_prefix.2 hlong)
      · exact ih hlater

theorem not_isQuote_of_mem_splitWord {t : Text} {c : Char} (h : c ∈ (lexicon.splitWord t).1) :
    lexicon.isQuote c = false := by
  induction t with
  | nil => cases h
  | cons d rest ih =>
    rw [splitWord] at h
    split_ifs at h with hends
    · cases h
    · rcases List.mem_cons.1 h with rfl | hlater
      · simp only [endsWord, Bool.or_eq_true, not_or, Bool.not_eq_true] at hends
        exact hends.1.2
      · exact ih hlater

/-- A word is what is read as one word. -/
theorem isWord_iff {word : Text} :
    lexicon.IsWord word ↔ !word.isEmpty && (lexicon.splitWord word).2.isEmpty := by
  rw [Bool.and_eq_true, Bool.not_eq_true', List.isEmpty_eq_false_iff, List.isEmpty_iff]
  constructor
  · intro h
    rw [h.splitWord_eq List.suffix_rfl]
    exact ⟨h.ne_nil, rfl⟩
  · rintro ⟨hne, hafter⟩
    have hword : (lexicon.splitWord word).1 = word := by
      have happend := lexicon.splitWord_append word
      rwa [hafter, List.append_nil] at happend
    refine ⟨hne, fun c hc => ?_, fun c hc => ?_, fun s hs => ?_⟩
    · exact not_isSpace_of_mem_splitWord (hword.symm ▸ hc)
    · exact not_isQuote_of_mem_splitWord (hword.symm ▸ hc)
    · exact hword ▸ not_isInfix_splitWord hs word

instance {word : Text} : Decidable (lexicon.IsWord word) :=
  decidable_of_iff _ isWord_iff.symm

theorem lexeme_of_symbol {o : Nat} {c : Char} {rest : Text} {s : Symbol}
    (h : lexicon.tokenAt o c rest = (.ok t, after)) (hs : t.kind = .symbol s) :
    t.lexeme = s.text := by
  unfold tokenAt at h
  split at h
  · split at h
    · cases h
      cases hs
    · cases h
  · split at h
    · cases h
      cases hs
      rfl
    · cases h
      unfold wordKind at hs
      split at hs <;> cases hs

/-- Only quoted texts and symbols have symbols in them. -/
theorem not_isInfix_of_tokenAt {o : Nat} {c : Char} {rest : Text}
    (h : lexicon.tokenAt o c rest = (.ok t, after)) (hquoted : ∀ quote, t.kind ≠ .quoted quote)
    (hsymbol : ∀ s, t.kind ≠ .symbol s) {s : Symbol} (hs : s ∈ lexicon.symbols) :
    ¬s.text <:+: t.lexeme := by
  unfold tokenAt at h
  split at h
  · split at h
    · cases h
      exact absurd rfl (hquoted c)
    · cases h
  · split at h
    · rename_i s' _
      cases h
      exact absurd rfl (hsymbol s')
    · rename_i hnone
      cases h
      intro hcontains
      rcases List.infix_cons_iff.1 hcontains with hprefix | hlater
      · have hlong : s.text <+: c :: rest := by
          rw [← lexicon.splitWord_append rest]
          exact hprefix.trans (List.prefix_append (c :: _) _)
        exact List.find?_eq_none.1 hnone s hs (List.isPrefixOf_iff_prefix.2 hlong)
      · exact not_isInfix_splitWord hs rest hlater

end Lexicon

end QueryTemplate
