import QueryTemplate.Proofs.Rewording.Basic

/-! # Texts in which a word is changed

Where a word is a token of a text, the text is read part by part: in front of the word, the word,
and behind it. So is the text with another token in its place, unless that runs on.
-/

namespace QueryTemplate

namespace Lexicon

variable {lexicon : Lexicon}

/-- A token that starts where a text starts is the first one. -/
theorem exists_tokenAt_of_start {f : Fragment} {t : Token} (h : t ∈ (lexicon.read f).tokens)
    (hstart : t.span.start = f.offset) :
    ∃ c rest after, f.text = c :: rest ∧ Text.isSpace c = false ∧
      lexicon.tokenAt f.offset c rest = (.ok t, after) ∧
      lexicon.read f = ⟨t :: (lexicon.read after).tokens, (lexicon.read after).fault⟩ := by
  have hread := lexicon.read_eq f
  rcases hnext : lexicon.next? f with _ | ⟨fault | first, after⟩
  · rw [hread, hnext] at h
    cases h
  · rw [hread, hnext] at h
    cases h
  · rw [hnext] at hread
    rw [hread] at h
    obtain ⟨hle, hlt, hoffset⟩ := span_of_next? hnext
    have hfirst : t = first := by
      rcases List.mem_cons.1 h with rfl | hlater
      · rfl
      · have hbehind := (span_of_mem_read hlater).1
        omega
    subst hfirst
    obtain ⟨o, text⟩ := f
    cases text with
    | nil =>
      rw [next?] at hnext
      cases hnext
    | cons c rest =>
      rw [next?] at hnext
      split at hnext
      · have hspace := (span_of_next? hnext).1
        have hpos := c.utf8Size_pos
        dsimp only at hspace hstart
        omega
      · rename_i hc
        exact ⟨c, rest, after, rfl, Bool.not_eq_true _ ▸ hc, Option.some.inj hnext, hread⟩

theorem wordKind_cases (lexicon : Lexicon) (word : Text) :
    lexicon.wordKind word = .word ∨ ∃ k, lexicon.wordKind word = .keyword k := by
  rw [wordKind]
  split
  · exact .inr ⟨_, rfl⟩
  · exact .inl rfl

/-- A word or keyword at the beginning of a text is read, and then the text behind it. -/
theorem read_of_word {o : Nat} {word behind : Text}
    (h : ⟨lexicon.wordKind word, word, ⟨o, o + Text.size word⟩⟩ ∈
      (lexicon.read ⟨o, word ++ behind⟩).tokens) :
    lexicon.IsWord word ∧ lexicon.endsWord behind ∧
      lexicon.read ⟨o, word ++ behind⟩ =
        ⟨⟨lexicon.wordKind word, word, ⟨o, o + Text.size word⟩⟩ ::
          (lexicon.read ⟨o + Text.size word, behind⟩).tokens,
          (lexicon.read ⟨o + Text.size word, behind⟩).fault⟩ := by
  obtain ⟨c, rest, after, htext, hc, htoken, hread⟩ := exists_tokenAt_of_start h rfl
  obtain ⟨-, happend, -, hoffset⟩ := lexeme_of_tokenAt htoken
  have hafter : after = ⟨o + Text.size word, behind⟩ := by
    obtain ⟨p, text⟩ := after
    have htext : word ++ text = word ++ behind := happend.trans htext.symm
    obtain rfl := List.append_cancel_left htext
    rw [show p = o + Text.size word from hoffset]
  subst hafter
  rcases cases_of_tokenAt htoken with ⟨-, hkind, -⟩ | ⟨-, s, -, hkind, -⟩ |
    ⟨hquote, -, -, hlexeme, hbehind⟩
  · rcases lexicon.wordKind_cases word with hword | ⟨k, hword⟩ <;> cases hword.symm.trans hkind
  · rcases lexicon.wordKind_cases word with hword | ⟨k, hword⟩ <;> cases hword.symm.trans hkind
  · dsimp only at hlexeme hbehind
    refine ⟨⟨by simp [hlexeme], ?_, ?_, fun s hs => ?_⟩, ?_, hread⟩
    · rw [hlexeme]
      exact List.forall_mem_cons.2 ⟨hc, fun d hd => not_isSpace_of_mem_splitWord hd⟩
    · rw [hlexeme]
      exact List.forall_mem_cons.2
        ⟨Bool.not_eq_true _ ▸ hquote, fun d hd => not_isQuote_of_mem_splitWord hd⟩
    · rcases lexicon.wordKind_cases word with hword | ⟨k, hword⟩ <;>
        exact not_isInfix_of_tokenAt htoken (by simp [hword]) (by simp [hword]) hs
    · exact hbehind ▸ lexicon.endsWord_splitWord rest

/-- What ends a word does not make a symbol with the character in front of it. -/
theorem ends_of_endsWord {behind : Text} (h : sql.endsWord behind) : sql.Ends behind .word := by
  refine ⟨h, fun hbrace => ?_⟩
  cases behind with
  | nil => cases hbrace
  | cons c rest =>
    obtain rfl : c = '\x7b' := Option.some.inj hbrace
    have hgoes : sql.endsWord ('\x7b' :: rest) = false := rfl
    rw [hgoes] at h
    cases h

end Lexicon

namespace Rewording

variable {R : Rewording}

/-- The old token is a word or a keyword of its text. -/
structure IsWritten (R : Rewording) : Prop where
  kind : R.kind = Lexicon.sql.wordKind R.word
  word : R.old ∈ (Lexicon.sql.read (.ofText (R.write R.word))).tokens

theorem label_old (h : R.kind = Lexicon.sql.wordKind R.word) : R.old.label = R.word := by
  rcases Lexicon.sql.wordKind_cases R.word with hword | ⟨k, hk⟩
  · simp [old, Token.label, Token.name?, h.trans hword]
  · simp [old, Token.label, Token.name?, h.trans hk]

namespace IsWritten

variable (hR : R.IsWritten)
include hR

theorem fault : (Lexicon.sql.read (.ofText R.before)).fault = none :=
  Lexicon.fault_eq_none_of_start (f := .ofText R.before) hR.word (Nat.zero_add _).symm

theorem read_start : Lexicon.sql.read (.ofText (R.write R.word)) =
    ⟨R.lead ++ (Lexicon.sql.read ⟨R.start, R.word ++ R.behind⟩).tokens,
      (Lexicon.sql.read ⟨R.start, R.word ++ R.behind⟩).fault⟩ := by
  have hread := Lexicon.read_of_start (f := .ofText R.before) hR.word (Nat.zero_add _).symm
  rwa [show Fragment.stop (.ofText R.before) = R.start from Nat.zero_add _] at hread

/-- The word as the first one of the text from there on. -/
theorem mem_behind :
    ⟨Lexicon.sql.wordKind R.word, R.word, ⟨R.start, R.start + Text.size R.word⟩⟩ ∈
      (Lexicon.sql.read ⟨R.start, R.word ++ R.behind⟩).tokens := by
  have hword := hR.word
  have hlt : R.start < R.stop R.word := (Lexicon.span_of_mem_read hword).2.1
  rw [hR.read_start] at hword
  have hold : R.old =
      ⟨Lexicon.sql.wordKind R.word, R.word, ⟨R.start, R.start + Text.size R.word⟩⟩ := by
    rw [old, hR.kind, stop]
  rcases List.mem_append.1 hword with hlead | hbehind
  · exact absurd hlt (Nat.not_lt.2 (span_of_mem_lead hlead).2)
  · exact hold ▸ hbehind

theorem isWord : Lexicon.sql.IsWord R.word := (Lexicon.read_of_word hR.mem_behind).1

theorem ends : Lexicon.sql.Ends R.behind .word :=
  Lexicon.ends_of_endsWord (Lexicon.read_of_word hR.mem_behind).2.1

/-- Another token takes the place of the word if it is a token by itself and neither the token in
front of it nor itself runs on. -/
theorem isRead
    (hnew : Lexicon.sql.read ⟨R.start, R.word'⟩ = ⟨[R.new], none⟩)
    (hbefore : ∀ last ∈ R.lead.getLast?, last.span.stop = R.start →
      Lexicon.sql.Ends (R.word' ++ R.behind) last.kind)
    (hbehind : Lexicon.sql.Ends R.behind R.kind') : R.IsRead where
  fault := hR.fault
  old := by
    rw [hR.read_start, (Lexicon.read_of_word hR.mem_behind).2.2, old, hR.kind]
    rfl
  new := by
    have hstop : Fragment.stop (.ofText R.before) = R.start := Nat.zero_add _
    have hlead : Lexicon.sql.read (.ofText R.before) = ⟨R.lead, none⟩ := by rw [← hR.fault]; rfl
    have hlast : ∀ last ∈ [R.new].getLast?, Lexicon.sql.Ends R.behind last.kind := by
      rintro _ ⟨⟩
      exact hbehind
    refine (Lexicon.read_append_of_stop hlead (hstop ▸ hbefore)).trans ?_
    rw [hstop, Lexicon.read_append hnew hlast]
    rfl

end IsWritten

end Rewording

end QueryTemplate
