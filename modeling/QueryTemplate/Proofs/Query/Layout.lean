import QueryTemplate.Proofs.Query.Writing

/-! # The tokens of a written statement

Reading a statement that is laid out gives the tokens of its parts, part by part. A keyword, a
symbol, a word and a name are one token, a placeholder is three, and an argument is as many as it
has. What has been laid out is there as long as single blanks separate the parts.
-/

namespace QueryTemplate

/-- Whether tokens of a text are those of a part. -/
inductive StatementPart.Reads (source : Fragment) : StatementPart → List Token → Prop where
  | keyword {k : Keyword} {t : Token} : t.kind = .keyword k → Reads source (.keyword k) [t]
  | symbol {s : Symbol} {t : Token} : t.kind = .symbol s → Reads source (.symbol s) [t]
  | word {w : Text} {t : Token} : t.kind = .word → t.lexeme = w → Reads source (.word w) [t]
  | bare {n : Text} {t : Token} : t.kind = .word → t.lexeme = n →
    Reads source (.name (.bare n)) [t]
  | quoted {n : Text} {t : Token} : t.kind = .quoted '`' → t.name? = some n →
    Reads source (.name (.quoted n)) [t]
  | placeholder {sort : Placeholder} {n : Text} {first inner last : Token} :
    first.kind = .symbol sort.opener → inner.kind = .word → last.kind = .symbol .closeBrace →
    source.slice (first.span.merge last.span) = sort.text n →
    Reads source (.placeholder sort n) [first, inner, last]
  | argument {t : Text} {ts : List Token} : Balanced (ts.map Token.kind) →
    Reads source (.argument t) ts

/-- Whether tokens of a text are those of parts, one after the other. -/
inductive Stands (source : Fragment) : List StatementPart → List Token → Prop where
  | nil : Stands source [] []
  | cons {p : StatementPart} {ps : List StatementPart} {ts us : List Token} :
    p.Reads source ts → Stands source ps us → Stands source (p :: ps) (ts ++ us)

/-! ## Keywords in any case -/

theorem Text.isSpace_of_isAlpha {c : Char} (h : c.isAlpha) : isSpace c = false := by
  have hrange : 65 ≤ c.toNat ∧ c.toNat ≤ 122 := by
    have hcases : (decide (c.val ≥ 'A'.val ∧ c.val ≤ 'Z'.val) ||
        (decide (c.val ≥ 'a'.val) && decide (c.val ≤ 'z'.val))) = true := h
    simp only [Bool.or_eq_true, Bool.and_eq_true, decide_eq_true_eq, UInt32.le_iff_toNat_le,
      ge_iff_le, Char.toNat_val] at hcases
    simp at hcases
    omega
  rw [isSpace, inRanges, List.any_eq_false]
  intro range hmem
  have houtside : range.2 < 65 ∨ 122 < range.1 := by
    revert range
    decide
  simp
  omega

theorem Symbol.exists_not_isAlpha (s : Symbol) : ∃ c ∈ s.text, ¬c.isAlpha := by
  cases s <;> exact ⟨_, List.mem_cons_self .., by decide⟩

namespace Keyword

theorem isUpper_of_mem_text (k : Keyword) : ∀ c ∈ k.text, c.isUpper := by
  have hall : k.text.all Char.isUpper := by cases k <;> decide
  exact List.all_eq_true.1 hall

theorem isAlpha_of_isUpper_toUpper {c : Char} (h : c.toUpper.isUpper) : c.isAlpha := by
  have halpha : c.isAlpha = (c.isUpper || c.isLower) := rfl
  rw [halpha, Bool.or_eq_true]
  by_cases hlower : c.isLower
  · exact .inr hlower
  · have heq : c.toUpper = c := dif_neg fun hrange =>
      hlower (Bool.and_eq_true_iff.2 ⟨decide_eq_true hrange.1, decide_eq_true hrange.2⟩)
    exact .inl (heq ▸ h)

variable {k : Keyword} {word : Text}

theorem isAlpha_of_isSpelledBy (h : k.isSpelledBy word) : ∀ c ∈ word, c.isAlpha := by
  intro c hc
  refine isAlpha_of_isUpper_toUpper (k.isUpper_of_mem_text _ ?_)
  rw [eq_of_beq h]
  exact List.mem_map_of_mem hc

/-- A text that spells a keyword is a word. -/
theorem isWord_of_isSpelledBy (h : k.isSpelledBy word) : Lexicon.sql.IsWord word where
  ne_nil := by
    rintro rfl
    have hnil : k.text = [] := eq_of_beq h
    cases k <;> cases hnil
  space c hc := Text.isSpace_of_isAlpha (isAlpha_of_isSpelledBy h c hc)
  quote c hc := by
    have halpha := isAlpha_of_isSpelledBy h c hc
    refine decide_eq_false fun hquote => ?_
    have hnot : Lexicon.sql.quotes.all (!·.isAlpha) := by decide
    simpa [halpha] using List.all_eq_true.1 hnot c hquote
  symbol s _ hcontains := by
    obtain ⟨c, hc, hnot⟩ := s.exists_not_isAlpha
    exact hnot (isAlpha_of_isSpelledBy h c (hcontains.subset hc))

theorem keyword?_of_isSpelledBy (h : k.isSpelledBy word) : Lexicon.sql.keyword? word = some k := by
  cases hfound : Lexicon.sql.keyword? word with
  | none => exact absurd h (List.find?_eq_none.1 hfound k k.mem_all)
  | some k' =>
    have hspelled := List.find?_some (p := (isSpelledBy · word)) hfound
    rw [eq_of_text_eq ((eq_of_beq hspelled).trans (eq_of_beq h).symm)]

end Keyword

/-! ## Parts -/

theorem Symbol.read_sql (s : Symbol) (o : Nat) :
    Lexicon.sql.read ⟨o, s.text⟩ = ⟨[⟨.symbol s, s.text, ⟨o, o + Text.size s.text⟩⟩], none⟩ := by
  refine Lexicon.read_symbol s.mem_all (fun c hc => ?_) o
  cases s <;> cases hc <;> decide

theorem Symbol.read_append (s : Symbol) (o : Nat) (b : Text) :
    Lexicon.sql.read ⟨o, s.text ++ b⟩ =
      (Lexicon.sql.read ⟨o + Text.size s.text, b⟩).push
        ⟨.symbol s, s.text, ⟨o, o + Text.size s.text⟩⟩ :=
  Lexicon.read_append (s.read_sql o) (b := b) fun t ht => by cases ht; exact trivial

theorem IsPlainWord.read {word : Text} (h : IsPlainWord word) (o : Nat) :
    Lexicon.sql.read ⟨o, word⟩ = ⟨[⟨.word, word, ⟨o, o + Text.size word⟩⟩], none⟩ := by
  rw [h.isWord.read, Lexicon.wordKind, h.keyword]

theorem IsArgument.exists_read {t : Text} (h : IsArgument t) (o : Nat) :
    ∃ ts, Lexicon.sql.read ⟨o, t⟩ = ⟨ts, none⟩ ∧ Balanced (ts.map Token.kind) := by
  obtain ⟨ts, htokens, hbalanced⟩ := h
  obtain ⟨us, hread, hkinds⟩ := Lexicon.exists_read_of_tokenize htokens o
  exact ⟨us, hread, hkinds ▸ hbalanced⟩

namespace StatementPart

variable {source : Fragment} {before written after : Text}

theorem reads_placeholder (sort : Placeholder) {n : Text} (hn : IsPlainWord n)
    (h : source.text = before ++ (sort.text n ++ after)) :
    ∃ ts, Lexicon.sql.read ⟨source.offset + Text.size before, sort.text n⟩ = ⟨ts, none⟩ ∧
      Reads source (placeholder sort n) ts := by
  have hcloser : Lexicon.sql.Ends Symbol.closeBrace.text .word := ⟨by decide, by decide⟩
  have hinner := Lexicon.read_append
    (hn.read (source.offset + Text.size before + Text.size sort.opener.text))
    (b := Symbol.closeBrace.text) fun t ht => by cases ht; exact hcloser
  have hread := sort.opener.read_append (source.offset + Text.size before)
    (n ++ Symbol.closeBrace.text)
  dsimp only [Fragment.stop] at hinner
  rw [Symbol.read_sql] at hinner
  rw [hinner, ← List.append_assoc] at hread
  refine ⟨_, hread, .placeholder rfl rfl rfl (Fragment.slice_of_text h ?_ ?_)⟩
  · simp only [Span.merge]
    omega
  · simp only [Span.merge, Placeholder.text, Text.size_append]
    omega

/-- A part that is written somewhere in a text reads as its tokens there. -/
theorem exists_reads {p : StatementPart} (hp : p.IsWellFormed) (hw : p.IsWritten written)
    (h : source.text = before ++ (written ++ after)) :
    ∃ ts, Lexicon.sql.read ⟨source.offset + Text.size before, written⟩ = ⟨ts, none⟩ ∧
      p.Reads source ts := by
  cases p with
  | keyword k =>
    have hread := (Keyword.isWord_of_isSpelledBy hw).read (source.offset + Text.size before)
    rw [Lexicon.wordKind, Keyword.keyword?_of_isSpelledBy hw] at hread
    exact ⟨_, hread, .keyword rfl⟩
  | symbol s =>
    obtain rfl : written = s.text := hw
    exact ⟨_, s.read_sql _, .symbol rfl⟩
  | word w =>
    obtain rfl : written = w := hw
    exact ⟨_, IsPlainWord.read hp _, .word rfl rfl⟩
  | name n =>
    obtain rfl : written = n.text := hw
    cases n with
    | bare n => exact ⟨_, IsPlainWord.read hp.1 _, .bare rfl rfl⟩
    | quoted n =>
      have hquote : Lexicon.sql.isQuote '`' := by decide
      have hread := Lexicon.sql.read_quoted hquote (by decide) hp.2
        (source.offset + Text.size before)
      refine ⟨_, hread, .quoted rfl ?_⟩
      simp [Token.name?, Token.unquote?]
  | placeholder sort n =>
    obtain rfl : written = sort.text n := hw
    exact reads_placeholder sort hp h
  | argument t =>
    obtain rfl : written = t := hw
    obtain ⟨us, hread, hbalanced⟩ := IsArgument.exists_read hp (source.offset + Text.size before)
    exact ⟨us, hread, .argument hbalanced⟩

theorem isWritten_print (p : StatementPart) : p.IsWritten p.print := by
  cases p with
  | keyword k =>
    have hspelled : k.isSpelledBy k.text := by cases k <;> decide
    exact hspelled
  | _ => rfl

end StatementPart

/-! ## Groups -/

namespace Query

theorem closingParen?_cons (depth : Nat) (t : Token) (rest : List Token) :
    closingParen? depth (t :: rest) = match t.kind with
      | .symbol .openParen => closingParen? (depth + 1) rest
      | .symbol .closeParen =>
        match depth with
        | 0 => some (t.span, rest)
        | depth + 1 => closingParen? depth rest
      | _ => closingParen? depth rest :=
  rfl

/-- What parentheses that pair hold is passed over. -/
theorem closingParen?_append {us : List Token} (h : Balanced (us.map Token.kind)) (depth : Nat)
    (vs : List Token) : closingParen? depth (us ++ vs) = closingParen? depth vs := by
  generalize hks : us.map Token.kind = ks at h
  induction h generalizing us vs depth with
  | nil =>
    obtain rfl : us = [] := List.map_eq_nil_iff.1 hks
    rfl
  | other hopen hclose _ ih =>
    obtain ⟨t, us, rfl, rfl, hus⟩ := List.map_eq_cons_iff.1 hks
    rw [List.cons_append, closingParen?_cons]
    split
    · contradiction
    · contradiction
    · exact ih depth vs hus
  | group _ _ ihInner ihRest =>
    obtain ⟨t, us, rfl, ht, hus⟩ := List.map_eq_cons_iff.1 hks
    obtain ⟨inner, us, rfl, hinner, hus⟩ := List.map_eq_append_iff.1 hus
    obtain ⟨u, us, rfl, hu, hus⟩ := List.map_eq_cons_iff.1 hus
    rw [List.cons_append, closingParen?_cons, ht]
    dsimp only
    rw [List.append_assoc, ihInner _ _ hinner, List.cons_append, closingParen?_cons, hu]
    exact ihRest depth vs hus

end Query

/-! ## Layouts -/

/-- Parts that are laid out read as their tokens, wherever that is in a text. -/
theorem exists_stands {source : Fragment} {ps : List StatementPart} {t : Text}
    (h : Laid ps t) (hps : ∀ p ∈ ps, p.IsWellFormed) (before : Text)
    (ht : source.text = before ++ t) :
    ∃ ts, Lexicon.sql.read ⟨source.offset + Text.size before, t⟩ = ⟨ts, none⟩ ∧
      Stands source ps ts := by
  induction h generalizing before with
  | nil hspace => exact ⟨[], Lexicon.sql.read_of_isBlank hspace _, .nil⟩
  | @cons space written rest p ps hspace hw hapart _ ih =>
    obtain ⟨hp, hrest⟩ := List.forall_mem_cons.1 hps
    have htext : source.text = before ++ space ++ (written ++ rest) := by
      rw [ht, List.append_assoc]
    obtain ⟨ts, hts, hreads⟩ := StatementPart.exists_reads hp hw htext
    obtain ⟨us, hus, hstands⟩ := ih hrest (before ++ space ++ written) <| by
      rw [htext, ← List.append_assoc]
    have hlast := Lexicon.ends_of_apart
      (f := ⟨source.offset + Text.size (before ++ space), written⟩) hapart
    rw [hts] at hlast
    have hread := Lexicon.read_append hts hlast
    have hspaced := Lexicon.read_append (b := written ++ rest)
      (Lexicon.sql.read_of_isBlank hspace (source.offset + Text.size before)) (by simp)
    refine ⟨ts ++ us, ?_, .cons hreads hstands⟩
    dsimp only [Fragment.stop] at hread hspaced
    rw [Nat.add_assoc, ← Text.size_append] at hread hspaced
    rw [hus] at hread
    rw [hspaced, hread]
    rfl

theorem stands_of_laid {source : Fragment} {ps : List StatementPart} (h : Laid ps source.text)
    (hps : ∀ p ∈ ps, p.IsWellFormed) :
    ∃ ts, Lexicon.sql.read source = ⟨ts, none⟩ ∧ Stands source ps ts :=
  exists_stands h hps [] rfl

/-- Nothing runs on into a symbol. -/
theorem Lexicon.ends_symbol (s : Symbol) (b : Text) {f : Fragment} {t : Token}
    (ht : t ∈ (Lexicon.sql.read f).tokens) : Lexicon.sql.Ends (s.text ++ b) t.kind := by
  have hends : Lexicon.sql.endsWord (s.text ++ b) := by
    refine Lexicon.endsWord_append s.text_ne_nil ?_ b
    cases s <;> decide
  have hbrace : (s.text ++ b).head? ≠ some '\x7b' := by
    cases s <;> simp [Symbol.text]
  cases hkind : t.kind with
  | symbol s => trivial
  | quoted quote =>
    have hquote := Lexicon.isQuote_of_mem_read ht hkind
    rintro hhead
    cases s <;> cases hhead <;> cases hquote
  | keyword k => exact ⟨hends, hbrace⟩
  | word => exact ⟨hends, hbrace⟩

/-- Nothing runs on into a blank or over the end. -/
theorem Lexicon.apart_of_head? {t b : Text} (h : ∀ c ∈ b.head?, c = ' ') :
    Lexicon.sql.Apart t b := by
  rintro ⟨kind, lexeme, span⟩ hlast
  have hends : Lexicon.sql.endsWord b ∧ b.head? ≠ some '\x7b' := by
    cases b with
    | nil => exact ⟨rfl, by simp⟩
    | cons c b =>
      obtain rfl := h c rfl
      exact ⟨rfl, by simp⟩
  cases kind with
  | keyword _ => exact hends
  | word => exact hends
  | symbol _ => exact trivial
  | quoted quote =>
    intro hquote
    obtain rfl := h quote hquote
    have hmem := List.mem_of_getLast? (Option.mem_def.1 hlast)
    exact absurd (Lexicon.isQuote_of_mem_read hmem rfl) (by decide)

theorem Laid.blank {ps : List StatementPart} {t : Text} (h : Laid ps t) : Laid ps (' ' :: t) := by
  cases h with
  | nil hspace => exact .nil hspace
  | @cons space _ _ _ _ hspace hw hapart hrest =>
    have hblank : Text.isBlank (' ' :: space) := hspace
    exact .cons hblank hw hapart hrest

/-- Parts with single blanks in between are laid out. -/
theorem laid_intercalate_print (ps : List StatementPart) :
    Laid ps ([' '].intercalate (ps.map StatementPart.print)) := by
  induction ps with
  | nil => exact .nil rfl
  | cons p ps ih =>
    cases ps with
    | nil =>
      have hlast : Laid [p] ([] ++ (p.print ++ [])) :=
        .cons rfl p.isWritten_print (Lexicon.apart_of_head? (by simp)) (.nil rfl)
      simpa using hlast
    | cons q ps =>
      have hrest : Laid (q :: ps) (' ' :: [' '].intercalate ((q :: ps).map StatementPart.print)) :=
        ih.blank
      have hlaid : Laid (p :: q :: ps) ([] ++ (p.print ++ _)) :=
        .cons rfl p.isWritten_print (Lexicon.apart_of_head? (by simp)) hrest
      simpa [List.intercalate_cons_cons] using hlaid

end QueryTemplate
