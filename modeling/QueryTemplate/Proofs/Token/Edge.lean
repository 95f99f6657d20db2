import QueryTemplate.Proofs.Token.Place

/-! # Tokens in front of the place where a token starts

Where a token starts, a text can be divided: what is in front of it is read as if nothing stood
behind, and what is behind as if nothing stood in front. A token that ends in the front part is the
same there, unless a word ends because a character makes a symbol with a brace behind the edge; but
then no token starts at the edge.
-/

namespace QueryTemplate

theorem Text.splitQuoted?_of_append {quote : Char} {t b inner after : Text}
    (h : splitQuoted? quote (t ++ b) = some (inner, after ++ b)) :
    splitQuoted? quote t = some (inner, after) := by
  have hlength {t inner : Text} (h : splitQuoted? quote (t ++ b) = some (inner, after ++ b)) :
      t = inner ++ after := by
    have happend := splitQuoted?_append h
    rw [← List.append_assoc] at happend
    exact List.append_cancel_right happend
  have hne {t inner after : Text} (h : splitQuoted? quote t = some (inner, after)) :
      inner ≠ [] := by
    rintro rfl
    cases getLast?_of_splitQuoted? h
  fun_induction splitQuoted? quote t generalizing inner with
  | case1 =>
    have hnil := (List.append_eq_nil_iff.1 (hlength h).symm).1
    exact absurd hnil (hne h)
  | case2 =>
    have ht := hlength h
    cases b with
    | nil => simpa [splitQuoted?] using h
    | cons d b =>
      by_cases hd : d = quote
      · simp only [List.cons_append, List.nil_append, splitQuoted?, if_pos hd, if_true] at h
        obtain ⟨⟨u, v⟩, -, huv⟩ := Option.map_eq_some_iff.1 h
        cases huv
        simp at ht
      · simp [splitQuoted?, hd] at h
        simp [h]
  | case3 c hc =>
    have ht := hlength h
    cases b with
    | nil => simp [splitQuoted?, hc] at h
    | cons d b =>
      simp only [List.cons_append, List.nil_append, splitQuoted?, if_neg hc] at h
      obtain ⟨⟨u, v⟩, hs, huv⟩ := Option.map_eq_some_iff.1 h
      cases huv
      simp [hne hs] at ht
  | case4 rest ih =>
    simp only [List.cons_append, splitQuoted?, if_true] at h
    obtain ⟨⟨u, v⟩, hs, huv⟩ := Option.map_eq_some_iff.1 h
    cases huv
    simp [ih hs]
  | case5 d rest hd =>
    simp only [List.cons_append, splitQuoted?, if_true, if_neg hd, Option.some.injEq,
      Prod.mk.injEq] at h
    obtain ⟨rfl, hafter⟩ := h
    rw [← List.cons_append] at hafter
    rw [List.append_cancel_right hafter]
  | case6 c d rest hc ih =>
    simp only [List.cons_append, splitQuoted?, if_neg hc] at h
    obtain ⟨⟨u, v⟩, hs, huv⟩ := Option.map_eq_some_iff.1 h
    cases huv
    simp [ih hs]

namespace Lexicon

variable {lexicon : Lexicon} {t b after : Text}

theorem symbol?_of_append {s : Symbol} (h : lexicon.symbol? (t ++ b) = some s)
    (hlength : s.text.length ≤ t.length) : lexicon.symbol? t = some s := by
  have hprefix := List.prefix_of_prefix_length_le (symbol?_isPrefix h) (List.prefix_append t b)
    hlength
  cases hfound : lexicon.symbol? t with
  | none =>
    have hnot := List.find?_eq_none.1 hfound s (List.mem_of_find?_eq_some h)
    exact absurd (List.isPrefixOf_iff_prefix.2 hprefix) hnot
  | some s' => rw [← h, symbol?_append hfound]

theorem splitWord_of_append {word : Text} (h : lexicon.splitWord (t ++ b) = (word, after ++ b))
    (hends : lexicon.endsWord after) : lexicon.splitWord t = (word, after) := by
  induction t generalizing word with
  | nil =>
    have happend := lexicon.splitWord_append b
    rw [List.nil_append] at h
    rw [h] at happend
    have hlength := congrArg List.length happend
    simp only [List.length_append] at hlength
    have hword : word = [] := List.length_eq_zero_iff.1 (by omega)
    have hafter : after = [] := List.length_eq_zero_iff.1 (by omega)
    rw [hword, hafter, splitWord]
  | cons c rest ih =>
    rw [List.cons_append, splitWord] at h
    by_cases hlong : lexicon.endsWord (c :: (rest ++ b))
    · rw [if_pos hlong] at h
      obtain ⟨rfl, hafter⟩ := Prod.mk.inj h
      rw [← List.cons_append] at hafter
      obtain rfl := List.append_cancel_right hafter
      rw [splitWord, if_pos hends]
    · rw [if_neg hlong] at h
      rcases hrest : lexicon.splitWord (rest ++ b) with ⟨inner, last⟩
      rw [hrest] at h
      cases h
      have hshort : ¬lexicon.endsWord (c :: rest) := fun hshort =>
        hlong (endsWord_append (List.cons_ne_nil c rest) hshort b)
      rw [splitWord, if_neg hshort, ih hrest]

theorem endsWord_splitWord (lexicon : Lexicon) (t : Text) :
    lexicon.endsWord (lexicon.splitWord t).2 := by
  induction t with
  | nil => rfl
  | cons c rest ih =>
    rw [splitWord]
    by_cases hends : lexicon.endsWord (c :: rest)
    · rwa [if_pos hends]
    · rwa [if_neg hends]

theorem endsWord_of_tokenAt {o : Nat} {c : Char} {rest word : Text} {t : Token} {later : Fragment}
    (h : lexicon.tokenAt o c rest = (.ok t, later)) (ht : t.kind = lexicon.wordKind word) :
    lexicon.endsWord later.text := by
  unfold tokenAt at h
  split at h
  · split at h
    · cases h
      unfold wordKind at ht
      split at ht <;> cases ht
    · cases h
  · split at h
    · cases h
      unfold wordKind at ht
      split at ht <;> cases ht
    · cases h
      exact lexicon.endsWord_splitWord rest

/-- A token that ends in front of `b` is read without `b` as well, if a word still ends there. -/
theorem tokenAt_of_append {o p : Nat} {c : Char} {rest : Text} {t : Token}
    (h : lexicon.tokenAt o c (rest ++ b) = (.ok t, ⟨p, after ++ b⟩))
    (hends : ∀ word, t.kind = lexicon.wordKind word → lexicon.endsWord after) :
    lexicon.tokenAt o c rest = (.ok t, ⟨p, after⟩) := by
  have hlexeme := (lexeme_of_tokenAt h).2.1
  rw [← List.append_assoc, ← List.cons_append] at hlexeme
  have hlexeme := List.append_cancel_right hlexeme
  unfold tokenAt at h ⊢
  by_cases hquote : lexicon.isQuote c
  · rw [if_pos hquote] at h ⊢
    split at h
    · rename_i inner last hs
      cases h
      rw [Text.splitQuoted?_of_append hs]
      rfl
    · cases h
  · rw [if_neg hquote] at h ⊢
    rw [← List.cons_append] at h
    split at h
    · rename_i s hs
      simp only [token, Prod.mk.injEq, Except.ok.injEq, Fragment.mk.injEq] at h
      obtain ⟨rfl, rfl, hafter⟩ := h
      have hlength := congrArg List.length hlexeme
      rw [List.length_append] at hlength
      rw [symbol?_of_append hs (by dsimp only at hlength; omega)]
      dsimp only at hlexeme ⊢
      rw [← hlexeme, List.drop_left]
      rfl
    · rename_i hs
      have hnone : lexicon.symbol? (c :: rest) = none := by
        cases hfound : lexicon.symbol? (c :: rest) with
        | none => rfl
        | some s =>
          rw [symbol?_append hfound b] at hs
          cases hs
      rcases hword : lexicon.splitWord (rest ++ b) with ⟨word, last⟩
      rw [hword] at h
      simp only [token, Prod.mk.injEq, Except.ok.injEq, Fragment.mk.injEq] at h
      obtain ⟨rfl, rfl, rfl⟩ := h
      rw [hnone]
      dsimp only
      rw [splitWord_of_append hword (hends _ rfl)]
      rfl

/-- Only a symbol across the edge can end a word in front of it that would go on otherwise. -/
theorem endsWord_of_append {o : Nat} {t : Token} (ht : t ∈ (lexicon.read ⟨o, after ++ b⟩).tokens)
    (hstart : t.span.start = o + Text.size after) (h : lexicon.endsWord (after ++ b)) :
    lexicon.endsWord after := by
  cases after with
  | nil => rfl
  | cons c rest =>
    by_contra hshort
    simp only [endsWord, Bool.or_eq_true, not_or, Bool.not_eq_true] at hshort
    obtain ⟨⟨hspace, hquote⟩, hsymbol⟩ := hshort
    simp only [List.cons_append, endsWord, hspace, hquote, Bool.false_or] at h
    obtain ⟨s, hs⟩ := Option.isSome_iff_exists.1 h
    have hlong : (c :: rest).length < s.text.length := by
      by_contra hle
      rw [← List.cons_append] at hs
      simp [symbol?_of_append hs (Nat.not_lt.1 hle)] at hsymbol
    have hsize : Text.size (c :: rest) < Text.size s.text := by
      obtain ⟨last, hlast⟩ := List.prefix_of_prefix_length_le
        (List.prefix_append (c :: rest) b) (symbol?_isPrefix hs) (Nat.le_of_lt hlong)
      have hne : last ≠ [] := by
        rintro rfl
        rw [← hlast, List.append_nil] at hlong
        exact Nat.lt_irrefl _ hlong
      rw [← hlast, Text.size_append]
      exact Nat.lt_add_of_pos_right (Text.size_pos hne)
    rw [List.cons_append, read_eq, next?, hspace, if_neg Bool.false_ne_true, tokenAt, hquote,
      if_neg Bool.false_ne_true, hs] at ht
    rcases List.mem_cons.1 ht with rfl | hlater
    · have hpos := Text.size_pos (List.cons_ne_nil c rest)
      dsimp only at hstart
      omega
    · have hle := (span_of_mem_read hlater).1
      dsimp only at hle
      omega

/-- White space alone stands in front of the first token. -/
theorem next?_eq_none_of_start {o : Nat} {t : Text} {first : Token} {later : Fragment}
    (h : lexicon.next? ⟨o, t ++ b⟩ = some (.ok first, later))
    (hstart : o + Text.size t ≤ first.span.start) : lexicon.next? ⟨o, t⟩ = none := by
  induction t generalizing o with
  | nil => rw [next?]
  | cons c rest ih =>
    rw [List.cons_append, next?] at h
    rw [next?]
    by_cases hc : Text.isSpace c
    · rw [if_pos hc] at h ⊢
      refine ih h ?_
      rw [Text.size_cons] at hstart
      omega
    · rw [if_neg hc] at h
      obtain ⟨hne, hlexeme, hspan, -⟩ := lexeme_of_tokenAt (Option.some.inj h)
      have hpos := Text.size_pos (List.cons_ne_nil c rest)
      rw [hspan] at hstart
      dsimp only at hstart
      omega

/-- The first token ends in front of the place where a later one starts, so it is read without what
stands behind that place. -/
theorem next?_of_append {o : Nat} {t : Text} {first u : Token} {later : Fragment}
    (h : lexicon.next? ⟨o, t ++ b⟩ = some (.ok first, later))
    (hu : u ∈ (lexicon.read later).tokens) (hstart : u.span.start = o + Text.size t) :
    ∃ after, later.text = after ++ b ∧ later.offset + Text.size after = o + Text.size t ∧
      lexicon.next? ⟨o, t⟩ = some (.ok first, ⟨later.offset, after⟩) := by
  induction t generalizing o with
  | nil =>
    have hspan := span_of_next? h
    have hle := (span_of_mem_read hu).1
    rw [Text.size_nil] at hstart
    dsimp only at hspan
    omega
  | cons c rest ih =>
    rw [List.cons_append, next?] at h
    rw [next?]
    by_cases hc : Text.isSpace c
    · rw [if_pos hc] at h ⊢
      have hsize := Text.size_cons c rest
      obtain ⟨after, htext, hoffset, hnext⟩ := ih h (by omega)
      exact ⟨after, htext, by omega, hnext⟩
    · rw [if_neg hc] at h ⊢
      have htoken := Option.some.inj h
      obtain ⟨hne, hlexeme, hspan, hoffset⟩ := lexeme_of_tokenAt htoken
      have hle := (span_of_mem_read hu).1
      obtain ⟨after, hafter⟩ : ∃ after, first.lexeme ++ after = c :: rest := by
        have hprefix : first.lexeme <+: c :: rest ++ b := ⟨later.text, hlexeme⟩
        rcases List.prefix_or_prefix_of_prefix hprefix (List.prefix_append (c :: rest) b) with h | h
        · exact h
        · obtain ⟨more, hmore⟩ := h
          cases more with
          | nil => exact ⟨[], by simpa using hmore.symm⟩
          | cons d more =>
            have hpos := Text.size_pos (List.cons_ne_nil d more)
            rw [hoffset, hstart, ← hmore, Text.size_append] at hle
            omega
      have htext : later.text = after ++ b := by
        rw [← List.cons_append, ← hafter, List.append_assoc] at hlexeme
        exact List.append_cancel_left hlexeme
      have hsum : later.offset + Text.size after = o + Text.size (c :: rest) := by
        rw [hoffset, ← hafter, Text.size_append, Nat.add_assoc]
      refine ⟨after, htext, hsum,
        congrArg some (tokenAt_of_append (b := b) ?_ fun word hword => ?_)⟩
      · rw [htoken, ← htext]
      · have hends := endsWord_of_tokenAt htoken hword
        rw [htext] at hends
        rw [show later = ⟨later.offset, after ++ b⟩ from htext ▸ rfl] at hu
        exact endsWord_of_append hu (hstart.trans hsum.symm) hends

/-- **Where a token starts, a text can be divided.** -/
theorem read_of_start {f : Fragment} {t : Token}
    (h : t ∈ (lexicon.read ⟨f.offset, f.text ++ b⟩).tokens) (ht : t.span.start = f.stop) :
    lexicon.read ⟨f.offset, f.text ++ b⟩ =
      ⟨(lexicon.read f).tokens ++ (lexicon.read ⟨f.stop, b⟩).tokens,
        (lexicon.read ⟨f.stop, b⟩).fault⟩ := by
  induction hn : f.text.length using Nat.strongRecOn generalizing f with
  | ind n ih =>
    cases hfull : lexicon.next? ⟨f.offset, f.text ++ b⟩ with
    | none =>
      rw [read_eq, hfull] at h
      cases h
    | some found =>
      rcases found with ⟨fault | first, later⟩
      · rw [read_eq, hfull] at h
        cases h
      · rw [read_eq, hfull] at h
        rcases List.mem_cons.1 h with rfl | hlater
        · have hnone := next?_eq_none_of_start hfull (Nat.le_of_eq ht.symm)
          have hnil : lexicon.read f = ⟨[], none⟩ := by rw [read_eq, hnone]
          rw [hnil, read_eq, next?_append_of_eq_none hnone, ← read_eq]
          rfl
        · obtain ⟨after, htext, hoffset, hnext⟩ := next?_of_append hfull hlater ht
          have hstop : Fragment.stop ⟨later.offset, after⟩ = f.stop := hoffset
          rw [show later = ⟨later.offset, after ++ b⟩ from htext ▸ rfl] at hfull hlater
          have hrest := ih _ (hn ▸ next?_length hnext) hlater (ht.trans hstop.symm) rfl
          rw [read_eq, hfull, read_eq lexicon f, hnext]
          dsimp only at hrest ⊢
          rw [hrest, hstop]
          rfl

end Lexicon

end QueryTemplate
