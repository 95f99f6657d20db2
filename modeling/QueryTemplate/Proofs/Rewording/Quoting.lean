import QueryTemplate.Proofs.Rewording.Reading
import QueryTemplate.Proofs.Rewording.Shape

/-! # Quoting a name

A word that names a column, a qualifier, a table or an alias may be written between backquotes. The
words that it makes a difference for are literals, the names of functions, the quantifier in front
of the select list, words in placeholders, keywords that are used as such, and the first reference
to a column inside a call: the call looks for a bare word.
-/

namespace QueryTemplate

namespace Rewording

/-- A word in a query text, with the same word between backquotes in its place. -/
def quote (before word behind : Text) : Rewording :=
  ⟨before, Lexicon.sql.wordKind word, word, .quoted '`', '`' :: (word ++ ['`']), behind⟩

/-- The word is neither in a literal or a placeholder nor the name of a function, it does not stand
in front of all fields, and no call takes it for the first word of its column. A keyword gives a
name behind a qualifier's dot, in a field or in the name of a table, or it is one that a column may
begin with and stands at the beginning of a field. -/
structure IsName (R : Rewording) (s : QueryShape) : Prop where
  field : ∀ f ∈ s.fields, f.isVerbatim → ¬R.Holds f.span
  table : ∀ t ∈ s.tables, t.isVerbatim → ¬R.Holds t.span
  function : ∀ f ∈ s.fields, f.span.start = R.start →
    ¬(R.tail R.word).head?.any fun t => t.isSymbol .openParen
  select : ∃ f ∈ s.fields, f.span.start ≤ R.start
  reference : ∀ f ∈ s.fields, ¬R.Refers f
  keyword : R.kind ≠ .word →
    (Query.isQualified R.lead ∧
      ((∃ f ∈ s.fields, R.Holds f.span) ∨ ∃ t ∈ s.tables, R.Holds t.span)) ∨
    ((R.kind = .keyword .COUNT ∨ R.kind = .keyword .IFNULL) ∧
      ∃ f ∈ s.fields, f.span.start = R.start)

theorem keepsName_quote (before word behind : Text) : (quote before word behind).KeepsName := by
  refine ⟨⟨'`', rfl⟩, ?_⟩
  rw [label_old rfl]
  simp [quote, new, Token.label, Token.name?, Token.unquote?]

/-- A quoted text at the end of a text ends in its quote. -/
theorem getLast?_of_quoted {t : Text} {last : Token} {q : Char}
    (hlast : last ∈ (Lexicon.sql.read (.ofText t)).tokens) (hkind : last.kind = .quoted q)
    (hstop : last.span.stop = Text.size t) : t.getLast? = some q := by
  obtain ⟨before, after, htext, -, hspan⟩ := (Query.holds_read (.ofText t)).stands last hlast
  have htext : t = before ++ (last.lexeme ++ after) := htext
  have hafter : after = [] := by
    by_contra hne
    have hpos := Text.size_pos hne
    rw [hspan, htext] at hstop
    simp only [Fragment.ofText, Text.size_append] at hstop
    omega
  obtain ⟨o, c, rest, later, htoken⟩ := Lexicon.exists_tokenAt_of_mem_read hlast
  rcases Lexicon.cases_of_tokenAt htoken with ⟨-, hquoted, inner, hlexeme, -⟩ |
    ⟨-, s, -, hsymbol, -⟩ | ⟨-, -, hword, -⟩
  · rw [hkind, TokenKind.quoted.injEq] at hquoted
    have hclosed : t = (before ++ q :: inner) ++ [q] := by
      rw [htext, hafter, hlexeme, ← hquoted]
      simp
    rw [hclosed, List.getLast?_concat]
  · rw [hkind] at hsymbol
    cases hsymbol
  · rw [hkind, Lexicon.wordKind] at hword
    split at hword <;> cases hword

/-- A token in front of a backquote does not run on, unless it is between backquotes itself. -/
theorem ends_backquote {before : Text} (hbefore : before.getLast? ≠ some '`') (t : Text) :
    ∀ last ∈ (Lexicon.sql.read (.ofText before)).tokens.getLast?,
      last.span.stop = Text.size before → Lexicon.sql.Ends ('`' :: t) last.kind := by
  intro last hlast hstop
  cases hkind : last.kind with
  | symbol s => trivial
  | word => exact ⟨rfl, by simp⟩
  | keyword k => exact ⟨rfl, by simp⟩
  | quoted q =>
    intro hquote
    obtain rfl : '`' = q := Option.some.inj hquote
    exact hbefore (getLast?_of_quoted (List.mem_of_getLast? hlast) hkind hstop)

theorem isFit_quote {before word behind : Text} (hR : (quote before word behind).IsWritten)
    (hbefore : before.getLast? ≠ some '`') (hbehind : behind.head? ≠ some '`')
    (hkeyword : (quote before word behind).kind ≠ .word →
      Query.isQualified (quote before word behind).lead ∨
        (quote before word behind).kind = .keyword .COUNT ∨
        (quote before word behind).kind = .keyword .IFNULL) :
    (quote before word behind).IsFit := by
  have hquote : '`' ∉ word := fun hmem => by
    have hnot := hR.isWord.quote '`' hmem
    cases hnot
  have hnew := Lexicon.sql.read_quoted rfl (by decide) hquote (quote before word behind).start
  have hname := keepsName_quote before word behind
  have hkind' : (quote before word behind).kind' = .quoted '`' := rfl
  refine ⟨hR.isRead hnew (ends_backquote hbefore _) hbehind, Lexicon.sql.wordKind_cases word,
    .inl hname, fun hdot => ⟨hname, fun k hk => ?_⟩, ?_⟩
  · have hplain := hkeyword (by simp [hk])
    simp only [hk, TokenKind.keyword.injEq] at hplain
    exact hplain.resolve_left fun hqualified => hdot (Query.exists_dot_of_isQualified hqualified)
  · by_cases hword : (quote before word behind).kind = .word
    · exact .inl (.inl (by simp [IsQuiet, hword, hkind']))
    · rcases hkeyword hword with hqualified | hcount | hifnull
      · exact .inr hqualified
      · exact .inl (.inl (by simp [IsQuiet, hcount, hkind']))
      · exact .inl (.inl (by simp [IsQuiet, hifnull, hkind']))

theorem Renames.alike {R : Rewording} (hR : R.KeepsName) {f f' : QueryField}
    (h : R.Renames f f') : Aligned R.places f f' := by
  have hname : f.name = f'.name := by
    rcases h.name with ⟨-, hold, hnew⟩ | ⟨-, hname⟩
    · rw [hold, hnew, hR.2]
    · exact hname
  have halias := h.aliasName
  rw [← hname] at halias
  exact ⟨h.table, hname, halias.eq, h.isAggregate, h.isVerbatim, h.span⟩

/-- A name does not end the select list. -/
theorem IsName.not_endsList {before word behind : Text} {s : QueryShape}
    (hs : (quote before word behind).IsName s) (hR : (quote before word behind).IsRead) :
    ¬(quote before word behind).EndsList s := by
  intro hends
  rcases hends.selected with ⟨_, _, hfrom, -⟩ | ⟨_, _, hquoted, -⟩
  · rcases hs.keyword (by simp [hfrom]) with ⟨-, ⟨f, hf, hholds⟩ | ⟨t, ht, hholds⟩⟩ | ⟨hkind, -⟩
    · exact hends.fields f hf hholds
    · have hle := Nat.le_trans (hends.tables t ht) hholds.1
      exact absurd hle (Nat.not_le.2 hR.start_lt_stop)
    · simp [hfrom] at hkind
  · cases hquoted

/-- **Quoting a name changes nothing.** -/
theorem alike_shape_quote (before word behind : Text) (hR : (quote before word behind).IsWritten)
    (hbefore : before.getLast? ≠ some '`') (hbehind : behind.head? ≠ some '`') {s : QueryShape}
    (h : Query.shape .sql (.ofText (before ++ (word ++ behind))) = .ok s)
    (hs : (quote before word behind).IsName s) :
    ∃ s', Query.shape .sql (.ofText (before ++ ('`' :: (word ++ ['`']) ++ behind))) = .ok s' ∧
      Aligned (quote before word behind).places s s' := by
  have hname := keepsName_quote before word behind
  have hsuits : (quote before word behind).Suits s := by
    refine ⟨fun f hf => ⟨fun hverbatim hholds => ?_, fun _ => hs.function f hf,
      hs.reference f hf⟩, ?_, fun _ _ => hs.select, ?_⟩
    · exact absurd hholds (hs.field f hf hverbatim)
    · exact fun t ht hdisturbs => hs.table t ht (hdisturbs.2 hname) hdisturbs.1
    · by_cases hword : (quote before word behind).kind = .word
      · exact .inl (.inl hword)
      · exact (hs.keyword hword).imp (fun h => .inr (Query.exists_dot_of_isQualified h.1)) And.right
  have hfit := isFit_quote hR hbefore hbehind fun hword => (hs.keyword hword).imp And.left And.left
  rcases exists_shape hfit h hsuits with ⟨s', hs', hrewrites⟩ | hends
  · exact ⟨s', hs', hrewrites.fields.imp fun _ _ => Renames.alike hname, hrewrites.tables⟩
  · exact absurd hends (hs.not_endsList hfit.read)

/-- In a call the name behind a qualifier may be quoted, here one that is spelled like a keyword. -/
theorem alike_shape_quote_call :
    let R := quote "SELECT LOWER(t.".toList "order".toList ") n, id FROM users t".toList
    let s (n : Nat) : QueryShape :=
      ⟨[⟨some "users".toList, "order".toList, some ['n'], false, false, ⟨7, n + 21⟩⟩,
          ⟨some "users".toList, "id".toList, none, false, false, ⟨n + 25, n + 27⟩⟩],
        [⟨"users".toList, some ['t'], false, ⟨n + 33, n + 38⟩⟩]⟩
    R.IsWritten ∧ Query.shape .sql (.ofText (R.write R.word)) = .ok (s 0) ∧ R.IsName (s 0) ∧
      Query.shape .sql (.ofText (R.write R.word')) = .ok (s 2) ∧
      Aligned R.places (s 0) (s 2) := by
  intro R s
  have hR : R.IsWritten := ⟨rfl, by decide +kernel⟩
  have hs : Query.shape .sql (.ofText (R.write R.word)) = .ok (s 0) := by decide +kernel
  have hs' : Query.shape .sql (.ofText (R.write R.word')) = .ok (s 2) := by decide +kernel
  have hname : R.IsName (s 0) :=
    { field := by decide +kernel
      table := by decide +kernel
      function := by decide +kernel
      select := by decide +kernel
      reference := by decide +kernel
      keyword := by decide +kernel }
  obtain ⟨s', hs'', halike⟩ := alike_shape_quote "SELECT LOWER(t.".toList "order".toList
    ") n, id FROM users t".toList hR (by decide) (by decide) hs hname
  obtain rfl : s 2 = s' := Except.ok.inj (hs'.symm.trans hs'')
  exact ⟨hR, hs, hname, hs', halike⟩

end Rewording

end QueryTemplate
