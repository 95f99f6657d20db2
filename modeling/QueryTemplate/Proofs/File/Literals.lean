import QueryTemplate.Proofs.File.Splitting
import QueryTemplate.Proofs.Token.Division

/-! # Literals in the body of a method

Quotes are followed twice: where comments are blanked out and where a body is divided into tokens.
Blanking knows only which quote is open and takes a doubled quote for the end of one literal and
the beginning of the next; dividing takes a literal as a whole. Both agree at every character of a
body that can be divided. So a comment leaves no dashes behind, and no literal loses a character.
-/

namespace QueryTemplate

namespace MethodSource

/-! ## Open quotes -/

theorem openQuote_cons (quote : Option Char) (c : Char) (t : Text) :
    openQuote quote (c :: t) = openQuote (quoteBehind quote c) t := rfl

theorem openQuote_append (quote : Option Char) (u v : Text) :
    openQuote quote (u ++ v) = openQuote (openQuote quote u) v := List.foldl_append

theorem quoteBehind_of_isQuote {c : Char} (h : isQuote c) : quoteBehind none c = some c := if_pos h

theorem quoteBehind_self (c : Char) : quoteBehind (some c) c = none := if_pos rfl

theorem quoteBehind_of_ne {c quote : Char} (h : c ≠ quote) :
    quoteBehind (some quote) c = some quote := if_neg h

theorem openQuote_of_notQuote {t : Text} (h : ∀ c ∈ t, isQuote c = false) :
    openQuote none t = none := by
  induction t with
  | nil => rfl
  | cons c t ih =>
    obtain ⟨hc, ht⟩ := List.forall_mem_cons.1 h
    rw [openQuote_cons, quoteBehind, hc]
    exact ih ht

theorem isSpace_of_isQuote {c : Char} (h : isQuote c) : Text.isSpace c = false := by
  simp only [isQuote, Bool.or_eq_true, beq_iff_eq] at h
  rcases h with (rfl | rfl) | rfl <;> rfl

theorem ne_blank_of_isQuote {c : Char} (h : isQuote c) : c ≠ ' ' := by
  rintro rfl
  cases h

theorem openQuote_of_isBlank {gap : Text} (h : Text.isBlank gap) : openQuote none gap = none := by
  refine openQuote_of_notQuote fun c hc => ?_
  by_contra hquote
  have hspace := isSpace_of_isQuote (Bool.of_not_eq_false hquote)
  rw [Text.isSpace_of_isBlank h c hc] at hspace
  cases hspace

theorem openQuote_of_isBlank_append {u v : Text} (h : Text.isBlank (u ++ v)) :
    openQuote none u = none := by
  rw [Text.isBlank, List.all_append, Bool.and_eq_true] at h
  exact openQuote_of_isBlank h.1

/-- Inside a literal its own quote is open, but for the place between the quotes of a pair. -/
theorem openQuote_of_paired {quote : Char} {inner u v : Text} (hquote : isQuote quote)
    (h : Text.Paired quote inner) (huv : inner = u ++ v) :
    openQuote (some quote) u = some quote ∨
      openQuote (some quote) u = none ∧ v.head? = some quote := by
  induction h generalizing u with
  | nil =>
    obtain ⟨rfl, -⟩ := List.append_eq_nil_iff.1 huv.symm
    exact .inl rfl
  | other hc _ ih =>
    rcases u with _ | ⟨d, u⟩
    · exact .inl rfl
    · obtain ⟨rfl, hrest⟩ := List.cons.inj huv
      rw [openQuote_cons, quoteBehind_of_ne hc]
      exact ih hrest
  | pair _ ih =>
    rcases u with _ | ⟨d, _ | ⟨e, u⟩⟩
    · exact .inl rfl
    · obtain ⟨rfl, rfl⟩ := List.cons.inj huv
      exact .inr ⟨quoteBehind_self quote, rfl⟩
    · simp only [List.cons_append, List.cons.injEq] at huv
      obtain ⟨rfl, rfl, hrest⟩ := huv
      rw [openQuote_cons, quoteBehind_self, openQuote_cons, quoteBehind_of_isQuote hquote]
      exact ih hrest

theorem openQuote_literal {quote : Char} {inner : Text} (hquote : isQuote quote)
    (h : Text.Paired quote inner) : openQuote none (quote :: (inner ++ [quote])) = none := by
  have hinner : openQuote (some quote) inner = some quote :=
    (openQuote_of_paired hquote h (List.append_nil inner).symm).resolve_right (by simp)
  rw [openQuote_cons, quoteBehind_of_isQuote hquote, openQuote_append, hinner]
  exact quoteBehind_self quote

/-- Where a quote is open in a literal, it is that of the literal, and only a quote ends the
literal. -/
theorem open_in_literal {quote q c : Char} {inner w x : Text} (hquote : isQuote quote)
    (h : Text.Paired quote inner) (hwx : quote :: (inner ++ [quote]) = w ++ c :: x)
    (hopen : openQuote none w = some q) (hc : isQuote c = false) : q = quote ∧ x ≠ [] := by
  rcases w with _ | ⟨d, w⟩
  · cases hopen
  rw [List.cons_append, List.cons.injEq] at hwx
  obtain ⟨rfl, hrest⟩ := hwx
  rw [openQuote_cons, quoteBehind_of_isQuote hquote] at hopen
  rcases Text.cases_of_append_eq hrest with ⟨v, rfl⟩ | ⟨v, -, hlast⟩
  · rw [List.append_assoc, List.cons_append, List.append_cancel_left_eq, List.cons.injEq] at hrest
    refine ⟨?_, by simp [← hrest.2]⟩
    rcases openQuote_of_paired hquote h rfl with hw | ⟨hw, -⟩
    · exact Option.some.inj (hopen.symm.trans hw)
    · rw [hw] at hopen
      cases hopen
  · -- Only the closing quote is left.
    have hmem : c ∈ [quote] := hlast ▸ List.mem_append_right v (List.mem_cons_self ..)
    obtain rfl := List.mem_singleton.1 hmem
    rw [hquote] at hc
    cases hc

/-! ## Blanking -/

def Region.openQuote? : Region → Option Char
  | .quoted quote => some quote
  | .code | .comment => none

/-- What one character becomes says which quote is open behind it. It is white space or, outside
comments, the character itself. -/
theorem blankComments_follows (region : Region) (c : Char) (rest : Text) : ∃ lead next,
    blankComments region (c :: rest) = lead ++ blankComments next rest ∧ StandsFor c lead ∧
      next.openQuote? = openQuote region.openQuote? lead ∧
      (Text.isBlank lead ∨ lead = [c] ∧ regionOf region.openQuote? = region) := by
  cases region with
  | code =>
    by_cases hdash : c = '-' ∧ rest.head? = some '-'
    · exact ⟨[' '], .comment, if_pos hdash, .inr (by rw [hdash.1]; rfl), rfl, .inl rfl⟩
    · refine ⟨[c], _, if_neg hdash, .inl rfl, ?_, .inr ⟨rfl, rfl⟩⟩
      change _ = quoteBehind none c
      rw [quoteBehind]
      split_ifs <;> rfl
  | quoted quote =>
    refine ⟨[c], _, rfl, .inl rfl, ?_, .inr ⟨rfl, rfl⟩⟩
    change _ = quoteBehind (some quote) c
    rw [quoteBehind]
    split_ifs <;> rfl
  | comment =>
    rw [blankComments]
    split_ifs with hfeed hreturn
    · exact ⟨[c], .code, rfl, .inl rfl, by subst hfeed; rfl, .inl (by subst hfeed; rfl)⟩
    · exact ⟨[c], .comment, rfl, .inl rfl, by subst hreturn; rfl, .inl (by subst hreturn; rfl)⟩
    · have hblank : Text.isBlank (List.replicate c.utf8Size ' ') := by
        refine List.all_eq_true.2 fun d hd => ?_
        rw [List.eq_of_mem_replicate hd]
        rfl
      exact ⟨_, .comment, rfl, .inr rfl, (openQuote_of_isBlank hblank).symm, .inl hblank⟩

/-- A character that is not white space is no part of a comment: it is left as it is, and blanking
goes on from there with the quote that is open in front of it. -/
theorem exists_of_blankComments {region : Region} {raw before after : Text} {c : Char}
    (h : blankComments region raw = before ++ c :: after) (hc : Text.isSpace c = false) :
    ∃ lead rest, raw = lead ++ c :: rest ∧ Text.size lead = Text.size before ∧
      blankComments (regionOf (openQuote region.openQuote? before)) (c :: rest) = c :: after := by
  induction raw generalizing region before with
  | nil => cases region <;> simp [blankComments] at h
  | cons d raw ih =>
    obtain ⟨lead, next, hlead, hstands, hnext, hcases⟩ := blankComments_follows region d raw
    have happend := hlead.symm.trans h
    rcases Text.cases_of_append_eq happend with ⟨w, rfl⟩ | ⟨w, rfl, hrest⟩
    · rcases hcases with hblank | ⟨hself, hregion⟩
      · rw [Text.isSpace_of_isBlank hblank c (by simp)] at hc
        cases hc
      · obtain ⟨rfl, hcons⟩ := List.append_eq_singleton_iff.1 hself |>.resolve_right (by simp)
        obtain ⟨rfl, rfl⟩ := List.cons.inj hcons
        refine ⟨[], raw, rfl, rfl, ?_⟩
        change blankComments (regionOf region.openQuote?) (c :: raw) = _
        rw [hregion, h, List.nil_append]
    · obtain ⟨front, rest, rfl, hsize, hblank⟩ := ih hrest
      refine ⟨d :: front, rest, rfl, ?_, ?_⟩
      · rw [Text.size_cons, Text.size_append, hstands.size_eq, hsize]
      · rw [openQuote_append, ← hnext]
        exact hblank

theorem exists_of_blankComments_eq_cons {quote : Option Char} {raw after : Text} {c : Char}
    (h : blankComments (regionOf quote) raw = c :: after) (hc : quote = none → c ≠ ' ') :
    ∃ rest, raw = c :: rest ∧ blankComments (regionOf (quoteBehind quote c)) rest = after ∧
      ¬(quote = none ∧ c = '-' ∧ rest.head? = some '-') := by
  cases raw with
  | nil => cases quote <;> cases h
  | cons d rest =>
    rw [blankComments_cons] at h
    split_ifs at h with hdash
    · exact absurd (List.cons.inj h).1.symm (hc hdash.1)
    · obtain ⟨rfl, hrest⟩ := List.cons.inj h
      exact ⟨rest, rfl, hrest, hdash⟩

/-- Where no quote is open, blanking leaves no dashes behind. -/
theorem blankComments_code_ne (raw after : Text) :
    blankComments .code raw ≠ commentMark ++ after := by
  intro h
  change blankComments (regionOf none) raw = '-' :: '-' :: after at h
  obtain ⟨rest, -, hrest, hdash⟩ := exists_of_blankComments_eq_cons h (by simp)
  obtain ⟨last, rfl, -, -⟩ := exists_of_blankComments_eq_cons hrest (by simp)
  exact hdash ⟨rfl, rfl, rfl⟩

/-- The rest of a literal goes through blanking as it is. -/
theorem exists_of_blankComments_quoted {quote : Char} {raw inner after : Text}
    (hquote : isQuote quote) (hpaired : Text.Paired quote inner)
    (h : blankComments (regionOf (some quote)) raw = inner ++ quote :: after) :
    ∃ rest, raw = inner ++ quote :: rest := by
  induction hpaired generalizing raw with
  | nil =>
    obtain ⟨rest, rfl, -, -⟩ := exists_of_blankComments_eq_cons h (by simp)
    exact ⟨rest, rfl⟩
  | other hc _ ih =>
    obtain ⟨rest, rfl, hrest, -⟩ := exists_of_blankComments_eq_cons h (by simp)
    rw [quoteBehind_of_ne hc] at hrest
    obtain ⟨last, rfl⟩ := ih hrest
    exact ⟨last, rfl⟩
  | pair _ ih =>
    obtain ⟨rest, rfl, hrest, -⟩ := exists_of_blankComments_eq_cons h (by simp)
    rw [quoteBehind_self] at hrest
    obtain ⟨rest, rfl, hrest, -⟩ :=
      exists_of_blankComments_eq_cons hrest fun _ => ne_blank_of_isQuote hquote
    rw [quoteBehind_of_isQuote hquote] at hrest
    obtain ⟨last, rfl⟩ := ih hrest
    exact ⟨last, rfl⟩

/-- Two dashes are left only where a quote is open. -/
theorem openQuote_of_dashes {template before after : Text}
    (h : blankComments .code template = before ++ (commentMark ++ after)) :
    ∃ quote, openQuote none before = some quote := by
  obtain ⟨lead, rest, -, -, hblank⟩ := exists_of_blankComments h rfl
  change blankComments (regionOf (openQuote none before)) _ = commentMark ++ after at hblank
  cases hopen : openQuote none before with
  | some quote => exact ⟨quote, rfl⟩
  | none =>
    rw [hopen] at hblank
    exact absurd hblank (blankComments_code_ne _ _)

/-- A literal that stands in the blanked template where no quote is open stands in the template. -/
theorem exists_of_literal {template before inner after : Text} {quote : Char}
    (hquote : isQuote quote) (hpaired : Text.Paired quote inner)
    (h : blankComments .code template = before ++ (quote :: (inner ++ [quote]) ++ after))
    (hopen : openQuote none before = none) :
    ∃ lead rest, template = lead ++ (quote :: (inner ++ [quote]) ++ rest) ∧
      Text.size lead = Text.size before := by
  obtain ⟨lead, rest, rfl, hsize, hblank⟩ := exists_of_blankComments h (isSpace_of_isQuote hquote)
  change blankComments (regionOf (openQuote none before)) _ = quote :: (inner ++ [quote] ++ after)
    at hblank
  rw [hopen] at hblank
  obtain ⟨rest, hrest, hinner, -⟩ :=
    exists_of_blankComments_eq_cons hblank fun _ => ne_blank_of_isQuote hquote
  obtain ⟨-, rfl⟩ := List.cons.inj hrest
  rw [quoteBehind_of_isQuote hquote, List.append_assoc] at hinner
  obtain ⟨last, rfl⟩ := exists_of_blankComments_quoted hquote hpaired hinner
  exact ⟨lead, last, by simp, hsize⟩

/-! ## Dividing -/

theorem mem_quotes_sql (c : Char) : c ∈ Lexicon.sql.quotes ↔ isQuote c := by
  simp [Lexicon.sql, isQuote, or_assoc]

theorem isQuote_symbol (s : Symbol) : ∀ c ∈ s.text, isQuote c = false := by
  have hnone : s.text.any isQuote = false := by cases s <;> rfl
  simpa using hnone

/-- A token is a literal, or it holds no quotes at all. -/
theorem literal_or_notQuote {t : Token} {after : Text} (h : Lexicon.sql.Classifies t after) :
    (∃ quote inner, isQuote quote ∧ t.kind = .quoted quote ∧
      t.lexeme = quote :: (inner ++ [quote]) ∧ Text.Paired quote inner) ∨
    (∀ quote, t.kind ≠ .quoted quote) ∧ ∀ c ∈ t.lexeme, isQuote c = false := by
  by_cases hhead : ∃ c ∈ t.lexeme.head?, c ∈ Lexicon.sql.quotes
  · obtain ⟨c, hc, hquote⟩ := hhead
    obtain ⟨hkind, inner, hlexeme, hpaired, -⟩ := h.quoted c hc hquote
    exact .inl ⟨c, inner, (mem_quotes_sql c).1 hquote, hkind, hlexeme, hpaired⟩
  replace hhead : ∀ c ∈ t.lexeme.head?, c ∉ Lexicon.sql.quotes := fun c hc hquote =>
    hhead ⟨c, hc, hquote⟩
  right
  by_cases hsymbol : ∃ s ∈ Lexicon.sql.symbols, s.text <+: t.lexeme
  · obtain ⟨s, hs, hstarts⟩ := hsymbol
    obtain ⟨hkind, hlexeme⟩ := h.symbol hhead s hs hstarts
    exact ⟨by simp [hkind], hlexeme ▸ isQuote_symbol s⟩
  obtain ⟨hstretch, hkeyword, hword⟩ := h.word hhead fun s hs hstarts => hsymbol ⟨s, hs, hstarts⟩
  refine ⟨fun quote hkind => ?_, fun c hc => ?_⟩
  · obtain ⟨k, hk, hspelled⟩ : ∃ k ∈ Lexicon.sql.keywords, k.isSpelledBy t.lexeme := by
      by_contra hnone
      have hplain := hword.2 fun k hk hspelled => hnone ⟨k, hk, hspelled⟩
      rw [hkind] at hplain
      cases hplain
    have hplain := (hkeyword k).2 ⟨hk, hspelled⟩
    rw [hkind] at hplain
    cases hplain
  · obtain ⟨u, v, huv⟩ := List.append_of_mem hc
    by_contra hquote
    refine hstretch.inside u (c :: v) huv (by simp) (.inl ⟨c, by simp, .inr ?_⟩)
    exact (mem_quotes_sql c).2 (Bool.of_not_eq_false hquote)

theorem openQuote_lexeme {t : Token} {after : Text} (h : Lexicon.sql.Classifies t after) :
    openQuote none t.lexeme = none := by
  rcases literal_or_notQuote h with ⟨quote, inner, hquote, -, hlexeme, hpaired⟩ | ⟨-, hnone⟩
  · rw [hlexeme]
    exact openQuote_literal hquote hpaired
  · exact openQuote_of_notQuote hnone

/-- Where a quote is open in a token, the token is a literal of that quote. -/
theorem open_in_token {t : Token} {after w x : Text} {c quote : Char}
    (h : Lexicon.sql.Classifies t after) (hwx : t.lexeme = w ++ c :: x)
    (hopen : openQuote none w = some quote) (hc : isQuote c = false) :
    t.kind = .quoted quote ∧ x ≠ [] := by
  rcases literal_or_notQuote h with ⟨q, inner, hquote, hkind, hlexeme, hpaired⟩ | ⟨-, hnone⟩
  · obtain ⟨rfl, hx⟩ := open_in_literal hquote hpaired (hlexeme.symm.trans hwx) hopen hc
    exact ⟨hkind, hx⟩
  · have hw : openQuote none w = none :=
      openQuote_of_notQuote fun d hd => hnone d (hwx ▸ List.mem_append_left _ hd)
    rw [hw] at hopen
    cases hopen

section

variable {f : Fragment} {stream : TokenStream}

/-- No quote is open where a token begins. -/
theorem stands_outside (h : Lexicon.sql.Divides f stream) : ∀ t ∈ stream.tokens, ∃ before after,
    f.text = before ++ (t.lexeme ++ after) ∧ Lexicon.sql.Classifies t after ∧
      t.span = ⟨f.offset + Text.size before, f.offset + Text.size before + Text.size t.lexeme⟩ ∧
      openQuote none before = none := by
  induction h with
  | blank _ => simp
  | fault _ _ _ _ => simp
  | @token o gap after t stream hgap _ hkind hspan _ ih =>
    intro u hu
    rcases List.mem_cons.1 hu with rfl | hu
    · exact ⟨gap, after, rfl, hkind, hspan, openQuote_of_isBlank hgap⟩
    · obtain ⟨before, behind, htext, hkind', hplace, hopen⟩ := ih u hu
      dsimp only at htext hplace
      refine ⟨gap ++ (t.lexeme ++ before), behind, by simp [htext], hkind', ?_, ?_⟩
      · rw [hplace, ← Lexicon.place_of_span hspan]
      · rw [openQuote_append, openQuote_of_isBlank hgap, openQuote_append, openQuote_lexeme hkind,
          hopen]

/-- Where a quote is open in a text that is divided to its end, there is a token of this quote.
It goes on behind any character but quotes. -/
theorem exists_quoted_of_open (h : Lexicon.sql.Divides f stream) (hfault : stream.fault = none)
    {before after : Text} {c quote : Char} (htext : f.text = before ++ c :: after)
    (hopen : openQuote none before = some quote) (hc : isQuote c = false) :
    ∃ t ∈ stream.tokens, t.kind = .quoted quote ∧ t.span.start ≤ f.offset + Text.size before ∧
      f.offset + Text.size before + c.utf8Size < t.span.stop := by
  induction h generalizing before with
  | blank hgap =>
    dsimp only at htext
    rw [openQuote_of_isBlank_append (htext ▸ hgap)] at hopen
    cases hopen
  | fault _ _ _ _ => cases hfault
  | @token o gap last t stream hgap _ hkind hspan _ ih =>
    rcases Text.cases_of_append_eq htext with ⟨w, rfl⟩ | ⟨w, rfl, hlast⟩
    · rw [openQuote_of_isBlank_append hgap] at hopen
      cases hopen
    rw [openQuote_append, openQuote_of_isBlank hgap] at hopen
    rcases Text.cases_of_append_eq hlast with ⟨x, hlexeme⟩ | ⟨x, rfl, hbehind⟩
    · obtain ⟨hquoted, hx⟩ := open_in_token hkind hlexeme hopen hc
      have hpos := Text.size_pos hx
      refine ⟨t, List.mem_cons_self .., hquoted, ?_, ?_⟩
      · rw [hspan, Text.size_append]
        dsimp only
        omega
      · rw [hspan, hlexeme]
        simp only [Text.size_append, Text.size_cons]
        omega
    · rw [openQuote_append, openQuote_lexeme hkind] at hopen
      obtain ⟨u, hu, hquoted, hstart, hstop⟩ := ih hfault hbehind hopen
      rw [← Lexicon.place_of_span hspan] at hstart hstop
      exact ⟨u, List.mem_cons_of_mem _ hu, hquoted, hstart, hstop⟩

end

/-! ## The whole file -/

theorem exists_of_mem_mapM {α β ε : Type} {f : α → Except ε β} {xs : List α} {ys : List β} {y : β}
    (h : xs.mapM f = .ok ys) (hy : y ∈ ys) : ∃ x ∈ xs, f x = .ok y := by
  have hpairs := mapM_eq_ok_iff.1 h
  clear h
  induction hpairs with
  | nil => cases hy
  | cons hxy _ ih =>
    rcases List.mem_cons.1 hy with rfl | hy
    · exact ⟨_, List.mem_cons_self .., hxy⟩
    · obtain ⟨x, hx, hfx⟩ := ih hy
      exact ⟨x, List.mem_cons_of_mem _ hx, hfx⟩

/-- The body of a method is a stretch of the file without its comments. -/
theorem exists_template_of_split {file : Text} {ms : List MethodSource} {m : MethodSource}
    (h : split file = .ok ms) (hm : m ∈ ms) : ∃ template,
      file.StandsAt template ⟨m.body.offset, m.body.stop⟩ ∧
        m.body.text = blankComments .code template := by
  rw [split_eq] at h
  obtain ⟨-, -, h⟩ := Checked.bind_eq_ok h
  obtain ⟨b, hb, hof⟩ := exists_of_mem_mapM h hm
  obtain ⟨-, -, -, -, -, -, -, hbody⟩ := exists_of_ofHeader hof
  obtain ⟨-, htemplate⟩ := ((group_isPart 0 (Text.lines file)).2 b hb).stands
  have hsize : Text.size m.body.text = Text.size (b.body.flatMap Fragment.text) := by
    rw [hbody]
    exact size_blankComments _ _
  refine ⟨b.body.flatMap Fragment.text, ?_, by rw [hbody]⟩
  rw [Fragment.stop, hsize, hbody]
  exact htemplate

/-- **Blanking and dividing agree on what is quoted.** In a body that can be divided, two dashes
stand only inside a quoted token, so that no comment is left. And every quoted token is, byte by
byte, what the file has in its place, on whatever lines it begins and ends: nothing in it was taken
for a comment. -/
theorem split_keepsLiterals {file : Text} {ms : List MethodSource} {m : MethodSource}
    {ts : List Token} (h : split file = .ok ms) (hm : m ∈ ms)
    (htokens : Lexicon.sql.tokenize m.body.text = .ok ts) :
    (∀ before after, m.body.text = before ++ (commentMark ++ after) →
      ∃ t ∈ ts, ∃ quote, t.kind = .quoted quote ∧ t.span.start ≤ Text.size before ∧
        Text.size before + Text.size commentMark ≤ t.span.stop) ∧
    ∀ t ∈ ts, ∀ quote, t.kind = .quoted quote →
      m.body.text.StandsAt t.lexeme t.span ∧
        file.StandsAt t.lexeme (t.span.shift m.body.offset) := by
  obtain ⟨template, hstands, hbody⟩ := exists_template_of_split h hm
  have hdivides := Lexicon.sql.divides_read (.ofText m.body.text)
  rw [TokenStream.eq_of_complete_eq_ok htokens] at hdivides
  have hstart (n : Nat) : (Fragment.ofText m.body.text).offset + n = n := Nat.zero_add n
  constructor
  · intro before after htext
    obtain ⟨quote, hopen⟩ := openQuote_of_dashes (hbody.symm.trans htext)
    obtain ⟨t, ht, hkind, hle, hlt⟩ := exists_quoted_of_open hdivides rfl htext hopen rfl
    rw [hstart] at hle hlt
    exact ⟨t, ht, quote, hkind, hle, hlt⟩
  · intro t ht quote hkind
    obtain ⟨before, after, htext, hclass, hspan, hopen⟩ := stands_outside hdivides t ht
    rw [hstart] at hspan
    rcases literal_or_notQuote hclass with ⟨q, inner, hquote, -, hlexeme, hpaired⟩ | ⟨hnot, -⟩
    · have hblank := hbody.symm.trans htext
      rw [hlexeme] at hblank
      obtain ⟨lead, rest, rfl, hsize⟩ := exists_of_literal hquote hpaired hblank hopen
      refine ⟨⟨before, after, htext, hspan⟩, ?_⟩
      have hpart := hstands.part lead t.lexeme rest (by rw [hlexeme])
      have hshift : t.span.shift m.body.offset = ⟨m.body.offset + Text.size lead,
          m.body.offset + Text.size lead + Text.size t.lexeme⟩ := by
        simp only [hspan, hsize, Span.shift, Span.mk.injEq]
        omega
      rwa [hshift]
    · exact absurd hkind (hnot quote)

/-- A literal goes on in the next line, where a doubled quote follows dashes and another quote comes
after it; the comments hold quotes and a two-byte character; two literals stand side by side. -/
theorem split_keepsLiterals_doubled :
    let file : Text := "-- name: A\nSET 'it''s\n--'' \"', -- it's \u00E9\"\r\n".toList ++
      "`--''`\"--\"\"\" --'\n--x\n-- name: B\n'".toList
    let body : Text :=
      "SET 'it''s\n--'' \"',            \r\n`--''`\"--\"\"\"    \n   \n".toList
    let m : MethodSource := ⟨⟨none, ['A']⟩, [], ⟨0, 10⟩, ⟨9, 10⟩, ⟨11, body⟩⟩
    let n : MethodSource := ⟨⟨none, ['B']⟩, [], ⟨65, 75⟩, ⟨74, 75⟩, ⟨76, ['\'']⟩⟩
    let ts : List Token := [⟨.word, "SET".toList, ⟨0, 3⟩⟩,
      ⟨.quoted '\'', "'it''s\n--'' \"'".toList, ⟨4, 18⟩⟩, ⟨.symbol .comma, [','], ⟨18, 19⟩⟩,
      ⟨.quoted '`', "`--''`".toList, ⟨33, 39⟩⟩, ⟨.quoted '"', "\"--\"\"\"".toList, ⟨39, 45⟩⟩]
    split file = .ok [m, n] ∧ Lexicon.sql.tokenize m.body.text = .ok ts ∧
      (∀ before after, m.body.text = before ++ (commentMark ++ after) →
        ∃ t ∈ ts, ∃ quote, t.kind = .quoted quote ∧ t.span.start ≤ Text.size before ∧
          Text.size before + Text.size commentMark ≤ t.span.stop) ∧
      ∀ t ∈ ts, ∀ quote, t.kind = .quoted quote →
        m.body.text.StandsAt t.lexeme t.span ∧
          file.StandsAt t.lexeme (t.span.shift m.body.offset) := by
  intro file body m n ts
  have h : split file = .ok [m, n] := by decide +kernel
  have htokens : Lexicon.sql.tokenize m.body.text = .ok ts := by decide +kernel
  exact ⟨h, htokens, split_keepsLiterals h (List.mem_cons_self ..) htokens⟩

end MethodSource

end QueryTemplate
