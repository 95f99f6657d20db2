import QueryTemplate.Proofs.Token.Division
import QueryTemplate.Proofs.Token.Edge

/-! # Tokens with other white space around them

What a token is depends on its own text and on the text behind it, and white space behind it ends
every token. So the tokens of a text stay what they are when they are written with any white space
between them, and a text that white space separates from another one is read on its own.
-/

namespace QueryTemplate

/-- What a token is, wherever it stands. -/
def Token.form (t : Token) : TokenKind × Text := (t.kind, t.lexeme)

/-- The words are written one after the other, with white space between neighbours and maybe around
them. -/
inductive Text.Spaced : List Text → Text → Prop where
  | none {gap : Text} : isBlank gap → Spaced [] gap
  | last {lead word gap : Text} : isBlank lead → isBlank gap →
    Spaced [word] (lead ++ (word ++ gap))
  | more {lead word gap next rest : Text} {words : List Text} : isBlank lead → isBlank gap →
    gap ≠ [] → Spaced (next :: words) rest →
    Spaced (word :: next :: words) (lead ++ (word ++ (gap ++ rest)))

theorem Text.isSpace_head_of_isBlank {gap : Text} (hgap : isBlank gap) (hne : gap ≠ [])
    (rest : Text) : ∀ c ∈ (gap ++ rest).head?, isSpace c := by
  obtain ⟨c, gap, rfl⟩ := List.exists_cons_of_ne_nil hne
  intro d hd
  cases hd
  exact isSpace_of_isBlank hgap c (List.mem_cons_self ..)

namespace Lexicon

variable {lexicon : Lexicon}

/-! ## Tokens by themselves -/

structure IsToken (lexicon : Lexicon) (kind : TokenKind) (lexeme : Text) : Prop where
  read (o : Nat) :
    lexicon.read ⟨o, lexeme⟩ = ⟨[⟨kind, lexeme, ⟨o, o + Text.size lexeme⟩⟩], none⟩
  notSpace : ∀ quote, kind = .quoted quote → Text.isSpace quote = false

theorem token_inj {kind kind' : TokenKind} {lexeme lexeme' after after' : Text} {o : Nat}
    (h : token kind lexeme o after = token kind' lexeme' o after') :
    kind = kind' ∧ lexeme = lexeme' ∧ after = after' := by
  cases h
  exact ⟨rfl, rfl, rfl⟩

/-- A token is read in the same way at any offset. -/
theorem tokenAt_of_eq_token {o : Nat} {c : Char} {rest lexeme after : Text} {kind : TokenKind}
    (h : lexicon.tokenAt o c rest = token kind lexeme o after) (o' : Nat) :
    lexicon.tokenAt o' c rest = token kind lexeme o' after := by
  unfold tokenAt at h ⊢
  split_ifs at h ⊢
  · cases hs : Text.splitQuoted? c rest with
    | none =>
      rw [hs] at h
      cases h
    | some found =>
      rw [hs] at h
      obtain ⟨rfl, rfl, rfl⟩ := token_inj h
      rfl
  · cases hs : lexicon.symbol? (c :: rest) with
    | none =>
      rw [hs] at h
      obtain ⟨rfl, rfl, rfl⟩ := token_inj h
      rfl
    | some s =>
      rw [hs] at h
      obtain ⟨rfl, rfl, rfl⟩ := token_inj h
      rfl

theorem isToken_of_tokenAt {o : Nat} {c : Char} {rest : Text} {t : Token} {after : Fragment}
    (hc : Text.isSpace c = false) (h : lexicon.tokenAt o c rest = (.ok t, after)) :
    lexicon.IsToken t.kind t.lexeme := by
  obtain ⟨hne, happend, hspan, hoffset⟩ := lexeme_of_tokenAt h
  obtain ⟨d, inner, hlexeme⟩ := List.exists_cons_of_ne_nil hne
  rw [hlexeme, List.cons_append, List.cons.injEq] at happend
  obtain ⟨rfl, hrest⟩ := happend
  refine ⟨fun o' => ?_, fun quote hquote => ?_⟩
  · -- Without the text behind it, the token is the whole text.
    have hafter : after = ⟨after.offset, [] ++ after.text⟩ := rfl
    rw [← hrest, hafter] at h
    have hself := tokenAt_of_append h fun _ _ => rfl
    have htoken : (.ok t, ⟨after.offset, []⟩) = token t.kind t.lexeme o [] := by
      rw [token, hoffset, ← hspan]
    rw [htoken] at hself
    rw [hlexeme] at hself ⊢
    exact read_of_tokenAt hc (tokenAt_of_eq_token hself o')
  · rcases cases_of_tokenAt h with ⟨-, hkind, -⟩ | ⟨-, s, -, hkind, -⟩ | ⟨-, -, hkind, -⟩
    · rw [hkind] at hquote
      cases hquote
      exact hc
    · rw [hkind] at hquote
      cases hquote
    · rw [hkind, wordKind] at hquote
      split at hquote <;> cases hquote

/-- Every token of a text is one by itself. -/
theorem isToken_of_mem_read {f : Fragment} {t : Token} (h : t ∈ (lexicon.read f).tokens) :
    lexicon.IsToken t.kind t.lexeme := by
  induction hn : f.text.length using Nat.strongRecOn generalizing f with
  | ind n ih =>
    rw [read_eq] at h
    split at h
    · cases h
    · cases h
    · rename_i first after hnext
      rcases List.mem_cons.1 h with rfl | hlater
      · obtain ⟨gap, c, rest, -, hc, -, htoken⟩ := gap_of_next? hnext
        exact isToken_of_tokenAt hc htoken
      · exact ih _ (hn ▸ next?_length hnext) hlater rfl

/-! ## White space around tokens -/

theorem IsToken.ends {kind : TokenKind} {lexeme behind : Text} (h : lexicon.IsToken kind lexeme)
    (hbehind : ∀ c ∈ behind.head?, Text.isSpace c) : lexicon.Ends behind kind := by
  have hends : lexicon.endsWord behind := by
    cases behind with
    | nil => rfl
    | cons c behind => simp [endsWord, hbehind c rfl]
  have hne {d : Char} (hd : Text.isSpace d = false) : behind.head? ≠ some d := by
    intro hhead
    rw [hbehind d hhead] at hd
    cases hd
  cases kind with
  | symbol _ => trivial
  | quoted quote => exact hne (h.notSpace quote rfl)
  | word => exact ⟨hends, hne (by decide)⟩
  | keyword _ => exact ⟨hends, hne (by decide)⟩

theorem read_blank_append (lexicon : Lexicon) {gap : Text} (hgap : Text.isBlank gap) (o : Nat)
    (b : Text) : lexicon.read ⟨o, gap ++ b⟩ = lexicon.read ⟨o + Text.size gap, b⟩ :=
  read_append (lexicon.read_of_isBlank hgap o) (by simp)

/-- A token is read in front of white space, and what is behind it by itself. -/
theorem IsToken.read_append {kind : TokenKind} {lexeme behind : Text}
    (h : lexicon.IsToken kind lexeme) (hbehind : ∀ c ∈ behind.head?, Text.isSpace c) (o : Nat) :
    lexicon.read ⟨o, lexeme ++ behind⟩ =
      (lexicon.read ⟨o + Text.size lexeme, behind⟩).push
        ⟨kind, lexeme, ⟨o, o + Text.size lexeme⟩⟩ := by
  refine Lexicon.read_append (h.read o) fun last hlast => ?_
  cases hlast
  exact h.ends hbehind

/-- Tokens that are written with white space between them are read again. -/
theorem exists_read_of_spaced {lexemes : List Text} {t : Text} (h : Text.Spaced lexemes t)
    {ts : List Token} (hlexemes : ts.map Token.lexeme = lexemes)
    (hts : ∀ u ∈ ts, lexicon.IsToken u.kind u.lexeme) (o : Nat) :
    ∃ us, lexicon.read ⟨o, t⟩ = ⟨us, none⟩ ∧ us.map Token.form = ts.map Token.form := by
  induction h generalizing ts o with
  | none hgap =>
    rw [List.map_eq_nil_iff.1 hlexemes]
    exact ⟨[], lexicon.read_of_isBlank hgap o, rfl⟩
  | @last lead word gap hlead hgap =>
    obtain ⟨u, rest, rfl, rfl, hrest⟩ := List.map_eq_cons_iff.1 hlexemes
    rw [List.map_eq_nil_iff.1 hrest] at hts ⊢
    have hspace : ∀ c ∈ gap.head?, Text.isSpace c := fun c hc =>
      Text.isSpace_of_isBlank hgap c (List.mem_of_mem_head? hc)
    have htoken := hts u (List.mem_cons_self ..)
    rw [lexicon.read_blank_append hlead, htoken.read_append hspace, lexicon.read_of_isBlank hgap]
    exact ⟨_, rfl, rfl⟩
  | @more lead word gap next rest words hlead hgap hne _ ih =>
    obtain ⟨u, later, rfl, rfl, hlater⟩ := List.map_eq_cons_iff.1 hlexemes
    have htoken := hts u (List.mem_cons_self ..)
    obtain ⟨us, hread, hforms⟩ := ih hlater (fun v hv => hts v (List.mem_cons_of_mem _ hv))
      (o + Text.size lead + Text.size u.lexeme + Text.size gap)
    rw [lexicon.read_blank_append hlead,
      htoken.read_append (Text.isSpace_head_of_isBlank hgap hne rest),
      lexicon.read_blank_append hgap, hread]
    exact ⟨_, rfl, by rw [List.map_cons, List.map_cons, hforms]; rfl⟩

theorem aligned_complete {A : Alignment} {stream stream' : TokenStream}
    (h : Aligned A stream stream') : Aligned A stream.complete stream'.complete := by
  obtain ⟨ts, fault⟩ := stream
  obtain ⟨ts', fault'⟩ := stream'
  have hfault : Aligned A fault fault' := h.fault
  cases hfault with
  | none => exact .ok h.tokens
  | some he => exact .error he

/-- The tokens of a text behind `n` bytes, or its fault. -/
theorem complete_read (lexicon : Lexicon) (n : Nat) (b : Text) :
    (lexicon.read ⟨n, b⟩).complete =
      ((lexicon.tokenize b).map fun us => us.map (Token.shift n)).mapError (Located.shift n) := by
  have hread := lexicon.aligned_read (Fragment.aligned_shift n 0 b)
  rw [Nat.zero_add] at hread
  refine Except.eq_map_of_aligned (fun _ _ => eq_map_of_aligned fun t t' ht => ?_)
    (fun _ _ => Located.eq_shift fun _ _ => Eq.symm) (aligned_complete hread)
  cases t'
  rw [Token.shift, ← Span.eq_shift ht.span, ht.kind, ht.lexeme]

/-- **Tokens survive re-spacing.** The tokens of a text stay what they are when they are written
with any white space between them, and a text behind them and white space is divided as it is by
itself, in its place. -/
theorem tokenize_spaced (lexicon : Lexicon) {a : Text} {ts : List Token}
    (h : lexicon.tokenize a = .ok ts) :
    (∀ t, Text.Spaced (ts.map Token.lexeme) t →
      ∃ us, lexicon.tokenize t = .ok us ∧ us.map Token.form = ts.map Token.form) ∧
    ∀ gap b, gap ≠ [] → Text.isBlank gap →
      lexicon.tokenize (a ++ gap ++ b) =
        ((lexicon.tokenize b).map fun us =>
          ts ++ us.map (Token.shift (Text.size (a ++ gap)))).mapError
            (Located.shift (Text.size (a ++ gap))) := by
  have hread : lexicon.read (.ofText a) = ⟨ts, none⟩ := TokenStream.eq_of_complete_eq_ok h
  have hts : ∀ u ∈ ts, lexicon.IsToken u.kind u.lexeme := by
    intro u hu
    have hmem : u ∈ (lexicon.read (.ofText a)).tokens := by rwa [hread]
    exact isToken_of_mem_read hmem
  constructor
  · intro t ht
    obtain ⟨us, hus, hforms⟩ := exists_read_of_spaced ht rfl hts 0
    exact ⟨us, by rw [tokenize, Fragment.ofText, hus]; rfl, hforms⟩
  · intro gap b hne hgap
    have hends : ∀ last ∈ ts.getLast?, lexicon.Ends (gap ++ b) last.kind := fun last hlast =>
      (hts last (List.mem_of_mem_getLast? hlast)).ends (Text.isSpace_head_of_isBlank hgap hne b)
    have hplace : (Fragment.ofText a).stop + Text.size gap = Text.size (a ++ gap) := by
      simp [Fragment.stop, Fragment.ofText]
    have hboth := Lexicon.read_append hread hends
    rw [lexicon.read_blank_append hgap, hplace] at hboth
    calc lexicon.tokenize (a ++ gap ++ b)
        = (lexicon.read ⟨0, a ++ (gap ++ b)⟩).complete := by
          rw [List.append_assoc]
          rfl
      _ = (lexicon.read ⟨Text.size (a ++ gap), b⟩).complete.map (ts ++ ·) := by
          rw [← TokenStream.complete_append, ← hboth]
          rfl
      _ = _ := by
          rw [complete_read]
          cases lexicon.tokenize b <;> rfl

/-- White space stands in a quoted text and may be a quote itself, a doubled quote is no end, and a
mark that makes a symbol with a brace behind it is apart from the brace, which quotes. -/
theorem tokenize_spaced_quotes :
    let lexicon : Lexicon := .ofLists [.SELECT] [.openBind, .comma] ['\'', ' ', '\x7b']
    let a : Text := "select,'it'' s'a$".toList
    let ts : List Token := [⟨.keyword .SELECT, "select".toList, ⟨0, 6⟩⟩,
      ⟨.symbol .comma, [','], ⟨6, 7⟩⟩, ⟨.quoted '\'', "'it'' s'".toList, ⟨7, 15⟩⟩,
      ⟨.word, ['a', '$'], ⟨15, 17⟩⟩]
    let t : Text := " select\n,\u00a0 'it'' s'\ta$".toList
    lexicon.tokenize a = .ok ts ∧
      (∃ us, lexicon.tokenize t = .ok us ∧ us.map Token.form = ts.map Token.form) ∧
      lexicon.tokenize (a ++ [' '] ++ "\x7b,".toList) =
        .error ⟨.unterminatedQuote '\x7b', ⟨18, 20⟩⟩ := by
  intro lexicon a ts t
  have hts : lexicon.tokenize a = .ok ts := by decide +kernel
  have hlast : Text.Spaced [['a', '$']] ([] ++ (['a', '$'] ++ [])) := .last rfl rfl
  have ht : Text.Spaced (ts.map Token.lexeme) t :=
    @Text.Spaced.more [' '] _ ['\n'] _ _ _ rfl rfl (by decide)
      (@Text.Spaced.more [] _ ['\u00a0'] _ _ _ rfl rfl (by decide)
        (@Text.Spaced.more [' '] _ ['\t'] _ _ _ rfl rfl (by decide) hlast))
  have hboth := tokenize_spaced lexicon hts
  have hfault : lexicon.tokenize "\x7b,".toList = .error ⟨.unterminatedQuote '\x7b', ⟨0, 2⟩⟩ := by
    decide +kernel
  have hbehind := hboth.2 [' '] "\x7b,".toList (by decide) rfl
  rw [hfault] at hbehind
  exact ⟨hts, hboth.1 t ht, hbehind⟩

end Lexicon

end QueryTemplate
