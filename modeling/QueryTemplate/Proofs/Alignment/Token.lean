import QueryTemplate.Proofs.Alignment.Basic
import QueryTemplate.Token.Lexer

/-! # Tokens of aligned texts

The lexer reads the same tokens from a text wherever it stands. Every token and every fault starts
and stops at an edge of the text, so the places are matched.
-/

namespace QueryTemplate

instance : Alignable LexicalCause := .plain

structure Token.Alike (A : Alignment) (t t' : Token) : Prop where
  kind : t.kind = t'.kind
  lexeme : t.lexeme = t'.lexeme
  span : Aligned A t.span t'.span

instance : Alignable Token := ⟨Token.Alike⟩

structure TokenStream.Alike (A : Alignment) (s s' : TokenStream) : Prop where
  tokens : Aligned A s.tokens s'.tokens
  fault : Aligned A s.fault s'.fault

instance : Alignable TokenStream := ⟨TokenStream.Alike⟩

/-! ## Where tokens end -/

theorem Text.getLast?_of_splitQuoted? {quote : Char} {t inner after : Text}
    (h : Text.splitQuoted? quote t = some (inner, after)) : inner.getLast? = some quote := by
  fun_induction Text.splitQuoted? quote t generalizing inner after with
  | case1 => cases h
  | case2 =>
    obtain ⟨rfl, -⟩ := Prod.mk.inj (Option.some.inj h)
    rfl
  | case3 => cases h
  | case4 rest ih =>
    obtain ⟨⟨u, v⟩, hs, huv⟩ := Option.map_eq_some_iff.1 h
    obtain ⟨rfl, -⟩ := Prod.mk.inj huv
    have hu := ih hs
    cases u with
    | nil => cases hu
    | cons e u => simpa using hu
  | case5 =>
    obtain ⟨rfl, -⟩ := Prod.mk.inj (Option.some.inj h)
    rfl
  | case6 c d rest _ ih =>
    obtain ⟨⟨u, v⟩, hs, huv⟩ := Option.map_eq_some_iff.1 h
    obtain ⟨rfl, -⟩ := Prod.mk.inj huv
    have hu := ih hs
    cases u with
    | nil => cases hu
    | cons e u => simpa using hu

theorem Lexicon.not_isSpace_of_mem_splitWord {lexicon : Lexicon} {t : Text} {c : Char}
    (h : c ∈ (lexicon.splitWord t).1) : Text.isSpace c = false := by
  induction t with
  | nil => cases h
  | cons d rest ih =>
    rw [Lexicon.splitWord] at h
    split at h
    · cases h
    · rename_i hd
      rcases List.mem_cons.1 h with rfl | h
      · simp only [Lexicon.endsWord, Bool.or_eq_true, not_or, Bool.not_eq_true] at hd
        exact hd.1.1
      · exact ih h

theorem Text.ne_blank_of_not_isSpace {c : Char} (h : Text.isSpace c = false) : c ≠ ' ' := by
  rintro rfl
  exact absurd h (by decide)

theorem Symbol.getLast?_text (s : Symbol) : ∃ c, s.text.getLast? = some c ∧ c ≠ ' ' := by
  cases s <;> exact ⟨_, rfl, by decide⟩

namespace Lexicon

theorem symbol?_isPrefix {lexicon : Lexicon} {t : Text} {s : Symbol}
    (h : lexicon.symbol? t = some s) : s.text <+: t := by
  rw [symbol?] at h
  have hs := List.find?_some h
  exact List.isPrefixOf_iff_prefix.1 hs

theorem read_eq (lexicon : Lexicon) (source : Fragment) :
    lexicon.read source = match lexicon.next? source with
      | none => ⟨[], none⟩
      | some (.error fault, _) => ⟨[], some fault⟩
      | some (.ok token, after) => (lexicon.read after).push token := by
  rw [read]
  split <;> simp_all

variable {A : Alignment} {o o' : Nat}

theorem aligned_token (kind : TokenKind) {lexeme after : Text}
    (h : Aligned A (⟨o, lexeme ++ after⟩ : Fragment) ⟨o', lexeme ++ after⟩)
    (hstart : Text.IsEdge [] (lexeme ++ after)) (hstop : Text.IsEdge lexeme after) :
    Aligned A (token kind lexeme o after) (token kind lexeme o' after) :=
  ⟨.ok ⟨rfl, rfl, h.cut [] _ rfl hstart, h.cut lexeme after rfl hstop⟩, h.behind⟩

theorem aligned_tokenAt (lexicon : Lexicon) {c : Char} {rest : Text}
    (hc : Text.isSpace c = false)
    (h : Aligned A (⟨o, c :: rest⟩ : Fragment) ⟨o', c :: rest⟩) :
    Aligned A (tokenAt lexicon o c rest) (tokenAt lexicon o' c rest) := by
  have hne := Text.ne_blank_of_not_isSpace hc
  have hstart : Text.IsEdge [] (c :: rest) := .inl (by simpa using hne)
  unfold tokenAt
  split
  · split
    · rename_i inner after hs
      obtain rfl := Text.splitQuoted?_append hs
      refine aligned_token _ h hstart (.inr ⟨c, ?_, hne⟩)
      rw [List.getLast?_cons, Text.getLast?_of_splitQuoted? hs]
      rfl
    · have hstop := h.stop
      exact ⟨.error ⟨rfl, h.start hne, hstop⟩, rfl, fun u v huv _ => by
        obtain ⟨rfl, rfl⟩ := List.append_eq_nil_iff.1 huv.symm
        exact hstop⟩
  · split
    · rename_i s hs
      obtain ⟨after, hafter⟩ := symbol?_isPrefix hs
      rw [← hafter] at h hstart ⊢
      rw [List.drop_left]
      exact aligned_token _ h hstart (.inr s.getLast?_text)
    · have happ := lexicon.splitWord_append rest
      have hword : ∀ d ∈ (lexicon.splitWord rest).1, Text.isSpace d = false :=
        fun d hd => not_isSpace_of_mem_splitWord hd
      revert happ hword
      generalize lexicon.splitWord rest = p
      obtain ⟨word, after⟩ := p
      rintro rfl hword
      refine aligned_token _ h hstart (.inr ⟨word.getLast?.getD c, by rw [List.getLast?_cons], ?_⟩)
      rcases List.eq_nil_or_concat word with rfl | ⟨u, d, rfl⟩
      · exact hne
      · simpa using Text.ne_blank_of_not_isSpace (hword d (by simp))

theorem aligned_next? (lexicon : Lexicon) {f f' : Fragment} (h : Aligned A f f') :
    Aligned A (next? lexicon f) (next? lexicon f') := by
  obtain ⟨o', t'⟩ := f'
  fun_induction next? lexicon f generalizing o' t' with
  | case1 o =>
    obtain rfl : [] = t' := h.text
    rw [next?]
    exact .none
  | case2 o c rest hc ih =>
    obtain rfl : c :: rest = t' := h.text
    rw [next?, if_pos hc]
    exact ih _ _ h.tail
  | case3 o c rest hc =>
    obtain rfl : c :: rest = t' := h.text
    rw [next?, if_neg hc]
    exact .some (aligned_tokenAt lexicon (by simpa using hc) h)

theorem aligned_read (lexicon : Lexicon) {f f' : Fragment} (h : Aligned A f f') :
    Aligned A (lexicon.read f) (lexicon.read f') := by
  induction hn : f.text.length using Nat.strongRecOn generalizing f f' with
  | ind n ih =>
    have hnext := aligned_next? lexicon h
    rw [read_eq lexicon f, read_eq lexicon f']
    generalize hf : lexicon.next? f = found, lexicon.next? f' = found' at hnext
    cases hnext with
    | none => exact ⟨.nil, .none⟩
    | @some first first' hfirst =>
      obtain ⟨item, after⟩ := first
      obtain ⟨item', after'⟩ := first'
      obtain ⟨hitem, hafter⟩ := hfirst
      cases hitem with
      | error hfault => exact ⟨.nil, .some hfault⟩
      | ok htoken =>
        have hrest := ih _ (hn ▸ next?_length hf) hafter rfl
        exact ⟨.cons htoken hrest.tokens, hrest.fault⟩

end Lexicon

end QueryTemplate
