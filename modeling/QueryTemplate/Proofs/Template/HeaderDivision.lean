import QueryTemplate.Proofs.Template.Printing
import QueryTemplate.Proofs.Token.Division

/-! # The division of a header into tokens

Quotes in a directive are followed twice. To find the brace that closes the directive, only the
open quote is kept in mind; the tokens of the header are then read with no regard to how its end
was found. Both agree: a quoted token is what stands between two quotes that are followed, and no
other token holds a quote. Outside quotes a word goes on as long as it can, and any other character
is white space or a token of its own.
-/

namespace QueryTemplate

/-! ## Open quotes -/

namespace Directive

/-- The quote that is open behind a text that begins outside quotes. -/
def openBehind (t : Text) : Option Char := t.foldl quoteBehind none

theorem openBehind_append {u : Text} (h : openBehind u = none) (v : Text) :
    openBehind (u ++ v) = openBehind v := by
  rw [openBehind, List.foldl_append, show u.foldl quoteBehind none = none from h, openBehind]

theorem openBehind_concat (u : Text) (c : Char) :
    openBehind (u ++ [c]) = quoteBehind (openBehind u) c := by
  rw [openBehind, List.foldl_append]
  rfl

theorem openBehind_of_notQuote {t : Text} (h : ∀ c ∈ t, HeaderToken.isQuote c = false) :
    openBehind t = none := by
  induction t with
  | nil => rfl
  | cons c t ih =>
    obtain ⟨hc, ht⟩ := List.forall_mem_cons.1 h
    have hhead : openBehind [c] = none := if_neg (by simp [hc])
    rw [← List.singleton_append, openBehind_append hhead, ih ht]

/-- A quote stays open up to the next one of its kind. -/
theorem openBehind_open {quote : Char} (hquote : HeaderToken.isQuote quote) {inner : Text}
    (h : quote ∉ inner) : openBehind (quote :: inner) = some quote := by
  have hinner : inner.foldl quoteBehind (some quote) = some quote := by
    induction inner with
    | nil => rfl
    | cons c inner ih =>
      obtain ⟨hne, hrest⟩ := List.ne_and_not_mem_of_not_mem_cons h
      rw [List.foldl_cons, quoteBehind, if_neg hne.symm, ih hrest]
  rw [openBehind, List.foldl_cons, quoteBehind, if_pos hquote, hinner]

/-- A text between quotes, as they are followed: a quote is open everywhere inside it, and none is
open behind it. -/
structure IsQuoted (text : Text) : Prop where
  long : 1 < text.length
  inside (u v : Text) : text = u ++ v → u ≠ [] → v ≠ [] → openBehind u ≠ none
  closed : openBehind text = none

theorem isQuoted_of_notMem {quote : Char} (hquote : HeaderToken.isQuote quote) {inner : Text}
    (h : quote ∉ inner) : IsQuoted (quote :: inner ++ [quote]) := by
  refine ⟨by simp, fun u v huv hu hv => ?_, (endsOutside_quoted hquote h).closed⟩
  obtain ⟨d, w, rfl⟩ := List.exists_cons_of_ne_nil hu
  obtain ⟨x, e, rfl⟩ := (List.eq_nil_or_concat v).resolve_left hv
  rw [List.concat_eq_append, ← List.append_assoc] at huv
  obtain ⟨hcons, -⟩ := List.append_inj' huv rfl
  obtain ⟨rfl, rfl⟩ := List.cons.inj hcons
  rw [openBehind_open hquote fun hmem => h (List.mem_append_left _ hmem)]
  exact Option.some_ne_none _

/-- A text between quotes holds the quote that opens it at its ends only. -/
theorem IsQuoted.exists_quote {text : Text} (h : IsQuoted text) : ∃ quote inner,
    HeaderToken.isQuote quote ∧ quote ∉ inner ∧ text = quote :: inner ++ [quote] := by
  obtain ⟨hlong, hinside, hclosed⟩ := h
  obtain ⟨front, d, rfl⟩ := (List.eq_nil_or_concat text).resolve_left (by rintro rfl; cases hlong)
  rw [List.concat_eq_append] at hlong hinside hclosed ⊢
  cases front with
  | nil => exact absurd hlong (Nat.lt_irrefl 1)
  | cons quote inner =>
    have hquote : HeaderToken.isQuote quote := by
      by_contra hnot
      exact hinside [quote] (inner ++ [d]) rfl (by simp) (by simp) (if_neg hnot)
    have hinner : quote ∉ inner := by
      -- A quote inside would close what the first one has opened.
      intro hmem
      obtain ⟨u, v, rfl, hu⟩ := List.eq_append_cons_of_mem hmem
      exact hinside (quote :: u ++ [quote]) (v ++ [d]) (by simp) (by simp) (by simp)
        (isQuoted_of_notMem hquote hu).closed
    rw [openBehind_concat, openBehind_open hquote hinner] at hclosed
    obtain rfl : d = quote := by
      by_contra hne
      rw [quoteBehind, if_neg hne] at hclosed
      cases hclosed
    exact ⟨d, inner, hquote, hinner, rfl⟩

/-- A text between quotes does not begin with a shorter one. -/
theorem IsQuoted.eq_of_append {a b x y : Text} (ha : IsQuoted a) (hb : IsQuoted b)
    (h : a ++ x = b ++ y) : a = b := by
  have hall {u w : Text} (hu : IsQuoted u) (huw : IsQuoted (u ++ w)) : w = [] := by
    have hne : u ≠ [] := List.ne_nil_of_length_pos (Nat.lt_trans Nat.zero_lt_one hu.long)
    by_contra hw
    exact huw.inside u w rfl hne hw hu.closed
  rcases List.append_eq_append_iff.1 h with ⟨w, rfl, -⟩ | ⟨w, rfl, -⟩
  · rw [hall ha hb, List.append_nil]
  · rw [hall hb ha, List.append_nil]

/-- Reading a header up to its end can be taken up at any place of it, with the quote that is open
there. -/
theorem splitHeader?_resume {quote : Option Char} {before rest after : Text}
    (h : EndsOutside quote (before ++ rest)) :
    splitHeader? (before.foldl quoteBehind quote) (rest ++ '\x7d' :: after) =
      some (rest, after) := by
  refine splitHeader?_eq_some_iff.2 ⟨rfl, ?_, fun u v huv => ?_⟩
  · rw [← List.foldl_append, h.closed]
  · rw [← List.foldl_append]
    exact h.brace (before ++ u) v (by rw [huv, List.append_assoc])

end Directive

/-! ## Kinds of tokens -/

namespace HeaderToken

theorem notQuote_of_isSeparator {c : Char} (h : isSeparator c) : isQuote c = false := by
  simp only [isSeparator, Bool.or_eq_true, decide_eq_true_eq] at h
  rcases h with (((rfl | rfl) | rfl) | rfl) | rfl <;> rfl

theorem notQuote_of_startsWord {c : Char} (h : startsWord c) : isQuote c = false :=
  (plain_of_continuesWord (continuesWord_of_startsWord h)).1

theorem IsWord.notQuote {word : Text} (h : IsWord word) : ∀ c ∈ word, isQuote c = false :=
  fun c hc => (h.plain c hc).1

end HeaderToken

namespace HeaderKind

open HeaderToken Directive

/-- Whether a token of the kind is a word, a keyword or not. -/
def IsBare : HeaderKind → Prop
  | opening _ | closing _ | inWord | joinWord | name => True
  | quoted | invalid => False

def keyword? : HeaderKind → Option Text
  | opening block => some block.openWord
  | closing block => some block.closeWord
  | inWord => some "in".toList
  | joinWord => some "join".toList
  | name | quoted | invalid => none

theorem isBare_ofWord (word : Text) : (ofWord word).IsBare := by
  unfold ofWord
  split_ifs <;> trivial

theorem isBare_of_keyword? {kind : HeaderKind} {word : Text} (h : kind.keyword? = some word) :
    kind.IsBare := by
  cases kind with
  | quoted => cases h
  | invalid => cases h
  | _ => trivial

theorem mem_keywords_of_keyword? {kind : HeaderKind} {word : Text}
    (h : kind.keyword? = some word) : word ∈ keywords := by
  rcases kind with (_ | _) | (_ | _) | _ | _ | _ | _ | _ <;> cases h <;> decide

/-- A word is a keyword if it is spelled like it, and only then. -/
theorem ofWord_eq_iff {kind : HeaderKind} {word text : Text} (h : kind.keyword? = some word) :
    ofWord text = kind ↔ text = word := by
  constructor
  · rintro rfl
    have hspells := spells_ofWord text
    generalize ofWord text = kind at h hspells
    cases kind <;> cases h <;> exact hspells
  · rintro rfl
    rcases kind with (_ | _) | (_ | _) | _ | _ | _ | _ | _ <;> cases h <;> decide

/-- What a token of the kind covers, with `after` behind it: a word that does not go on, a quote up
to the next one of its kind, or a character that begins neither and is no white space. -/
inductive Covers : HeaderKind → Text → Text → Prop where
  | word {kind : HeaderKind} {word after : Text} : kind = ofWord word → IsWord word →
    (∀ c ∈ after.head?, continuesWord c = false) → Covers kind word after
  | quoted {quote : Char} {inner after : Text} : isQuote quote → quote ∉ inner →
    Covers quoted (quote :: inner ++ [quote]) after
  | other {c : Char} {after : Text} : isSeparator c = false → startsWord c = false →
    isQuote c = false → Covers invalid [c] after

namespace Covers

variable {kind : HeaderKind} {text after : Text} (h : kind.Covers text after)
include h

theorem ne_nil : text ≠ [] := by
  cases h with
  | word _ hword _ => exact hword.ne_nil
  | quoted _ _ => exact List.cons_ne_nil _ _
  | other _ _ _ => exact List.cons_ne_nil _ _

theorem notQuote (hkind : kind ≠ .quoted) : ∀ c ∈ text, isQuote c = false := by
  cases h with
  | word _ hword _ => exact hword.notQuote
  | quoted _ _ => exact absurd rfl hkind
  | other _ _ hquote => simpa using hquote

theorem isQuoted (hkind : kind = .quoted) : IsQuoted text := by
  cases h with
  | word hof _ _ =>
    have hbare : kind.IsBare := hof ▸ isBare_ofWord _
    rw [hkind] at hbare
    exact hbare.elim
  | quoted hquote hinner => exact isQuoted_of_notMem hquote hinner
  | other _ _ _ => cases hkind

/-- No quote is left open behind a token. -/
theorem openBehind_eq : openBehind text = none := by
  by_cases hkind : kind = .quoted
  · exact (h.isQuoted hkind).closed
  · exact openBehind_of_notQuote (h.notQuote hkind)

theorem isWord (hbare : kind.IsBare) :
    IsWord text ∧ ∀ c ∈ after.head?, continuesWord c = false := by
  cases h with
  | word _ hword hafter => exact ⟨hword, hafter⟩
  | quoted _ _ => exact hbare.elim
  | other _ _ _ => exact hbare.elim

theorem exists_char (hkind : kind = .invalid) :
    ∃ c, text = [c] ∧ isSeparator c = false ∧ startsWord c = false ∧ isQuote c = false := by
  cases h with
  | word hof _ _ =>
    have hbare : kind.IsBare := hof ▸ isBare_ofWord _
    rw [hkind] at hbare
    exact hbare.elim
  | quoted _ _ => cases hkind
  | @other c _ hseparator hstarts hquote => exact ⟨c, rfl, hseparator, hstarts, hquote⟩

/-- Any token that is spelled like a keyword is that keyword. -/
theorem eq_keyword_iff {keyword : HeaderKind} {word : Text}
    (hkeyword : keyword.keyword? = some word) : kind = keyword ↔ text = word := by
  have hbare := isBare_of_keyword? hkeyword
  have hword := BlockOpening.isWord_of_mem_keywords word (mem_keywords_of_keyword? hkeyword)
  cases h with
  | word hkind _ _ => rw [hkind, ofWord_eq_iff hkeyword]
  | @quoted quote inner _ hquote _ =>
    refine iff_of_false (by rintro rfl; exact hbare) ?_
    rintro rfl
    rw [hword.notQuote quote (by simp)] at hquote
    cases hquote
  | @other c _ _ hstarts _ =>
    refine iff_of_false (by rintro rfl; exact hbare) ?_
    rintro rfl
    rw [hword.head c rfl] at hstarts
    cases hstarts

section

variable {u v : Text} {c : Char} (htext : text = u ++ c :: v) (hopen : openBehind u = none)
include htext hopen

/-- A quote that opens begins a quoted token. -/
theorem quoted_of_isQuote (hc : isQuote c) : kind = .quoted ∧ u = [] := by
  have hkind : kind = .quoted := by
    by_contra hne
    rw [h.notQuote hne c (by simp [htext])] at hc
    cases hc
  refine ⟨hkind, ?_⟩
  by_contra hu
  exact (h.isQuoted hkind).inside u (c :: v) htext hu (List.cons_ne_nil _ _) hopen

/-- A character that can begin a word belongs to one, if it is outside quotes. -/
theorem isBare_of_startsWord (hc : startsWord c) : kind.IsBare := by
  cases h with
  | word hof _ _ => exact hof ▸ isBare_ofWord _
  | @quoted quote inner _ hquote hinner =>
    cases u with
    | nil =>
      obtain ⟨rfl, -⟩ := List.cons.inj htext
      rw [notQuote_of_startsWord hc] at hquote
      cases hquote
    | cons d u =>
      exact absurd hopen ((isQuoted_of_notMem hquote hinner).inside _ _ htext (by simp) (by simp))
  | @other d _ _ hstarts _ =>
    have hmem : c ∈ [d] := by simp [htext]
    rw [List.mem_singleton.1 hmem, hstarts] at hc
    cases hc

end

end Covers

end HeaderKind

/-! ## Places of tokens -/

namespace HeaderToken

open Directive (openBehind openBehind_append openBehind_of_notQuote openBehind_open IsQuoted)

/-- The token stands in the header between `before`, which leaves no quote open, and `after`. -/
structure Stands (o : Nat) (header : Text) (t : HeaderToken) (before after : Text) : Prop where
  text : header = before ++ (t.text ++ after)
  span : t.span = ⟨o + Text.size before, o + Text.size before + Text.size t.text⟩
  covers : t.kind.Covers t.text after
  outside : openBehind before = none

section

variable {o : Nat} {gap text after : Text} {kind : HeaderKind}

theorem openBehind_of_separators (hgap : ∀ c ∈ gap, isSeparator c) : openBehind gap = none :=
  openBehind_of_notQuote fun c hc => notQuote_of_isSeparator (hgap c hc)

theorem stands_covering (hgap : ∀ c ∈ gap, isSeparator c) (hcovers : kind.Covers text after) :
    (covering kind (o + Text.size gap) text).Stands o (gap ++ (text ++ after)) gap after :=
  ⟨rfl, rfl, hcovers, openBehind_of_separators hgap⟩

/-- What stands behind a token stands behind it in the whole header. -/
theorem Stands.behind {t : HeaderToken} {before last : Text} (hgap : ∀ c ∈ gap, isSeparator c)
    (hcovers : kind.Covers text after)
    (h : t.Stands (o + Text.size gap + Text.size text) after before last) :
    t.Stands o (gap ++ (text ++ after)) (gap ++ (text ++ before)) last := by
  refine ⟨by simp [h.text], ?_, h.covers, ?_⟩
  · rw [h.span]
    simp only [Text.size_append, Nat.add_assoc]
  · rw [openBehind_append (openBehind_of_separators hgap), openBehind_append hcovers.openBehind_eq,
      h.outside]

end

/-- The tokens of a header that starts at offset `o`, with white space around them. -/
inductive Divides : Nat → Text → List HeaderToken → Prop where
  | blank {o : Nat} {gap : Text} : (∀ c ∈ gap, isSeparator c) → Divides o gap []
  | token {o : Nat} {gap text after : Text} {kind : HeaderKind} {tokens : List HeaderToken} :
    (∀ c ∈ gap, isSeparator c) → kind.Covers text after →
    Divides (o + Text.size gap + Text.size text) after tokens →
    Divides o (gap ++ (text ++ after)) (covering kind (o + Text.size gap) text :: tokens)

namespace Divides

section

variable {o : Nat} {header : Text} {tokens : List HeaderToken} {c : Char}

theorem separator (hc : isSeparator c) (h : Divides (o + c.utf8Size) header tokens) :
    Divides o (c :: header) tokens := by
  cases h with
  | blank hgap => exact .blank (List.forall_mem_cons.2 ⟨hc, hgap⟩)
  | @token _ gap text after kind tokens hgap hcovers hafter =>
    have htoken := @token o (c :: gap) text after kind tokens
      (List.forall_mem_cons.2 ⟨hc, hgap⟩) hcovers
    simp only [Text.size_cons, ← Nat.add_assoc] at htoken
    exact htoken hafter

/-- A token at the beginning of the header. -/
theorem lead {text after : Text} {kind : HeaderKind} (hcovers : kind.Covers text after)
    (h : Divides (o + Text.size text) after tokens) :
    Divides o (text ++ after) (covering kind o text :: tokens) :=
  @token o [] text after kind tokens (by simp) hcovers h

/-- A header that closes its quotes is divided into its tokens. -/
theorem divides_scan (h : openBehind header = none) : Divides o header (scan o header) := by
  fun_induction scan o header with
  | case1 => exact .blank (by simp)
  | case2 o c rest hseparator ih =>
    have hhead : openBehind [c] = none := openBehind_of_separators (by simpa using hseparator)
    rw [← List.singleton_append, openBehind_append hhead] at h
    exact (ih h).separator hseparator
  | case3 o c rest _ hstarts word ih =>
    have hword : (HeaderKind.ofWord word).Covers word (rest.dropWhile continuesWord) := by
      refine .word rfl ⟨List.cons_ne_nil _ _, by simpa [word] using hstarts, ?_⟩ fun d hd => ?_
      · exact fun d hd => List.mem_takeWhile_imp hd
      · have hnot := List.head?_dropWhile_not continuesWord rest
        rw [hd] at hnot
        exact hnot
    have hheader : c :: rest = word ++ rest.dropWhile continuesWord := by simp [word]
    rw [hheader] at h ⊢
    rw [openBehind_append hword.openBehind_eq] at h
    exact lead hword (ih h)
  | case4 o c rest _ _ hquote inner after hsplit quoted ih =>
    obtain ⟨hrest, hinner⟩ := Text.splitFirst?_eq_some hsplit
    have hquoted : HeaderKind.quoted.Covers quoted after := .quoted hquote hinner
    have hheader : c :: rest = quoted ++ after := by simp [quoted, hrest]
    rw [hheader] at h ⊢
    rw [openBehind_append hquoted.openBehind_eq] at h
    exact lead hquoted (ih h)
  | case5 o c rest _ _ hquote hsplit =>
    -- Without a second quote the first one would stay open.
    rw [openBehind_open hquote (Text.splitFirst?_eq_none_iff.1 hsplit)] at h
    cases h
  | case6 o c rest hseparator hstarts hquote ih =>
    have hother : HeaderKind.invalid.Covers [c] rest :=
      .other (by simpa using hseparator) (by simpa using hstarts) (by simpa using hquote)
    rw [← List.singleton_append, openBehind_append hother.openBehind_eq] at h
    exact lead hother (ih h)

end

variable {o : Nat} {header : Text} {tokens : List HeaderToken}
variable (h : Divides o header tokens)
include h

theorem stands : ∀ t ∈ tokens, ∃ before after, t.Stands o header before after := by
  induction h with
  | blank _ => simp
  | token hgap hcovers _ ih =>
    refine List.forall_mem_cons.2 ⟨⟨_, _, stands_covering hgap hcovers⟩, fun t ht => ?_⟩
    obtain ⟨before, last, hstands⟩ := ih t ht
    exact ⟨_, last, hstands.behind hgap hcovers⟩

theorem nonempty : ∀ t ∈ tokens, t.span.start < t.span.stop := by
  intro t ht
  obtain ⟨before, after, hstands⟩ := h.stands t ht
  rw [hstands.span]
  exact Nat.lt_add_of_pos_right (Text.size_pos hstands.covers.ne_nil)

theorem ordered : tokens.Pairwise fun t u => t.span.stop ≤ u.span.start := by
  induction h with
  | blank _ => exact .nil
  | token _ _ hafter ih =>
    refine List.pairwise_cons.2 ⟨fun u hu => ?_, ih⟩
    obtain ⟨before, last, hstands⟩ := hafter.stands u hu
    rw [hstands.span]
    exact Nat.le_add_right _ _

/-- No two tokens share a place. -/
theorem eq_of_overlap {t u : HeaderToken} (ht : t ∈ tokens) (hu : u ∈ tokens)
    (htu : t.span.start < u.span.stop) (hut : u.span.start < t.span.stop) : t = u := by
  have hapart : tokens.Pairwise fun t u =>
      t.span.stop ≤ u.span.start ∨ u.span.stop ≤ t.span.start := h.ordered.imp Or.inl
  have hsymm : Std.Symm fun t u : HeaderToken =>
      t.span.stop ≤ u.span.start ∨ u.span.stop ≤ t.span.start := ⟨fun _ _ => Or.symm⟩
  by_contra hne
  rcases hapart.forall ht hu hne with hle | hle
  · exact absurd hut (Nat.not_lt.2 hle)
  · exact absurd htu (Nat.not_lt.2 hle)

/-- A character of the header is white space or belongs to a token. -/
theorem exists_of_char {before after : Text} {c : Char} (hheader : header = before ++ c :: after) :
    isSeparator c ∨ ∃ t ∈ tokens, ∃ lead last u v, t.Stands o header lead last ∧
      before = lead ++ u ∧ t.text = u ++ c :: v := by
  induction h generalizing before with
  | blank hgap => exact .inl (hgap c (by simp [hheader]))
  | token hgap hcovers _ ih =>
    rcases Text.cases_of_append_eq hheader with ⟨w, rfl⟩ | ⟨w, rfl, hw⟩
    · exact .inl (hgap c (by simp))
    rcases Text.cases_of_append_eq hw with ⟨x, hx⟩ | ⟨x, rfl, hx⟩
    · exact .inr ⟨_, List.mem_cons_self .., _, _, w, x, stands_covering hgap hcovers, rfl, hx⟩
    · refine (ih hx).imp_right ?_
      rintro ⟨t, ht, lead, last, u, v, hstands, rfl, htext⟩
      exact ⟨t, List.mem_cons_of_mem _ ht, _, last, u, v, hstands.behind hgap hcovers, by simp,
        htext⟩

/-- What lies between the tokens is white space. -/
theorem gap {before after : Text} {c : Char} (hheader : header = before ++ c :: after)
    (hnone : ∀ t ∈ tokens, o + Text.size before < t.span.start ∨
      t.span.stop ≤ o + Text.size before) : isSeparator c := by
  refine (h.exists_of_char hheader).resolve_right ?_
  rintro ⟨t, ht, lead, last, u, v, hstands, rfl, htext⟩
  have hpos := c.utf8Size_pos
  have hplace := hnone t ht
  rw [hstands.span, htext] at hplace
  simp only [Text.size_append, Text.size_cons] at hplace
  omega

end Divides

/-! ## Stretches of a header -/

/-- The text stands at the span in the fragment, and no quote is open in front of it. -/
def StandsOutside (f : Fragment) (text : Text) (span : Span) : Prop :=
  ∃ before after, f.text = before ++ (text ++ after) ∧
    span = ⟨f.offset + Text.size before, f.offset + Text.size before + Text.size text⟩ ∧
    openBehind before = none

theorem StandsOutside.slice_eq {f : Fragment} {text : Text} {span : Span}
    (h : StandsOutside f text span) : f.slice span = text := by
  obtain ⟨before, after, htext, rfl, -⟩ := h
  exact Fragment.slice_of_text htext rfl rfl

theorem Stands.standsOutside {o : Nat} {header before after : Text} {t : HeaderToken}
    (h : t.Stands o header before after) : StandsOutside ⟨o, header⟩ t.text t.span :=
  ⟨before, after, h.text, h.span, h.outside⟩

/-- A word of the header outside quotes, which is no part of a longer one. It has no quotes in it,
so all of it is outside if its beginning is. -/
structure IsLongestWord (f : Fragment) (word : Text) (span : Span) : Prop where
  stands : StandsOutside f word span
  isWord : IsWord word
  longest (other : Text) (place : Span) : StandsOutside f other place → IsWord other →
    place.start ≤ span.start → span.stop ≤ place.stop → place = span

namespace Divides

variable {o : Nat} {header : Text} {tokens : List HeaderToken}
variable (h : Divides o header tokens)
include h

/-- A word outside quotes is a token or a part of one. -/
theorem exists_of_word {word : Text} {span : Span} (hstands : StandsOutside ⟨o, header⟩ word span)
    (hword : IsWord word) :
    ∃ t ∈ tokens, t.kind.IsBare ∧ t.span.start ≤ span.start ∧ span.stop ≤ t.span.stop := by
  obtain ⟨before, after, hheader, rfl, hopen⟩ := hstands
  obtain ⟨c, tail, rfl⟩ := List.exists_cons_of_ne_nil hword.ne_nil
  have hstarts : startsWord c := hword.head c rfl
  obtain ⟨t, ht, lead, last, u, v, htoken, rfl, htext⟩ :=
    (h.exists_of_char hheader).resolve_left (not_isSeparator_of_startsWord hstarts)
  rw [openBehind_append htoken.outside] at hopen
  have hbare := htoken.covers.isBare_of_startsWord htext hopen hstarts
  have hbehind : v ++ last = tail ++ after := by
    have hboth := htoken.text.symm.trans hheader
    rw [htext] at hboth
    simpa using hboth
  have hsize : Text.size tail ≤ Text.size v := by
    rcases List.append_eq_append_iff.1 hbehind with ⟨w, hw, hlast⟩ | ⟨w, rfl, -⟩
    · cases w with
      | nil => simp [hw]
      | cons d w =>
        -- The token would go on with the rest of the word.
        have hends := (htoken.covers.isWord hbare).2 d (by simp [hlast])
        rw [hword.tail d (by simp [hw])] at hends
        cases hends
    · simp
  refine ⟨t, ht, hbare, ?_, ?_⟩
  · rw [htoken.span]
    simp
  · rw [htoken.span, htext]
    simp only [Text.size_append, Text.size_cons]
    omega

/-- The words among the tokens are the words of the header that cannot be made longer. -/
theorem isLongestWord_iff {word : Text} {span : Span} :
    (∃ kind, kind.IsBare ∧ ⟨kind, word, span⟩ ∈ tokens) ↔
      IsLongestWord ⟨o, header⟩ word span := by
  constructor
  · rintro ⟨kind, hbare, ht⟩
    obtain ⟨before, after, hstands⟩ := h.stands _ ht
    refine ⟨hstands.standsOutside, (hstands.covers.isWord hbare).1, ?_⟩
    intro other place hother hword hstart hstop
    obtain ⟨u, hu, -, hle, hge⟩ := h.exists_of_word hother hword
    have hpos := h.nonempty _ ht
    dsimp only at hpos
    obtain rfl := h.eq_of_overlap ht hu (by dsimp only; omega) (by dsimp only; omega)
    exact (Span.mk.injEq ..).mpr ⟨Nat.le_antisymm hstart hle, Nat.le_antisymm hge hstop⟩
  · intro hlongest
    obtain ⟨t, ht, hbare, hstart, hstop⟩ := h.exists_of_word hlongest.stands hlongest.isWord
    obtain ⟨before, after, hstands⟩ := h.stands t ht
    have hspan : t.span = span := hlongest.longest t.text t.span hstands.standsOutside
      (hstands.covers.isWord hbare).1 hstart hstop
    have htext : t.text = word := by
      rw [← hstands.standsOutside.slice_eq, hspan, hlongest.stands.slice_eq]
    rw [← hspan, ← htext]
    exact ⟨t.kind, hbare, ht⟩

/-- The quoted tokens are the stretches of the header between quotes. -/
theorem isQuoted_iff {text : Text} {span : Span} :
    ⟨.quoted, text, span⟩ ∈ tokens ↔ StandsOutside ⟨o, header⟩ text span ∧ IsQuoted text := by
  constructor
  · intro ht
    obtain ⟨before, after, hstands⟩ := h.stands _ ht
    exact ⟨hstands.standsOutside, hstands.covers.isQuoted rfl⟩
  · rintro ⟨⟨before, after, hheader, rfl, hopen⟩, hquoted⟩
    obtain ⟨quote, inner, hquote, -, htext⟩ := hquoted.exists_quote
    have hnot : ¬isSeparator quote := by
      intro hseparator
      rw [notQuote_of_isSeparator hseparator] at hquote
      cases hquote
    have hfirst : header = before ++ quote :: (inner ++ [quote] ++ after) := by
      rw [htext] at hheader
      exact hheader
    obtain ⟨t, ht, lead, last, u, v, hstands, rfl, hbegins⟩ :=
      (h.exists_of_char hfirst).resolve_left hnot
    rw [openBehind_append hstands.outside] at hopen
    obtain ⟨hkind, rfl⟩ := hstands.covers.quoted_of_isQuote hbegins hopen hquote
    rw [List.append_nil] at hheader ⊢
    have hsame : t.text = text := (hstands.covers.isQuoted hkind).eq_of_append hquoted <|
      List.append_cancel_left (hstands.text.symm.trans hheader)
    rw [← hkind, ← hsame]
    dsimp only
    rw [← hstands.span]
    exact ht

end Divides

/-- What the tokens of a header say about it: where they stand and what lies between them, and which
stretches of it are the tokens of each kind. -/
structure IsDivision (f : Fragment) (tokens : List HeaderToken) : Prop where
  nonempty : ∀ t ∈ tokens, t.span.start < t.span.stop
  ordered : tokens.Pairwise fun t u => t.span.stop ≤ u.span.start
  stands : ∀ t ∈ tokens, StandsOutside f t.text t.span
  gap (before : Text) (c : Char) (after : Text) : f.text = before ++ c :: after →
    (∀ t ∈ tokens, f.offset + Text.size before < t.span.start ∨
      t.span.stop ≤ f.offset + Text.size before) → isSeparator c
  quoted (text : Text) (span : Span) :
    ⟨.quoted, text, span⟩ ∈ tokens ↔ StandsOutside f text span ∧ IsQuoted text
  unquoted : ∀ t ∈ tokens, t.kind ≠ .quoted → ∀ c ∈ t.text, isQuote c = false
  word (text : Text) (span : Span) :
    (∃ kind, kind.IsBare ∧ ⟨kind, text, span⟩ ∈ tokens) ↔ IsLongestWord f text span
  keyword : ∀ t ∈ tokens, ∀ kind word, kind.keyword? = some word → (t.kind = kind ↔ t.text = word)
  other : ∀ t ∈ tokens, t.kind = .invalid →
    ∃ c, t.text = [c] ∧ isSeparator c = false ∧ startsWord c = false ∧ isQuote c = false

theorem Divides.isDivision {o : Nat} {header : Text} {tokens : List HeaderToken}
    (h : Divides o header tokens) : IsDivision ⟨o, header⟩ tokens where
  nonempty := h.nonempty
  ordered := h.ordered
  stands t ht := by
    obtain ⟨before, after, hstands⟩ := h.stands t ht
    exact hstands.standsOutside
  gap before c after hheader := h.gap hheader
  quoted text span := h.isQuoted_iff
  unquoted t ht hkind := by
    obtain ⟨before, after, hstands⟩ := h.stands t ht
    exact hstands.covers.notQuote hkind
  word text span := h.isLongestWord_iff
  keyword t ht kind word hword := by
    obtain ⟨before, after, hstands⟩ := h.stands t ht
    exact hstands.covers.eq_keyword_iff hword
  other t ht hkind := by
    obtain ⟨before, after, hstands⟩ := h.stands t ht
    exact hstands.covers.exists_char hkind

end HeaderToken

namespace Directive

/-- **Following quotes and reading tokens agree on a header.** At every place of a header that is
found, its end is found again with the quote that is open there. And wherever places are counted
from, be it the beginning of the header or that of the template, the tokens of the header are in
order with nothing but white space between them; the quoted ones are the stretches between quotes,
and no other one holds a quote; the words are the longest ones outside quotes, and each is a keyword
if and only if it is spelled like it. -/
theorem isDivision_of_read {offset : Nat} {text : Text} {d : Directive} {after : Fragment}
    (h : read offset text = .ok (d, after)) :
    (∀ before rest, d.header = before ++ rest →
      splitHeader? (openBehind before) (rest ++ '\x7d' :: after.text) = some (rest, after.text)) ∧
    ∀ o, HeaderToken.IsDivision ⟨o, d.header⟩ (HeaderToken.scan o d.header) := by
  have hheader : IsHeader d.header := (splitHeader?_eq_some_iff.1 (splitHeader?_of_read h)).2
  refine ⟨fun before rest hrest => splitHeader?_resume (hrest ▸ hheader), fun o => ?_⟩
  exact (HeaderToken.Divides.divides_scan hheader.closed).isDivision

/-- Two strings are glued to words and hold a brace, a quote of the other kind and a two-byte
character, which is also found outside quotes; names begin like keywords or differ in case only. -/
theorem isDivision_of_read_glued :
    let text : Text := "for x.y in'\x7d\"\u00E9'\u00E91IF.b if_\"'\"join\x7dz".toList
    let d : Directive := ⟨"for x.y in'\x7d\"\u00E9'\u00E91IF.b if_\"'\"join".toList, ⟨7, 44⟩⟩
    read 7 text = .ok (d, ⟨44, ['z']⟩) ∧
    d.tokens = [⟨.opening .loop, "for".toList, ⟨9, 12⟩⟩, ⟨.name, "x.y".toList, ⟨13, 16⟩⟩,
      ⟨.inWord, "in".toList, ⟨17, 19⟩⟩, ⟨.quoted, "'\x7d\"\u00E9'".toList, ⟨19, 25⟩⟩,
      ⟨.invalid, ['\u00E9'], ⟨25, 27⟩⟩, ⟨.invalid, ['1'], ⟨27, 28⟩⟩,
      ⟨.name, "IF.b".toList, ⟨28, 32⟩⟩, ⟨.name, "if_".toList, ⟨33, 36⟩⟩,
      ⟨.quoted, "\"'\"".toList, ⟨36, 39⟩⟩, ⟨.joinWord, "join".toList, ⟨39, 43⟩⟩] ∧
    (∀ before rest, d.header = before ++ rest →
      splitHeader? (openBehind before) (rest ++ ['\x7d', 'z']) = some (rest, ['z'])) ∧
    ∀ o, HeaderToken.IsDivision ⟨o, d.header⟩ (HeaderToken.scan o d.header) := by
  intro text d
  have h : read 7 text = .ok (d, ⟨44, ['z']⟩) := by decide +kernel
  exact ⟨h, by decide +kernel, isDivision_of_read h⟩

end Directive

end QueryTemplate
