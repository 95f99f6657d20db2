import Mathlib.Order.Nat
import QueryTemplate.Proofs.Alignment.Query
import QueryTemplate.Proofs.Query.Layout

/-! # Renaming a placeholder

Two query texts that differ in the name of one placeholder only have the same tokens in front of the
placeholder and behind it. Cuts out of the two texts are the same unless the placeholder lies in
them.
-/

namespace QueryTemplate

/-- A placeholder in a query text, with two names for it. -/
structure Renaming where
  before : Text
  sort : Placeholder
  name : Text
  name' : Text
  behind : Text

theorem Placeholder.size_text_pos (sort : Placeholder) (n : Text) :
    0 < Text.size (sort.text n) :=
  Text.size_pos (by cases sort <;> simp [text, opener, Symbol.text])

namespace Renaming

def write (R : Renaming) (n : Text) : Text := R.before ++ (R.sort.text n ++ R.behind)

def stop (R : Renaming) (n : Text) : Nat := Text.size R.before + Text.size (R.sort.text n)

/-- The texts are the same, but for the name of a placeholder that lies in them. -/
inductive Rewrites (R : Renaming) : Text → Text → Prop where
  | refl (t : Text) : Rewrites R t t
  | within (u v : Text) :
    Rewrites R (u ++ (R.sort.text R.name ++ v)) (u ++ (R.sort.text R.name' ++ v))

variable {R : Renaming}

/-- Texts that are not the same have the placeholder in them, each under its own name. -/
theorem Rewrites.isInfix_of_ne {t t' : Text} (h : R.Rewrites t t') (hne : t ≠ t') :
    R.sort.text R.name <:+: t ∧ R.sort.text R.name' <:+: t' := by
  cases h with
  | refl => exact absurd rfl hne
  | within u v => exact ⟨⟨u, v, List.append_assoc ..⟩, ⟨u, v, List.append_assoc ..⟩⟩

/-! ## Matching places -/

/-- An offset in front of the placeholder is matched with itself, and one behind it with the one
that is as far behind it. -/
inductive Matches (R : Renaming) : Nat → Nat → Prop where
  | before {u v : Text} : R.before = u ++ v → Matches R (Text.size u) (Text.size u)
  | behind {u v : Text} : R.behind = u ++ v →
    Matches R (R.stop R.name + Text.size u) (R.stop R.name' + Text.size u)

theorem size_before_lt_stop (R : Renaming) (n : Text) : Text.size R.before < R.stop n :=
  Nat.lt_add_of_pos_right (R.sort.size_text_pos n)

theorem Matches.mono {a a' b b' : Nat} (ha : R.Matches a a') (hb : R.Matches b b') (h : a ≤ b) :
    a' ≤ b' := by
  have hlt := R.size_before_lt_stop R.name
  have hlt' := R.size_before_lt_stop R.name'
  cases ha with
  | @before u v hu =>
    cases hb with
    | before => exact h
    | behind _ =>
      have hsize := congrArg Text.size hu
      rw [Text.size_append] at hsize
      omega
  | behind _ =>
    cases hb with
    | @before u v hu =>
      have hsize := congrArg Text.size hu
      rw [Text.size_append] at hsize
      omega
    | behind _ => omega

def places (R : Renaming) : Alignment where
  Matches := R.Matches
  min {a b a' b'} ha hb := by
    rcases Nat.le_total a b with h | h
    · rwa [Nat.min_eq_left h, Nat.min_eq_left (ha.mono hb h)]
    · rwa [Nat.min_eq_right h, Nat.min_eq_right (hb.mono ha h)]
  max {a b a' b'} ha hb := by
    rcases Nat.le_total a b with h | h
    · rwa [Nat.max_eq_right h, Nat.max_eq_right (ha.mono hb h)]
    · rwa [Nat.max_eq_left h, Nat.max_eq_left (hb.mono ha h)]

theorem matches_before (R : Renaming) : R.Matches (Text.size R.before) (Text.size R.before) :=
  .before (List.append_nil _).symm

theorem matches_stop (R : Renaming) : R.Matches (R.stop R.name) (R.stop R.name') :=
  .behind (u := []) rfl

theorem slice_eq_nil (f : Fragment) {s : Span} (h : s.stop ≤ s.start) : f.slice s = [] := by
  have hsize : s.stop - f.offset - (s.start - f.offset) = 0 := by omega
  rw [Fragment.slice, Text.slice, Span.size, hsize, Text.takeBytes_zero]

/-- What is cut out of a part of a text depends on that part only. -/
theorem exists_slice {t u v x y : Text} (hstart : t = u ++ v) (hstop : t = x ++ y) :
    ∃ w, ∀ lead tail : Text, Fragment.slice (.ofText (lead ++ (t ++ tail)))
      ⟨Text.size lead + Text.size u, Text.size lead + Text.size x⟩ = w := by
  have hu : u <+: t := ⟨v, hstart.symm⟩
  rcases List.prefix_or_prefix_of_prefix hu ⟨y, hstop.symm⟩ with ⟨w, rfl⟩ | ⟨w, rfl⟩
  · refine ⟨w, fun lead tail => @Fragment.slice_of_text _ (lead ++ u) w (y ++ tail) ?_ _ ?_ ?_⟩
    · simp [Fragment.ofText, hstop]
    · simp [Fragment.ofText]
    · simp [Fragment.ofText, Nat.add_assoc]
  · refine ⟨[], fun lead tail => slice_eq_nil _ ?_⟩
    simp

/-- Cuts at matched places differ at most in the name of the placeholder. -/
theorem rewrites_slice {s s' : Span} (h : Aligned R.places s s') :
    R.Rewrites (Fragment.slice (.ofText (R.write R.name)) s)
      (Fragment.slice (.ofText (R.write R.name')) s') := by
  obtain ⟨start, stop⟩ := s
  obtain ⟨start', stop'⟩ := s'
  obtain ⟨hstart, hstop⟩ : R.Matches start start' ∧ R.Matches stop stop' := ⟨h.start, h.stop⟩
  cases hstart with
  | @before u v hu =>
    cases hstop with
    | @before x y hx =>
      obtain ⟨w, hw⟩ := exists_slice hu hx
      have hw (n : Text) := hw [] (R.sort.text n ++ R.behind)
      simp only [List.nil_append, Text.size_nil, Nat.zero_add] at hw
      rw [write, write, hw, hw]
      exact .refl w
    | @behind x y hx =>
      have hslice (n : Text) : Fragment.slice (.ofText (R.write n))
          ⟨Text.size u, R.stop n + Text.size x⟩ = v ++ (R.sort.text n ++ x) := by
        refine @Fragment.slice_of_text _ u (v ++ (R.sort.text n ++ x)) y ?_ _ ?_ ?_
        · simp [Fragment.ofText, write, hu, hx]
        · simp [Fragment.ofText]
        · simp [Fragment.ofText, stop, hu, Nat.add_assoc]
      rw [hslice, hslice]
      exact .within v x
  | @behind u v hu =>
    cases hstop with
    | @before x y hx =>
      have hlt (n : Text) : Text.size x ≤ R.stop n + Text.size u := by
        have hsize := congrArg Text.size hx
        have hstop := R.size_before_lt_stop n
        rw [Text.size_append] at hsize
        omega
      rw [slice_eq_nil _ (hlt R.name), slice_eq_nil _ (hlt R.name')]
      exact .refl []
    | @behind x y hx =>
      obtain ⟨w, hw⟩ := exists_slice hu hx
      have hw (n : Text) := hw (R.before ++ R.sort.text n) []
      simp only [List.append_nil, Text.size_append, List.append_assoc] at hw
      rw [write, write]
      exact (hw R.name).symm ▸ (hw R.name').symm ▸ .refl w

/-! ## Tokens -/

/-- The tokens are the same, in front of the placeholder or behind it. -/
structure Beside (R : Renaming) (ahead : Bool) (t t' : Token) : Prop where
  alike : Aligned R.places t t'
  before : ahead → t = t' ∧ t.span.start < Text.size R.before ∧ t.span.stop ≤ Text.size R.before
  behind : ¬ahead → R.stop R.name < t.span.stop ∧ R.stop R.name' < t'.span.stop

def innerStop (R : Renaming) (n : Text) : Nat :=
  Text.size R.before + Text.size R.sort.opener.text + Text.size n

def opening (R : Renaming) : Token :=
  ⟨.symbol R.sort.opener, R.sort.opener.text,
    ⟨Text.size R.before, Text.size R.before + Text.size R.sort.opener.text⟩⟩

def inner (R : Renaming) (n : Text) : Token :=
  ⟨.word, n, ⟨Text.size R.before + Text.size R.sort.opener.text, R.innerStop n⟩⟩

def closing (R : Renaming) (n : Text) : Token :=
  ⟨.symbol .closeBrace, Symbol.closeBrace.text, ⟨R.innerStop n, R.stop n⟩⟩

/-- A span in front of the placeholder or at its opener, up to the closer of the placeholder. -/
theorem merge_closing {s : Span} {n : Text} (hstart : s.start ≤ Text.size R.before)
    (hstop : s.stop ≤ R.stop n) : s.merge (R.closing n).span = ⟨s.start, R.stop n⟩ := by
  have hinner : Text.size R.before ≤ R.innerStop n := by
    rw [innerStop, Nat.add_assoc]
    exact Nat.le_add_right ..
  rw [Span.merge, closing, Nat.min_eq_left (hstart.trans hinner), Nat.max_eq_right hstop]

/-- The same tokens in both texts. If the placeholder is `ahead`, it is among them, all of it. -/
inductive Reads (R : Renaming) : (ahead : Bool) → List Token → List Token → Prop where
  | nil : Reads R false [] []
  | cons {ahead : Bool} {t t' : Token} {ts ts' : List Token} : R.Beside ahead t t' →
    Reads R ahead ts ts' → Reads R ahead (t :: ts) (t' :: ts')
  | placeholder {ts ts' : List Token} : Reads R false ts ts' →
    Reads R true (R.opening :: R.inner R.name :: R.closing R.name :: ts)
      (R.opening :: R.inner R.name' :: R.closing R.name' :: ts')

/-- A placeholder in a query text is well formed if its opener is a token of its own and its two
names are words that are no keywords. -/
structure IsWellFormed (R : Renaming) : Prop where
  opening : R.opening ∈ (Lexicon.sql.read (.ofText (R.write R.name))).tokens
  name : (WrittenName.bare R.name).IsWellFormed
  name' : (WrittenName.bare R.name').IsWellFormed

/-- A text with a placeholder is read part by part. -/
theorem read_write {n : Text} (hn : IsPlainWord n)
    (hbefore : (Lexicon.sql.read (.ofText R.before)).fault = none) :
    Lexicon.sql.read (.ofText (R.write n)) =
      ⟨(Lexicon.sql.read (.ofText R.before)).tokens ++ R.opening :: R.inner n :: R.closing n ::
        (Lexicon.sql.read ⟨R.stop n, R.behind⟩).tokens,
        (Lexicon.sql.read ⟨R.stop n, R.behind⟩).fault⟩ := by
  have hstream : Lexicon.sql.read (.ofText R.before) =
      ⟨(Lexicon.sql.read (.ofText R.before)).tokens, none⟩ := by rw [← hbefore]
  have hparts : R.sort.text n ++ R.behind =
      R.sort.opener.text ++ (n ++ (Symbol.closeBrace.text ++ R.behind)) := by
    simp [Placeholder.text]
  have hstart : Fragment.stop (.ofText R.before) = Text.size R.before := Nat.zero_add _
  have hstop : R.innerStop n + Text.size Symbol.closeBrace.text = R.stop n := by
    simp [innerStop, stop, Placeholder.text, Nat.add_assoc]
  have hinner : Lexicon.sql.read ⟨Text.size R.before + Text.size R.sort.opener.text,
      n ++ (Symbol.closeBrace.text ++ R.behind)⟩ =
      ⟨R.inner n :: R.closing n :: (Lexicon.sql.read ⟨R.stop n, R.behind⟩).tokens,
        (Lexicon.sql.read ⟨R.stop n, R.behind⟩).fault⟩ := by
    refine (Lexicon.read_append (hn.read _) fun t ht => ?_).trans ?_
    · cases ht
      exact ⟨Lexicon.endsWord_append (by decide) (by decide) _, by simp [Symbol.text]⟩
    · dsimp only [Fragment.stop]
      rw [← innerStop, Symbol.read_append, hstop]
      rfl
  refine (Lexicon.read_append hstream (b := R.sort.text n ++ R.behind) fun t ht => ?_).trans ?_
  · rw [hparts]
    exact Lexicon.ends_symbol _ _ (List.mem_of_getLast? ht)
  · rw [hstart, hparts, Symbol.read_append, hinner]
    rfl

/-- Only a quoted text can spell a placeholder. -/
theorem not_isInfix_label {f : Fragment} {t : Token} (ht : t ∈ (Lexicon.sql.read f).tokens)
    (hquoted : ∀ quote, t.kind ≠ .quoted quote) (sort : Placeholder) {n : Text} (hn : n ≠ []) :
    ¬sort.text n <:+: t.label := by
  obtain ⟨o, c, rest, after, htoken⟩ := Lexicon.exists_tokenAt_of_mem_read ht
  have hopener : sort.opener.text <:+: sort.text n :=
    ⟨[], n ++ Symbol.closeBrace.text, by simp [Placeholder.text]⟩
  have hlabel : t.label = t.lexeme := by
    cases hkind : t.kind with
    | quoted quote => exact absurd hkind (hquoted quote)
    | _ => simp [Token.label, Token.name?, hkind]
  rw [hlabel]
  intro hcontains
  cases hkind : t.kind with
  | symbol s =>
    rw [Lexicon.lexeme_of_symbol htoken hkind] at hcontains
    have hlength := hcontains.length_le
    have hpos := List.length_pos_of_ne_nil hn
    have hsymbol : s.text.length ≤ 2 := by cases s <;> decide
    have hopen : sort.opener.text.length = 2 := by cases sort <;> decide
    simp only [Placeholder.text, List.length_append] at hlength
    omega
  | quoted quote => exact hquoted quote hkind
  | _ =>
    refine Lexicon.not_isInfix_of_tokenAt htoken hquoted ?_ sort.opener.mem_all
      (hopener.trans hcontains)
    simp [hkind]

theorem Reads.of_behind {ts ts' : List Token} (h : List.Forall₂ (R.Beside false) ts ts') :
    R.Reads false ts ts' := by
  induction h with
  | nil => exact .nil
  | cons ht _ ih => exact .cons ht ih

theorem Reads.append {us ts ts' : List Token} (hus : ∀ t ∈ us, R.Beside true t t)
    (h : R.Reads true ts ts') : R.Reads true (us ++ ts) (us ++ ts') := by
  induction us with
  | nil => exact h
  | cons t us ih =>
    obtain ⟨ht, hus⟩ := List.forall_mem_cons.1 hus
    exact .cons ht (ih hus)

theorem beside_before {t : Token} (ht : t ∈ (Lexicon.sql.read (.ofText R.before)).tokens) :
    R.Beside true t t := by
  have hfragment : Aligned R.places (Fragment.ofText R.before) (.ofText R.before) :=
    ⟨rfl, fun u v huv _ => (Nat.zero_add (Text.size u)).symm ▸ Matches.before huv⟩
  have hread := (Lexicon.sql.aligned_read hfragment).tokens
  obtain ⟨-, hlt, hstop⟩ := Lexicon.span_of_mem_read ht
  rw [Fragment.stop, Fragment.ofText, Nat.zero_add] at hstop
  exact ⟨List.forall₂_same.1 hread t ht,
    fun _ => ⟨rfl, Nat.lt_of_lt_of_le hlt hstop, hstop⟩, fun h => absurd rfl h⟩

theorem aligned_behind (R : Renaming) : Aligned R.places (⟨R.stop R.name, R.behind⟩ : Fragment)
    ⟨R.stop R.name', R.behind⟩ :=
  ⟨rfl, fun _ _ huv _ => Matches.behind huv⟩

theorem beside_behind (R : Renaming) : List.Forall₂ (R.Beside false)
    (Lexicon.sql.read ⟨R.stop R.name, R.behind⟩).tokens
    (Lexicon.sql.read ⟨R.stop R.name', R.behind⟩).tokens := by
  have hread := (Lexicon.sql.aligned_read (aligned_behind R)).tokens
  refine List.forall₂_iff_zip.2 ⟨hread.length_eq, fun {t t'} hmem => ?_⟩
  obtain ⟨ht, ht'⟩ := List.of_mem_zip hmem
  obtain ⟨hle, hlt, -⟩ := Lexicon.span_of_mem_read ht
  obtain ⟨hle', hlt', -⟩ := Lexicon.span_of_mem_read ht'
  exact ⟨List.forall₂_zip hread hmem, fun h => (nomatch h),
    fun _ => ⟨Nat.lt_of_le_of_lt hle hlt, Nat.lt_of_le_of_lt hle' hlt'⟩⟩

/-- The two texts are read alike. -/
theorem IsWellFormed.reads (hR : R.IsWellFormed) :
    R.Reads true (Lexicon.sql.read (.ofText (R.write R.name))).tokens
      (Lexicon.sql.read (.ofText (R.write R.name'))).tokens ∧
    Aligned R.places (Lexicon.sql.read (.ofText (R.write R.name))).fault
      (Lexicon.sql.read (.ofText (R.write R.name'))).fault := by
  have hbefore : (Lexicon.sql.read (.ofText R.before)).fault = none :=
    Lexicon.fault_eq_none_of_start hR.opening (Nat.zero_add _).symm
  have hbehind := Reads.placeholder (Reads.of_behind (beside_behind R))
  rw [read_write hR.name.1 hbefore, read_write hR.name'.1 hbefore]
  exact ⟨hbehind.append fun t ht => beside_before ht,
    (Lexicon.sql.aligned_read (aligned_behind R)).fault⟩

end Renaming

end QueryTemplate
