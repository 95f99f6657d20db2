import Mathlib.Data.List.Forall2
import QueryTemplate.Proofs.Text.Slice

/-! # Where texts stand

A text is taken apart into its lines and a line into its words. Each of them stands in the text at
the place that is given for it, and nothing but the space between words is left over.
-/

namespace QueryTemplate.Text

/-- The text `t` is what a span of a file covers. -/
def StandsAt (file t : Text) (s : Span) : Prop :=
  ∃ before after, file = before ++ (t ++ after) ∧ s = ⟨size before, size before + size t⟩

/-- A part of a text stands in the file behind what is in front of it in that text. -/
theorem StandsAt.part {file t : Text} {s : Span} (h : StandsAt file t s) (before u after : Text)
    (ht : t = before ++ (u ++ after)) :
    StandsAt file u ⟨s.start + size before, s.start + size before + size u⟩ := by
  obtain ⟨lead, rest, rfl, rfl⟩ := h
  exact ⟨lead ++ before, after ++ rest, by simp [ht], by simp⟩

/-! ## Words -/

/-- The words of a text from offset `start` on: the stretches without white space, which white
space separates, in their order and places. -/
inductive HoldsWords : Nat → Text → List (Located Text) → Prop where
  | nil {start : Nat} {space : Text} : (∀ c ∈ space, isSpace c) → HoldsWords start space []
  | cons {start : Nat} {space word rest : Text} {words : List (Located Text)} :
    (∀ c ∈ space, isSpace c) → word ≠ [] → (∀ c ∈ word, isSpace c = false) →
    (∀ c ∈ rest.head?, isSpace c) →
    HoldsWords (start + size space + size word) rest words →
    HoldsWords start (space ++ (word ++ rest))
      (⟨word, ⟨start + size space, start + size space + size word⟩⟩ :: words)

namespace HoldsWords

variable {start : Nat} {t : Text} {words : List (Located Text)} {c : Char}

theorem space (hc : isSpace c) (h : HoldsWords (start + c.utf8Size) t words) :
    HoldsWords start (c :: t) words := by
  cases h with
  | nil hspace => exact .nil (List.forall_mem_cons.2 ⟨hc, hspace⟩)
  | @cons _ space word rest words hspace hne hword hrest hwords =>
    have hcons := @cons start (c :: space) word rest words (List.forall_mem_cons.2 ⟨hc, hspace⟩) hne
      hword hrest
    simp only [size_cons, ← Nat.add_assoc] at hcons
    exact hcons hwords

/-- A character in front of white space is a word of its own. -/
theorem alone (hc : isSpace c = false) (ht : ∀ d ∈ t.head?, isSpace d)
    (h : HoldsWords (start + c.utf8Size) t words) :
    HoldsWords start (c :: t) (⟨[c], ⟨start, start + c.utf8Size⟩⟩ :: words) :=
  @cons start [] [c] t words (by simp) (by simp) (by simpa using hc) ht h

/-- A character in front of a word belongs to that word. -/
theorem longer {d : Char} {word : Text} {span : Span} (hc : isSpace c = false)
    (hd : isSpace d = false)
    (h : HoldsWords (start + c.utf8Size) (d :: t) (⟨word, span⟩ :: words)) :
    HoldsWords start (c :: d :: t) (⟨c :: word, ⟨start, span.stop⟩⟩ :: words) := by
  generalize htext : d :: t = text at h
  cases h with
  | @cons _ space word rest _ hspace hne hword hrest hwords =>
    obtain rfl : space = [] := by
      cases space with
      | nil => rfl
      | cons e space =>
        obtain ⟨rfl, -⟩ := List.cons.inj htext
        rw [hspace d (List.mem_cons_self ..)] at hd
        cases hd
    have hcons := @cons start [] (c :: word) rest words (by simp) (by simp)
      (List.forall_mem_cons.2 ⟨hc, hword⟩) hrest
    simp only [size_cons, size_nil, Nat.add_zero, ← Nat.add_assoc] at hcons hwords ⊢
    exact hcons hwords

theorem ne_nil {d : Char} (hd : isSpace d = false) (h : HoldsWords start (d :: t) words) :
    words ≠ [] := by
  generalize htext : d :: t = text at h
  cases h with
  | nil hspace =>
    subst htext
    rw [hspace d (List.mem_cons_self ..)] at hd
    cases hd
  | cons => exact List.cons_ne_nil _ _

theorem holdsWords_words (start : Nat) (t : Text) : HoldsWords start t (Text.words start t) := by
  induction t generalizing start with
  | nil => exact .nil (by simp)
  | cons c rest ih =>
    have hlater := ih (start + c.utf8Size)
    unfold Text.words
    dsimp only
    cases hc : isSpace c with
    | true => exact hlater.space hc
    | false =>
      cases rest with
      | nil => exact hlater.alone hc (by simp)
      | cons d rest =>
        generalize Text.words (start + c.utf8Size) (d :: rest) = later at hlater
        cases hd : isSpace d with
        | true =>
          have halone := hlater.alone hc (by simpa using hd)
          cases later <;> simpa [hd] using halone
        | false =>
          cases later with
          | nil => exact absurd rfl (hlater.ne_nil hd)
          | cons word later =>
            simp only [hd]
            exact hlater.longer hc hd

/-- Every word stands in the text where its span says. -/
theorem stands (h : HoldsWords start t words) : ∀ w ∈ words, ∃ before after,
    t = before ++ (w.value ++ after) ∧
      w.span = ⟨start + size before, start + size before + size w.value⟩ := by
  induction h with
  | nil => simp
  | @cons start space word rest words _ _ _ _ _ ih =>
    refine List.forall_mem_cons.2 ⟨⟨space, rest, rfl, rfl⟩, fun w hw => ?_⟩
    obtain ⟨before, after, rfl, hspan⟩ := ih w hw
    refine ⟨space ++ (word ++ before), after, by simp, ?_⟩
    rw [hspan]
    simp only [size_append, Nat.add_assoc]

end HoldsWords

/-! ## Lines -/

/-- The first line ends with the first line feed, or else it is all of the text. -/
theorem lines_cases {t line : Text} {later : List Text} (h : lines t = line :: later) :
    (∃ u, '\n' ∉ u ∧ line = u ++ ['\n'] ∧ lines later.flatten = later) ∨
      (line ≠ [] ∧ '\n' ∉ line ∧ later = []) := by
  induction t generalizing line with
  | nil => cases h
  | cons c rest ih =>
    rw [lines] at h
    by_cases hc : c = '\n'
    · rw [if_pos hc] at h
      cases h
      exact .inl ⟨[], by simp, by simp [hc], by rw [flatten_lines]⟩
    · rw [if_neg hc] at h
      cases hrest : lines rest with
      | nil =>
        rw [hrest] at h
        cases h
        exact .inr ⟨by simp, by simpa using Ne.symm hc, rfl⟩
      | cons first others =>
        rw [hrest] at h
        cases h
        rcases ih hrest with ⟨u, hu, rfl, hlater⟩ | ⟨-, hline, rfl⟩
        · exact .inl ⟨c :: u, by simp [hu, Ne.symm hc], rfl, hlater⟩
        · exact .inr ⟨by simp, by simp [hline, Ne.symm hc], rfl⟩

theorem lines_ended {u : Text} (hu : '\n' ∉ u) (rest : Text) :
    lines (u ++ '\n' :: rest) = (u ++ ['\n']) :: lines rest := by
  induction u with
  | nil => simp [lines]
  | cons c u ih =>
    simp only [List.mem_cons, not_or] at hu
    rw [List.cons_append, lines, if_neg (Ne.symm hu.1), ih hu.2]
    rfl

theorem lines_unended {u : Text} (hne : u ≠ []) (hu : '\n' ∉ u) : lines u = [u] := by
  induction u with
  | nil => exact absurd rfl hne
  | cons c u ih =>
    simp only [List.mem_cons, not_or] at hu
    rw [lines, if_neg (Ne.symm hu.1)]
    cases u with
    | nil => rfl
    | cons d u => rw [ih (by simp) hu.2]

/-- Lines that follow one another in a text are the lines of the text that they make up. -/
theorem lines_flatten_of_append {t : Text} (before between after : List Text)
    (h : lines t = before ++ (between ++ after)) : lines between.flatten = between := by
  induction before generalizing t with
  | nil =>
    rw [List.nil_append] at h
    induction between generalizing t with
    | nil => rfl
    | cons line between ih =>
      rcases lines_cases h with ⟨u, hu, rfl, hlater⟩ | ⟨hne, hline, hnil⟩
      · rw [List.flatten_cons, List.append_assoc, List.singleton_append, lines_ended hu, ih hlater]
      · obtain ⟨rfl, -⟩ := List.append_eq_nil_iff.1 hnil
        rw [List.flatten_cons, List.flatten_nil, List.append_nil, lines_unended hne hline]
  | cons line before ih =>
    rcases lines_cases h with ⟨-, -, -, hlater⟩ | ⟨-, -, hnil⟩
    · exact ih hlater
    · obtain ⟨-, hnil⟩ := List.append_eq_nil_iff.1 hnil
      obtain ⟨rfl, -⟩ := List.append_eq_nil_iff.1 hnil
      rfl

end QueryTemplate.Text
