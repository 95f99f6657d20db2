import QueryTemplate.Proofs.Alignment.Method

/-! # Methods in aligned places

A block of a file is read to a method source in its place. Blocks with the same text in places
that an alignment matches give aligned sources.
-/

namespace QueryTemplate

variable {A : Alignment}

theorem Fragment.aligned_upTo {bound : Nat} {f : Fragment} (h : f.stop ≤ bound) :
    Aligned (.upTo bound) f f := by
  refine ⟨rfl, fun before after htext _ => ⟨rfl, ?_⟩⟩
  have hsize : f.stop = f.offset + (Text.size before + Text.size after) := by
    rw [Fragment.stop, htext, Text.size_append]
  omega

/-- The offset where an end part of a fragment starts. -/
theorem Fragment.stop_sub_size {f : Fragment} {lead rest : Text}
    (h : f.text = lead ++ rest) : f.stop - Text.size rest = f.offset + Text.size lead := by
  rw [Fragment.stop, h, Text.size_append]
  omega

/-! ## Trimmed texts and words -/

namespace Text

theorem trimStart_append (t : Text) : t.takeWhile isSpace ++ trimStart t = t :=
  List.takeWhile_append_dropWhile

theorem size_trimStart (t : Text) :
    size (trimStart t) + size (t.takeWhile isSpace) = size t := by
  rw [Nat.add_comm, ← size_append, trimStart_append]

/-- A text is its beginning without the space at its end, which is empty or ends with something
else than a space, and that space. -/
theorem trimEnd_append (t : Text) : ∃ space, t = trimEnd t ++ space ∧
    (trimEnd t = [] ∨ ∃ c, (trimEnd t).getLast? = some c ∧ isSpace c = false) := by
  induction t with
  | nil => exact ⟨[], rfl, .inl rfl⟩
  | cons c rest ih =>
    obtain ⟨space, hrest, hlast⟩ := ih
    cases hkept : trimEnd rest with
    | nil =>
      rw [hkept] at hrest
      by_cases hc : isSpace c
      · exact ⟨c :: space, by simp_all [trimEnd], .inl (by simp [trimEnd, hkept, hc])⟩
      · exact ⟨space, by simp_all [trimEnd], .inr ⟨c, by simp_all [trimEnd]⟩⟩
    | cons d kept =>
      rw [hkept] at hrest hlast
      have hcons : trimEnd (c :: rest) = c :: d :: kept := by rw [trimEnd, hkept]
      refine ⟨space, by rw [hcons, hrest]; rfl, .inr ?_⟩
      rcases hlast with hnil | ⟨e, he, hspace⟩
      · exact absurd hnil (List.cons_ne_nil _ _)
      · exact ⟨e, by rw [hcons, List.getLast?_cons_cons, he], hspace⟩

theorem aligned_words {o o' : Nat} {t : Text} (h : Aligned A (⟨o, t⟩ : Fragment) ⟨o', t⟩) :
    Aligned A (words o t) (words o' t) := by
  induction t generalizing o o' with
  | nil => exact .nil
  | cons c rest ih =>
    have hlater := ih h.tail
    unfold words
    by_cases hc : isSpace c
    · simpa only [if_pos hc] using hlater
    · have hne : c ≠ ' ' := ne_blank_of_not_isSpace (by simpa using hc)
      have hstart : A.Matches o o' := h.start hne
      have hstop : A.Matches (o + c.utf8Size) (o' + c.utf8Size) :=
        h.cut [c] rest rfl (.inr ⟨c, rfl, hne⟩)
      have hshort : Aligned A (⟨[c], ⟨o, o + c.utf8Size⟩⟩ : Located Text)
          ⟨[c], ⟨o', o' + c.utf8Size⟩⟩ := ⟨rfl, hstart, hstop⟩
      simp only [if_neg hc]
      generalize words (o + c.utf8Size) rest = later, words (o' + c.utf8Size) rest = later'
        at hlater
      cases hlater with
      | nil => cases rest <;> exact .cons hshort .nil
      | @cons w w' _ _ hw hothers =>
        cases rest with
        | nil => exact .cons hshort (.cons hw hothers)
        | cons d rest =>
          dsimp only
          by_cases hd : isSpace d
          · simpa only [if_pos hd] using .cons hshort (.cons hw hothers)
          · simp only [if_neg hd]
            have hvalue : w.value = w'.value := hw.value
            exact .cons ⟨congrArg (c :: ·) hvalue, hstart, hw.span.stop⟩ hothers

end Text

/-! ## Header lines -/

theorem WrittenOption.aligned_ofWord {w w' : Located Text} (h : Aligned A w w') :
    Aligned A (ofWord w) (ofWord w') := by
  have hvalue : w.value = w'.value := h.value
  unfold ofWord
  rw [hvalue]
  split
  · exact ⟨rfl, rfl, h.span⟩
  · exact ⟨rfl, rfl, h.span⟩

namespace MethodSource

/-- What follows the tag is an end part of the header line. -/
theorem append_headerRest? {line rest : Text} (h : headerRest? line = some rest) :
    ∃ lead, line = lead ++ rest := by
  simp only [headerRest?, Option.bind_eq_bind, Option.bind_eq_some_iff] at h
  obtain ⟨comment, hcomment, hrest⟩ := h
  rw [Text.dropLead?_eq_some_iff] at hcomment hrest
  refine ⟨line.takeWhile Text.isSpace ++ commentMark ++ comment.takeWhile Text.isSpace ++
    headerTag, ?_⟩
  have hline := Text.trimStart_append line
  have htag := Text.trimStart_append comment
  rw [hrest] at htag
  rw [hcomment, ← htag] at hline
  simpa only [List.append_assoc] using hline.symm

/-- A header line and the body behind it in matched places give aligned sources. -/
theorem aligned_ofHeader {line line' : Fragment} (hline : Aligned A line line')
    (hstart : A.Matches line.offset line'.offset) {rest : Text}
    (hrest : headerRest? line.text = some rest) {body : Text}
    (hbody : Aligned A (⟨line.stop, body⟩ : Fragment) ⟨line'.stop, body⟩)
    (hslice : ∀ s s', Aligned A s s' →
      Fragment.slice ⟨line.stop, body⟩ s = Fragment.slice ⟨line'.stop, body⟩ s') :
    Aligned A (ofHeader line rest body) (ofHeader line' rest body) := by
  have hstop := hline.stop
  obtain ⟨o, t⟩ := line
  obtain ⟨o', t'⟩ := line'
  obtain rfl : t = t' := hline.text
  have hheader : Aligned A (⟨o, o + Text.size (Text.trimEnd t)⟩ : Span)
      ⟨o', o' + Text.size (Text.trimEnd t)⟩ := by
    refine ⟨hstart, ?_⟩
    obtain ⟨space, ht, hnil | ⟨c, hc, hspace⟩⟩ := Text.trimEnd_append t
    · simpa only [hnil, Text.size_nil, Nat.add_zero] using hstart
    · exact hline.cut _ space ht (.inr ⟨c, hc, Text.ne_blank_of_not_isSpace hspace⟩)
  obtain ⟨lead, rfl⟩ := append_headerRest? hrest
  have hbase (n : Nat) : Fragment.stop ⟨n, lead ++ rest⟩ - Text.size rest = n + Text.size lead :=
    Fragment.stop_sub_size rfl
  have hwords := Text.aligned_words hline.behind
  rw [← hbase, ← hbase] at hwords
  simp only [ofHeader]
  generalize Text.words (Fragment.stop ⟨o, lead ++ rest⟩ - Text.size rest) rest = words,
    Text.words (Fragment.stop ⟨o', lead ++ rest⟩ - Text.size rest) rest = words' at hwords
  cases hwords with
  | nil => exact .error ⟨rfl, hheader⟩
  | @cons w w' _ _ hw hoptions =>
    have hvalue : w.value = w'.value := hw.value
    dsimp only
    rw [hvalue]
    split
    · exact .error ⟨rfl, hw.span⟩
    · refine .ok ⟨rfl, aligned_list_map hoptions fun _ _ => WrittenOption.aligned_ofWord, hheader,
        hw.span, hbody, hstop, hslice⟩

/-- What stands for a character in a template without its comments: the character itself, or a
blank for each of its bytes. -/
def StandsFor (c : Char) (lead : Text) : Prop := lead = [c] ∨ lead = List.replicate c.utf8Size ' '

theorem StandsFor.size_eq {c : Char} {lead : Text} (h : StandsFor c lead) :
    Text.size lead = c.utf8Size := by
  have hblanks (n : Nat) : Text.size (List.replicate n ' ') = n := by
    induction n with
    | zero => rfl
    | succ n ih =>
      rw [List.replicate_succ, Text.size_cons, ih]
      exact Nat.add_comm 1 n
  rcases h with rfl | rfl
  · rfl
  · exact hblanks _

theorem blankComments_standsFor (region : Region) (c : Char) (rest : Text) : ∃ lead next,
    blankComments region (c :: rest) = lead ++ blankComments next rest ∧ StandsFor c lead := by
  cases region with
  | code =>
    by_cases hdash : c = '-' ∧ rest.head? = some '-'
    · exact ⟨[' '], .comment, if_pos hdash, .inr (by rw [hdash.1]; rfl)⟩
    · exact ⟨[c], _, if_neg hdash, .inl rfl⟩
  | quoted quote => exact ⟨[c], _, rfl, .inl rfl⟩
  | comment =>
    rw [blankComments]
    split_ifs
    · exact ⟨[c], .code, rfl, .inl rfl⟩
    · exact ⟨[c], .comment, rfl, .inl rfl⟩
    · exact ⟨_, .comment, rfl, .inr rfl⟩

theorem size_blankComments (region : Region) (t : Text) :
    Text.size (blankComments region t) = Text.size t := by
  induction t generalizing region with
  | nil => cases region <;> rfl
  | cons c rest ih =>
    obtain ⟨lead, next, hlead, hstands⟩ := blankComments_standsFor region c rest
    rw [hlead, Text.size_append, hstands.size_eq, ih, Text.size_cons]

end MethodSource

end QueryTemplate
