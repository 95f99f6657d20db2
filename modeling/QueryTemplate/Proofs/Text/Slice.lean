import QueryTemplate.Span

/-! # Cutting texts

A text that is put together from parts is cut into them again by their sizes.
-/

namespace QueryTemplate

namespace Text

theorem size_pos {t : Text} (h : t ≠ []) : 0 < size t := by
  obtain ⟨c, rest, rfl⟩ := List.exists_cons_of_ne_nil h
  exact Nat.lt_add_right _ c.utf8Size_pos

theorem takeBytes_append_of_le {n : Nat} {a : Text} (h : n ≤ size a) (b : Text) :
    takeBytes n (a ++ b) = takeBytes n a := by
  induction a generalizing n with
  | nil =>
    cases b with
    | nil => rfl
    | cons c rest =>
      obtain rfl : n = 0 := Nat.le_zero.1 h
      exact if_neg (Nat.not_le.2 c.utf8Size_pos)
  | cons c rest ih =>
    rw [List.cons_append, takeBytes, takeBytes]
    by_cases hc : c.utf8Size ≤ n
    · rw [size_cons] at h
      rw [if_pos hc, if_pos hc, ih (by omega)]
    · rw [if_neg hc, if_neg hc]

theorem takeBytes_append_size (a b : Text) (n : Nat) :
    takeBytes (n + size a) (a ++ b) = a ++ takeBytes n b := by
  induction a with
  | nil => rfl
  | cons c rest ih =>
    have hle : c.utf8Size ≤ n + size (c :: rest) := by
      rw [size_cons]
      omega
    have hsub : n + size (c :: rest) - c.utf8Size = n + size rest := by
      rw [size_cons]
      omega
    rw [List.cons_append, takeBytes, if_pos hle, hsub, ih, List.cons_append]

theorem dropBytes_append_of_le {n : Nat} {a : Text} (h : n ≤ size a) (b : Text) :
    dropBytes n (a ++ b) = dropBytes n a ++ b := by
  induction a generalizing n with
  | nil =>
    obtain rfl : n = 0 := Nat.le_zero.1 h
    cases b with
    | nil => rfl
    | cons c rest => exact if_neg (Nat.not_le.2 c.utf8Size_pos)
  | cons c rest ih =>
    rw [List.cons_append, dropBytes, dropBytes]
    by_cases hc : c.utf8Size ≤ n
    · rw [size_cons] at h
      rw [if_pos hc, if_pos hc, ih (by omega)]
    · rw [if_neg hc, if_neg hc, List.cons_append]

theorem dropBytes_append_size (a b : Text) (n : Nat) :
    dropBytes (n + size a) (a ++ b) = dropBytes n b := by
  induction a with
  | nil => rfl
  | cons c rest ih =>
    have hle : c.utf8Size ≤ n + size (c :: rest) := by
      rw [size_cons]
      omega
    have hsub : n + size (c :: rest) - c.utf8Size = n + size rest := by
      rw [size_cons]
      omega
    rw [List.cons_append, dropBytes, if_pos hle, hsub, ih]

theorem dropBytes_size_append (a b : Text) : dropBytes (size a) (a ++ b) = b := by
  have hdrop := dropBytes_append_size a b 0
  rw [Nat.zero_add] at hdrop
  rw [hdrop]
  cases b with
  | nil => rfl
  | cons c rest => exact if_neg (Nat.not_le.2 c.utf8Size_pos)

theorem size_le_add_size_dropBytes (n : Nat) (a : Text) : size a ≤ n + size (dropBytes n a) := by
  induction a generalizing n with
  | nil => exact Nat.zero_le _
  | cons c rest ih =>
    rw [dropBytes]
    by_cases hc : c.utf8Size ≤ n
    · have hrest := ih (n - c.utf8Size)
      rw [if_pos hc, size_cons]
      omega
    · rw [if_neg hc]
      exact Nat.le_add_left ..

theorem takeBytes_zero (t : Text) : takeBytes 0 t = [] := by
  cases t with
  | nil => rfl
  | cons c rest => exact if_neg (Nat.not_le.2 c.utf8Size_pos)

/-- What is cut out of a text behind another text is cut out at places moved by its size. -/
theorem slice_append_shift (a b : Text) (s : Span) :
    slice (a ++ b) (s.shift (size a)) = slice b s := by
  simp only [slice, Span.size, Span.shift, dropBytes_append_size, Nat.add_sub_add_right]

/-- What is cut out of a text in front of an offset does not depend on what is behind it. -/
theorem slice_append_of_le {a : Text} {s : Span} (h : s.stop ≤ size a) (b : Text) :
    slice (a ++ b) s = slice a s := by
  rw [slice, slice, Span.size]
  rcases Nat.le_total s.start s.stop with hle | hle
  · have hdrop := size_le_add_size_dropBytes s.start a
    rw [dropBytes_append_of_le (Nat.le_trans hle h), takeBytes_append_of_le (by omega)]
  · rw [Nat.sub_eq_zero_of_le hle, takeBytes_zero, takeBytes_zero]

/-- The longer one of two beginnings of a text begins with the shorter one. -/
theorem exists_append_of_size_le {u v x y : Text} (h : u ++ v = x ++ y)
    (hsize : size u ≤ size x) : ∃ w, x = u ++ w ∧ v = w ++ y := by
  rcases List.append_eq_append_iff.1 h with hlonger | ⟨w, hu, hy⟩
  · exact hlonger
  · by_cases hw : w = []
    · exact ⟨[], by simp [hu, hw], by simp [hy, hw]⟩
    · have hpos := size_pos hw
      rw [hu, size_append] at hsize
      omega

/-- Beginnings of a text are the same if they have the same size. -/
theorem eq_of_size_eq {u v x y : Text} (h : u ++ v = x ++ y) (hsize : size u = size x) :
    u = x ∧ v = y := by
  rcases exists_append_of_size_le h (Nat.le_of_eq hsize) with ⟨w, hx, hv⟩
  by_cases hw : w = []
  · exact ⟨by simp [hx, hw], by simp [hv, hw]⟩
  · have hpos := size_pos hw
    rw [hx, size_append] at hsize
    omega

theorem splitLast?_eq_none {c : Char} {t : Text} (h : splitLast? c t = none) : c ∉ t := by
  induction t with
  | nil => exact List.not_mem_nil
  | cons d rest ih =>
    rw [splitLast?] at h
    split at h
    · cases h
    · rename_i hrest
      split at h
      · cases h
      · rename_i hd
        exact fun hmem => (List.mem_cons.1 hmem).elim (fun hc => hd hc.symm) (ih hrest)

theorem splitLast?_eq_some {c : Char} {t before after : Text}
    (h : splitLast? c t = some (before, after)) : t = before ++ c :: after ∧ c ∉ after := by
  induction t generalizing before with
  | nil => cases h
  | cons d rest ih =>
    rw [splitLast?] at h
    split at h
    · rename_i hrest
      cases h
      obtain ⟨rfl, hafter⟩ := ih hrest
      exact ⟨rfl, hafter⟩
    · rename_i hrest
      split at h
      · rename_i hd
        cases h
        exact ⟨by rw [hd, List.nil_append], splitLast?_eq_none hrest⟩
      · cases h

end Text

/-- The part of a fragment where a text stands in it. -/
theorem Fragment.slice_of_text {source : Fragment} {before t after : Text}
    (h : source.text = before ++ (t ++ after)) {s : Span}
    (hstart : s.start = source.offset + Text.size before)
    (hstop : s.stop = source.offset + Text.size before + Text.size t) : source.slice s = t := by
  have hbefore : source.offset + Text.size before - source.offset = Text.size before := by omega
  have hsize : source.offset + Text.size before + Text.size t - source.offset - Text.size before =
      0 + Text.size t := by omega
  have htake := Text.takeBytes_append_size t after 0
  rw [slice, Text.slice, Span.size, hstart, hstop, h]
  dsimp only
  rw [hbefore, hsize, Text.dropBytes_size_append, htake, Text.takeBytes_zero, List.append_nil]

def Fragment.IsCut (f : Fragment) (n : Nat) : Prop :=
  ∃ before after, f.text = before ++ after ∧ n = f.offset + Text.size before

namespace Fragment

variable {f : Fragment} {a b c d : Nat}

/-- The parts of a fragment in front of a cut and behind it. -/
theorem slice_append_slice (ha : f.IsCut a) (hb : f.IsCut b) (hc : f.IsCut c) (hab : a ≤ b)
    (hbc : b ≤ c) : f.slice ⟨a, b⟩ ++ f.slice ⟨b, c⟩ = f.slice ⟨a, c⟩ := by
  rcases ha with ⟨u, v, htext, rfl⟩
  rcases hb with ⟨ub, vb, htextb, rfl⟩
  rcases hc with ⟨uc, vc, htextc, rfl⟩
  rcases Text.exists_append_of_size_le (htext.symm.trans htextb) (by omega) with ⟨x, rfl, rfl⟩
  rcases Text.exists_append_of_size_le (htextb.symm.trans htextc) (by omega) with ⟨y, rfl, rfl⟩
  have hwhole : f.text = u ++ ((x ++ y) ++ vc) := by simp [htext]
  rw [slice_of_text htext rfl (by simp only [Text.size_append]; omega),
    slice_of_text htextb rfl (by simp only [Text.size_append]; omega),
    slice_of_text hwhole rfl (by simp only [Text.size_append]; omega)]

/-- A part of a part of a fragment. -/
theorem slice_isInfix (ha : f.IsCut a) (hb : f.IsCut b) (hc : f.IsCut c) (hd : f.IsCut d)
    (hab : a ≤ b) (hbc : b ≤ c) (hcd : c ≤ d) : f.slice ⟨b, c⟩ <:+: f.slice ⟨a, d⟩ := by
  rw [← slice_append_slice ha hb hd hab (by omega), ← slice_append_slice hb hc hd hbc hcd,
    ← List.append_assoc]
  exact ⟨_, _, rfl⟩

end Fragment

end QueryTemplate
