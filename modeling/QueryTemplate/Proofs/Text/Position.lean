import Mathlib.Order.Bounds.Basic
import QueryTemplate.Proofs.File.Boundaries
import QueryTemplate.Proofs.Slicing.Position

/-! # Offsets and positions

The positions of the places between the characters of a text are in the order of their offsets, so
no two of them have the same line and column. Every other offset has the position of the last such
place in front of it, and whole lines that are put in front of a text move its lines only.
-/

namespace QueryTemplate

namespace Text

theorem isCut_takeBytes (t : Text) (n : Nat) : t.IsCut (size (takeBytes n t)) :=
  ⟨takeBytes n t, dropBytes n t, (takeBytes_append_dropBytes n t).symm, rfl⟩

theorem size_takeBytes_le (n : Nat) (t : Text) : size (takeBytes n t) ≤ n := by
  induction t generalizing n with
  | nil => exact Nat.zero_le n
  | cons c rest ih =>
    rw [takeBytes]
    by_cases hc : c.utf8Size ≤ n
    · have hrest := ih (n - c.utf8Size)
      rw [if_pos hc, size_cons]
      omega
    · rw [if_neg hc]
      exact Nat.zero_le n

theorem takeBytes_size_append (a b : Text) : takeBytes (size a) (a ++ b) = a := by
  rw [takeBytes_append_of_le (Nat.le_refl _), takeBytes_of_size_le (Nat.le_refl _)]

/-- The bytes in front of an offset are taken up to the last place between characters. -/
theorem isGreatest_takeBytes (t : Text) (offset : Nat) :
    IsGreatest {n | t.IsCut n ∧ n ≤ min offset (size t)} (size (takeBytes offset t)) := by
  have hcut := isCut_takeBytes t offset
  refine ⟨⟨hcut, Nat.le_min.2 ⟨size_takeBytes_le offset t, hcut.le⟩⟩, ?_⟩
  rintro n ⟨⟨before, after, rfl, rfl⟩, hle⟩
  have htake := takeBytes_append_size before after (offset - size before)
  rw [Nat.sub_add_cancel (Nat.le_trans hle (Nat.min_le_left _ _))] at htake
  rw [htake, size_append]
  exact Nat.le_add_right _ _

end Text

namespace Position

/-- Whether a position comes in front of another one: in an earlier line, or in the same line and an
earlier column. -/
def Before (p q : Position) : Prop :=
  p.line < q.line ∨ p.line = q.line ∧ p.column < q.column

theorem Before.trans {p q r : Position} (hpq : p.Before q) (hqr : q.Before r) : p.Before r := by
  unfold Before at *
  omega

theorem Before.ne {p q : Position} (h : p.Before q) : p ≠ q := by
  rintro rfl
  unfold Before at h
  omega

theorem before_step (p : Position) (c : Char) : p.Before (p.step c) := by
  rw [step]
  split_ifs
  · exact .inl (Nat.lt_succ_self _)
  · exact .inr ⟨rfl, Nat.lt_succ_self _⟩

theorem before_foldl_step (p : Position) {t : Text} (h : t ≠ []) : p.Before (t.foldl step p) := by
  induction t generalizing p with
  | nil => exact absurd rfl h
  | cons c rest ih =>
    rw [List.foldl_cons]
    by_cases hrest : rest = []
    · rw [hrest]
      exact before_step p c
    · exact (before_step p c).trans (ih _ hrest)

theorem ofOffset_size (a b : Text) : ofOffset (a ++ b) (Text.size a) = behind a := by
  rw [ofOffset, Text.takeBytes_size_append]

theorem ofOffset_before {t : Text} {a b : Nat} (ha : t.IsCut a) (hb : t.IsCut b) (h : a < b) :
    (ofOffset t a).Before (ofOffset t b) := by
  obtain ⟨u, v, rfl, rfl⟩ := ha
  obtain ⟨x, y, htext, rfl⟩ := hb
  obtain ⟨w, rfl, -⟩ := Text.exists_append_of_size_le htext (Nat.le_of_lt h)
  have hw : w ≠ [] := by
    rintro rfl
    rw [List.append_nil] at h
    exact absurd h (Nat.lt_irrefl _)
  rw [ofOffset_size, htext, ofOffset_size, behind, behind, List.foldl_append]
  exact before_foldl_step _ hw

/-- **Positions locate offsets faithfully.** They are in the order of the offsets between
characters, and so no two of these share one; any other offset, also one behind the end, has the
position of the last place between characters that is not behind it; and whole lines in front of a
text add to its lines and leave its columns. -/
theorem ofOffset_locates (t : Text) :
    (∀ a b, t.IsCut a → t.IsCut b → (a < b → (ofOffset t a).Before (ofOffset t b)) ∧
      (ofOffset t a = ofOffset t b → a = b)) ∧
    (∀ offset, ∃ n, IsGreatest {n | t.IsCut n ∧ n ≤ min offset (Text.size t)} n ∧
      ofOffset t offset = ofOffset t n) ∧
    ∀ s : Text, s.EndsLine → ∀ offset, ofOffset (s ++ t) (Text.size s + offset) =
      ⟨(ofOffset t offset).line + s.count '\n', (ofOffset t offset).column⟩ := by
  refine ⟨fun a b ha hb => ⟨ofOffset_before ha hb, fun heq => ?_⟩, fun offset => ?_,
    fun s hs offset => ?_⟩
  · rcases Nat.lt_trichotomy a b with hab | hab | hab
    · exact absurd heq (ofOffset_before ha hb hab).ne
    · exact hab
    · exact absurd heq.symm (ofOffset_before hb ha hab).ne
  · refine ⟨_, Text.isGreatest_takeBytes t offset, ?_⟩
    have hsize := ofOffset_size (Text.takeBytes offset t) (Text.dropBytes offset t)
    rw [Text.takeBytes_append_dropBytes] at hsize
    rw [hsize, ofOffset]
  · rw [ofOffset, Nat.add_comm, Text.takeBytes_append_size, behind_append hs]
    rfl

/-- Behind a character of two bytes and behind the next line feed, within a character of three
bytes, behind the end, and behind another line. -/
theorem ofOffset_locates_multibyte :
    let t : Text := "a\u00E9\n\u20ACb".toList
    (t.IsCut 3 ∧ t.IsCut 4 ∧ ofOffset t 3 = ⟨1, 3⟩ ∧ ofOffset t 4 = ⟨2, 1⟩ ∧
      (ofOffset t 3).Before (ofOffset t 4)) ∧
    (ofOffset t 6 = ofOffset t 4 ∧ ofOffset t 100 = ofOffset t 8 ∧
      ∃ n, IsGreatest {n | t.IsCut n ∧ n ≤ min 6 (Text.size t)} n ∧ ofOffset t 6 = ofOffset t n) ∧
    Text.EndsLine "x\n".toList ∧ ofOffset ("x\n".toList ++ t) (2 + 6) = ⟨2 + 1, 1⟩ := by
  intro t
  have hthree : t.IsCut 3 := ⟨['a', '\u00E9'], "\n\u20ACb".toList, rfl, rfl⟩
  have hfour : t.IsCut 4 := ⟨"a\u00E9\n".toList, "\u20ACb".toList, rfl, rfl⟩
  have hline : Text.EndsLine "x\n".toList := .inr rfl
  obtain ⟨hbefore, hbetween, hlines⟩ := ofOffset_locates t
  exact ⟨⟨hthree, hfour, by decide +kernel, by decide +kernel,
    (hbefore 3 4 hthree hfour).1 (by decide)⟩,
    ⟨by decide +kernel, by decide +kernel, hbetween 6⟩, hline, hlines _ hline 6⟩

end Position

end QueryTemplate
