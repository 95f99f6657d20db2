import QueryTemplate.Proofs.File.Composition
import QueryTemplate.Proofs.Slicing.Text

/-! # Cutting in front of a position

The line and the column of an offset are counted in what is cut out in front of it. The cut is made
at the nearest offset where the text can be cut, so it does not fail, whatever the offset is.
-/

namespace QueryTemplate

namespace Text

/-- The last offset up to `n` where a text can be cut. -/
def cutBelow? (t : Text) : Nat → Option Nat
  | 0 => if (splitAt? 0 t).isSome then some 0 else none
  | n + 1 => if (splitAt? (n + 1) t).isSome then some (n + 1) else cutBelow? t n

def lastLineStart (t : Text) : Nat :=
  match splitLast? '\n' t with
  | some (before, _) => size before + 1
  | none => 0

theorem splitAt?_zero (t : Text) : splitAt? 0 t = some ([], t) := splitAt?_size_append [] t

theorem takeBytes_of_size_le {n : Nat} {t : Text} (h : size t ≤ n) : takeBytes n t = t := by
  have htake := takeBytes_append_size t [] (n - size t)
  rw [Nat.sub_add_cancel h, List.append_nil] at htake
  rw [htake]
  exact List.append_nil t

theorem takeBytes_min (n : Nat) (t : Text) : takeBytes (min n (size t)) t = takeBytes n t := by
  rcases Nat.le_total n (size t) with h | h
  · rw [Nat.min_eq_left h]
  · rw [Nat.min_eq_right h, takeBytes_of_size_le h, takeBytes_of_size_le (Nat.le_refl _)]

/-- Where a text cannot be cut, one byte more does not take another character. -/
theorem takeBytes_succ {n : Nat} {t : Text} (h : splitAt? (n + 1) t = none) :
    takeBytes (n + 1) t = takeBytes n t := by
  induction t generalizing n with
  | nil => rfl
  | cons c rest ih =>
    rw [takeBytes, takeBytes]
    by_cases hc : c.utf8Size ≤ n + 1
    · rw [splitAt?, if_neg (Nat.succ_ne_zero n), if_pos hc, Option.map_eq_none_iff] at h
      by_cases hlast : c.utf8Size = n + 1
      · rw [hlast, Nat.sub_self, splitAt?_zero] at h
        cases h
      · have hle : c.utf8Size ≤ n := by omega
        rw [Nat.sub_add_comm hle] at h ⊢
        rw [if_pos hc, if_pos hle, ih h]
    · rw [if_neg hc, if_neg (by omega)]

theorem cutBelow?_eq (t : Text) (n : Nat) : cutBelow? t n = some (size (takeBytes n t)) := by
  induction n with
  | zero =>
    rw [cutBelow?, splitAt?_zero, takeBytes_zero]
    rfl
  | succ n ih =>
    rw [cutBelow?]
    cases hsplit : splitAt? (n + 1) t with
    | none => rw [takeBytes_succ hsplit, ← ih]; rfl
    | some parts =>
      obtain ⟨ht, hn⟩ := splitAt?_eq_some_iff.1 hsplit
      rw [ht, hn, takeBytes_append_of_le (Nat.le_refl _), takeBytes_of_size_le (Nat.le_refl _)]
      rfl

end Text

namespace Position

/-- The line and the column of a byte offset, counted in what is cut out in front of it. -/
def at? (text : Text) (offset : Nat) : Option Position := do
  let offset ← text.cutBelow? (min offset text.size)
  let (before, _) ← text.splitAt? offset
  let line ← before.from? before.lastLineStart
  return ⟨before.count '\n' + 1, line.length + 1⟩

theorem behind_of_notMem {line : Text} (h : '\n' ∉ line) : behind line = ⟨1, line.length + 1⟩ := by
  have hstep (column : Nat) :
      line.foldl step ⟨1, column⟩ = ⟨1, column + line.length⟩ := by
    induction line generalizing column with
    | nil => rfl
    | cons c rest ih =>
      obtain ⟨hc, hrest⟩ := List.ne_and_not_mem_of_not_mem_cons h
      rw [List.foldl_cons, step, if_neg (Ne.symm hc), ih hrest, List.length_cons, Nat.add_assoc,
        Nat.add_comm 1]
  rw [behind, hstep, Nat.add_comm]

/-- The last line of a text can be cut out, and the position behind the text is counted in it. -/
theorem behind_eq (text : Text) : ∃ line, text.from? text.lastLineStart = some line ∧
    behind text = ⟨text.count '\n' + 1, line.length + 1⟩ := by
  unfold Text.lastLineStart
  cases hsplit : Text.splitLast? '\n' text with
  | none =>
    have hline := Text.splitLast?_eq_none hsplit
    refine ⟨text, Text.from?_size_append [] text, ?_⟩
    rw [behind_of_notMem hline, List.count_eq_zero_of_not_mem hline]
  | some parts =>
    obtain ⟨before, line⟩ := parts
    obtain ⟨hbreak, hline⟩ := Text.splitLast?_eq_some hsplit
    have htext : text = (before ++ ['\n']) ++ line := by
      rw [hbreak, List.append_assoc, List.singleton_append]
    have hsize : Text.size before + 1 = Text.size (before ++ ['\n']) := by
      rw [Text.size_append]
      rfl
    have hends : Text.EndsLine (before ++ ['\n']) := .inr List.getLast?_concat
    refine ⟨line, ?_, ?_⟩
    · dsimp only
      rw [hsize, htext]
      exact Text.from?_size_append _ line
    · have hcount : text.count '\n' = (before ++ ['\n']).count '\n' := by
        rw [htext, List.count_append, List.count_eq_zero_of_not_mem hline, Nat.add_zero]
      rw [hcount, htext, behind_append hends, behind_of_notMem hline, Nat.add_comm]

/-- The cuts in front of a position do not fail, and it is the position of the offset. -/
theorem at?_eq (text : Text) (offset : Nat) : at? text offset = some (ofOffset text offset) := by
  unfold at? ofOffset
  rw [Text.cutBelow?_eq, Text.takeBytes_min]
  obtain ⟨line, hline, hbehind⟩ := behind_eq (Text.takeBytes offset text)
  have hsplit := Text.splitAt?_size_append (Text.takeBytes offset text) (Text.dropBytes offset text)
  rw [Text.takeBytes_append_dropBytes] at hsplit
  simp [hsplit, hline, hbehind]

end Position

end QueryTemplate
