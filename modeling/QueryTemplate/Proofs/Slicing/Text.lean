import Mathlib.Tactic.SplitIfs
import QueryTemplate.Proofs.Text.Slice

/-! # Cuts that can fail

A text can be cut only between its characters. Here a cut is asked for by byte offsets, and it fails
if an offset lies inside a character or behind the text, or if the part would stop before it starts.
A reader that keeps its place by an offset and cuts out what it needs is compared with one that
hands on what is left of the text: it never fails, and it finds the same.
-/

namespace QueryTemplate

/-- The difference of two numbers, unless it is negative. -/
def minus? (a b : Nat) : Option Nat := if b ≤ a then some (a - b) else none

theorem minus?_add_left (a b : Nat) : minus? (a + b) a = some b := by
  simp [minus?]

namespace Text

def splitAt? : Nat → Text → Option (Text × Text)
  | n, [] => if n = 0 then some ([], []) else none
  | n, c :: rest =>
    if n = 0 then some ([], c :: rest)
    else if c.utf8Size ≤ n then
      (splitAt? (n - c.utf8Size) rest).map fun (before, after) => (c :: before, after)
    else none

def from? (n : Nat) (t : Text) : Option Text := (splitAt? n t).map Prod.snd

def cut? (s : Span) (t : Text) : Option Text :=
  (splitAt? s.stop t).bind fun (before, _) => from? s.start before

/-- The characters of a text that starts at `offset`, each with the offset where it starts. -/
def indices (offset : Nat) : Text → List (Nat × Char)
  | [] => []
  | c :: rest => (offset, c) :: indices (offset + c.utf8Size) rest

theorem splitAt?_size_append (before after : Text) :
    splitAt? (size before) (before ++ after) = some (before, after) := by
  induction before with
  | nil => cases after <;> rfl
  | cons c before ih =>
    have hpos := c.utf8Size_pos
    rw [List.cons_append, splitAt?, size_cons, if_neg (by omega), if_pos (Nat.le_add_right ..),
      Nat.add_sub_cancel_left, ih]
    rfl

/-- A text can be cut at an offset only between two parts of it. -/
theorem splitAt?_eq_some_iff {n : Nat} {t before after : Text} :
    splitAt? n t = some (before, after) ↔ t = before ++ after ∧ n = size before := by
  constructor
  · intro h
    induction t generalizing n before with
    | nil =>
      rw [splitAt?] at h
      split_ifs at h with hn
      cases h
      exact ⟨rfl, hn⟩
    | cons c rest ih =>
      rw [splitAt?] at h
      split_ifs at h with hn hc
      · cases h
        exact ⟨rfl, hn⟩
      · obtain ⟨⟨u, v⟩, hsplit, heq⟩ := Option.map_eq_some_iff.1 h
        cases heq
        obtain ⟨rfl, hsize⟩ := ih hsplit
        exact ⟨rfl, by rw [size_cons]; omega⟩
  · rintro ⟨rfl, rfl⟩
    exact splitAt?_size_append before after

theorem from?_size_append (before after : Text) :
    from? (size before) (before ++ after) = some after := by
  rw [from?, splitAt?_size_append]
  rfl

theorem cut?_of_text {before t after whole : Text} (h : whole = before ++ (t ++ after)) :
    cut? ⟨size before, size before + size t⟩ whole = some t := by
  rw [cut?, ← size_append, h, ← List.append_assoc, splitAt?_size_append]
  exact from?_size_append before t

end Text

/-! ## Places in a fragment -/

namespace Fragment

def from? (f : Fragment) (n : Nat) : Option Text :=
  (minus? n f.offset).bind fun n => f.text.from? n

def cut? (f : Fragment) (s : Span) : Option Text :=
  (minus? s.start f.offset).bind fun start =>
    (minus? s.stop f.offset).bind fun stop => f.text.cut? ⟨start, stop⟩

/-- At offset `pos` of the larger text, `rest` is left of the fragment. -/
def RestAt (f : Fragment) (pos : Nat) (rest : Text) : Prop :=
  ∃ before, f.text = before ++ rest ∧ pos = f.offset + Text.size before

namespace RestAt

variable {f : Fragment} {pos : Nat} {t rest : Text}

theorem start (f : Fragment) : f.RestAt f.offset f.text := ⟨[], rfl, rfl⟩

theorem step (h : f.RestAt pos (t ++ rest)) : f.RestAt (pos + Text.size t) rest := by
  obtain ⟨before, htext, rfl⟩ := h
  exact ⟨before ++ t, by rw [htext, List.append_assoc], by rw [Text.size_append, Nat.add_assoc]⟩

theorem next {c : Char} (h : f.RestAt pos (c :: rest)) : f.RestAt (pos + c.utf8Size) rest :=
  step (t := [c]) h

theorem stop (h : f.RestAt pos rest) : f.stop = pos + Text.size rest := by
  obtain ⟨before, htext, rfl⟩ := h
  rw [Fragment.stop, htext, Text.size_append, Nat.add_assoc]

theorem from? (h : f.RestAt pos rest) : f.from? pos = some rest := by
  obtain ⟨before, htext, rfl⟩ := h
  rw [Fragment.from?, minus?_add_left, htext]
  exact Text.from?_size_append before rest

theorem cut? (h : f.RestAt pos (t ++ rest)) : f.cut? ⟨pos, pos + Text.size t⟩ = some t := by
  obtain ⟨before, htext, rfl⟩ := h
  rw [Fragment.cut?, minus?_add_left, Nat.add_assoc, minus?_add_left]
  exact Text.cut?_of_text htext

end RestAt

/-- Between two cuts in their order, the fragment can be cut out. -/
theorem cut?_of_isCut {f : Fragment} {a b : Nat} (ha : f.IsCut a) (hb : f.IsCut b) (hab : a ≤ b) :
    f.cut? ⟨a, b⟩ = some (f.slice ⟨a, b⟩) := by
  obtain ⟨u, v, htext, rfl⟩ := ha
  obtain ⟨ub, vb, htextb, rfl⟩ := hb
  obtain ⟨t, rfl, rfl⟩ := Text.exists_append_of_size_le (htext.symm.trans htextb) (by omega)
  have hrest : f.RestAt (f.offset + Text.size u) (t ++ vb) := ⟨u, htext, rfl⟩
  rw [Text.size_append, ← Nat.add_assoc, hrest.cut?, slice_of_text htext rfl rfl]

end Fragment

/-! ## Steps that cut -/

/-- A step that cuts texts. It can meet a fault, and it breaks off if a cut fails. -/
abbrev Slicing (ε α : Type) := ExceptT ε Option α

/-- The step does not break off, and `outcome` is what it ends with. -/
def Slicing.Yields {ε α : Type} (x : Slicing ε α) (outcome : Except ε α) : Prop :=
  x.run = some outcome

namespace Slicing.Yields

variable {ε α β : Type}

theorem pure (a : α) : Yields (Pure.pure a : Slicing ε α) (.ok a) := rfl

theorem throw (e : ε) : Yields (MonadExcept.throw e : Slicing ε α) (.error e) := rfl

/-- A cut that does not fail, and what is done with the part that is cut out. -/
theorem cut {x : Option α} {a : α} {f : α → Slicing ε β} {outcome : Except ε β} (h : x = some a)
    (hf : (f a).Yields outcome) : ((liftM x : Slicing ε α) >>= f).Yields outcome := by
  rw [h]
  exact hf

theorem bind {x : Slicing ε α} {outcome : Except ε α} {f : α → Slicing ε β}
    {g : α → Except ε β} (hx : x.Yields outcome) (hf : ∀ a, outcome = .ok a → (f a).Yields (g a)) :
    (x >>= f).Yields (outcome >>= g) := by
  rw [Yields, ExceptT.run_bind, show x.run = some outcome from hx]
  cases outcome with
  | ok a => exact hf a rfl
  | error e => rfl

/-- A step that ends with an image of `outcome` goes on like it. -/
theorem bind_map {γ : Type} {x : Slicing ε α} {outcome : Except ε γ} {p : γ → α}
    {f : α → Slicing ε β} {g : γ → Except ε β} (hx : x.Yields (outcome.map p))
    (hf : ∀ c, outcome = .ok c → (f (p c)).Yields (g c)) : (x >>= f).Yields (outcome >>= g) := by
  rw [Yields, ExceptT.run_bind, show x.run = some (outcome.map p) from hx]
  cases outcome with
  | ok c => exact hf c rfl
  | error e => rfl

theorem map {x : Slicing ε α} {outcome : Except ε α} (hx : x.Yields outcome) (f : α → β) :
    (f <$> x).Yields (outcome.map f) := by
  rw [Yields, ExceptT.run_map, show x.run = some outcome from hx]
  rfl

theorem adapt {ε' : Type} {x : Slicing ε α} {outcome : Except ε α} (hx : x.Yields outcome)
    (f : ε → ε') : Slicing.Yields (ExceptT.adapt f x) (outcome.mapError f) := by
  have hrun : x = ExceptT.mk (some outcome) := hx
  rw [hrun]
  rfl

theorem ite {c : Prop} [Decidable c] {x y : Slicing ε α} {outcome outcome' : Except ε α}
    (ht : c → x.Yields outcome) (he : ¬c → y.Yields outcome') :
    (if c then x else y).Yields (if c then outcome else outcome') := by
  by_cases h : c
  · simpa only [if_pos h] using ht h
  · simpa only [if_neg h] using he h

end Slicing.Yields

end QueryTemplate
