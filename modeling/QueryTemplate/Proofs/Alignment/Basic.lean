import Mathlib.Tactic.SplitIfs
import QueryTemplate.Proofs.Outcome

/-! # Alignments

The same text can stand in two larger texts, at different offsets. An alignment matches the
offsets in one with those in the other, and two values are aligned if they are the same but for
the places in them, which the alignment matches. What is read from aligned texts is aligned: this
is shown reader by reader, and then used with the alignment that moves all offsets by a constant
and with the one that matches every offset up to a bound with itself.
-/

namespace QueryTemplate

/-- A matching of offsets that the cover of two spans respects. -/
structure Alignment where
  Matches : Nat → Nat → Prop
  min {a b a' b' : Nat} : Matches a a' → Matches b b' → Matches (min a b) (min a' b')
  max {a b a' b' : Nat} : Matches a a' → Matches b b' → Matches (max a b) (max a' b')

namespace Alignment

/-- Every offset is matched with the one `base` bytes to its right. -/
def shift (base : Nat) : Alignment where
  Matches a a' := a' = a + base
  min ha hb := by omega
  max ha hb := by omega

/-- Every offset up to `bound` is matched with itself. -/
def upTo (bound : Nat) : Alignment where
  Matches a a' := a' = a ∧ a ≤ bound
  min ha hb := by omega
  max ha hb := by omega

/-- An alignment that matches fewer offsets. -/
instance : LE Alignment := ⟨fun A B => ∀ a a', A.Matches a a' → B.Matches a a'⟩

end Alignment

/-- Values that hold places in a text. -/
class Alignable (α : Type) where
  /-- The values are the same but for the places in them, which the alignment matches. -/
  Aligned : Alignment → α → α → Prop

export Alignable (Aligned)

/-- Values that hold no places are aligned if they are equal. -/
abbrev Alignable.plain {α : Type} : Alignable α := ⟨fun _ => Eq⟩

instance : Alignable Unit := .plain
instance : Alignable Bool := .plain
instance : Alignable Text := .plain

section Structures

variable {α β ε : Type} [Alignable α] [Alignable β] [Alignable ε] {A : Alignment}

instance : Alignable (α × β) :=
  ⟨fun A x x' => Aligned A x.1 x'.1 ∧ Aligned A x.2 x'.2⟩

instance : Alignable (List α) := ⟨fun A => List.Forall₂ (Aligned A)⟩

instance : Alignable (Option α) := ⟨fun A => Option.Rel (Aligned A)⟩

instance : Alignable (Except ε α) := ⟨fun A => Except.Related (Aligned A) (Aligned A)⟩

theorem aligned_bind {x x' : Except ε α} {f f' : α → Except ε β} (hx : Aligned A x x')
    (hf : ∀ a a', Aligned A a a' → Aligned A (f a) (f' a')) :
    Aligned A (x >>= f) (x' >>= f') :=
  Except.Related.bind hx hf

theorem aligned_map {x x' : Except ε α} {f f' : α → β} (hx : Aligned A x x')
    (hf : ∀ a a', Aligned A a a' → Aligned A (f a) (f' a')) :
    Aligned A (x.map f) (x'.map f') :=
  Except.Related.map hx hf

theorem aligned_mapError {x x' : Except ε α} {f f' : ε → β} (hx : Aligned A x x')
    (hf : ∀ e e', Aligned A e e' → Aligned A (f e) (f' e')) :
    Aligned A (x.mapError f) (x'.mapError f') :=
  Except.Related.mapError hx hf

theorem aligned_list_map {xs xs' : List α} {f f' : α → β} (hx : Aligned A xs xs')
    (hf : ∀ a a', Aligned A a a' → Aligned A (f a) (f' a')) :
    Aligned A (xs.map f) (xs'.map f') := by
  induction hx with
  | nil => exact .nil
  | cons h _ ih => exact .cons (hf _ _ h) ih

theorem aligned_append {xs xs' ys ys' : List α} (hx : Aligned A xs xs') (hy : Aligned A ys ys') :
    Aligned A (xs ++ ys) (xs' ++ ys') := by
  induction hx with
  | nil => exact hy
  | cons h _ ih => exact .cons h ih

theorem aligned_toList {x x' : Option α} (h : Aligned A x x') :
    Aligned A x.toList x'.toList := by
  cases h with
  | none => exact .nil
  | some h => exact .cons h .nil

theorem aligned_isSome {x x' : Option α} (h : Aligned A x x') : x.isSome = x'.isSome := by
  cases h <;> rfl

end Structures

/-! ## Spans and located values -/

structure Span.Alike (A : Alignment) (s s' : Span) : Prop where
  start : A.Matches s.start s'.start
  stop : A.Matches s.stop s'.stop

instance : Alignable Span := ⟨Span.Alike⟩

theorem Span.Alike.merge {A : Alignment} {s s' t t' : Span} (hs : Aligned A s s')
    (ht : Aligned A t t') : Aligned A (s.merge t) (s'.merge t') :=
  ⟨A.min hs.start ht.start, A.max hs.stop ht.stop⟩

theorem Span.Alike.point {A : Alignment} {n n' : Nat} (h : A.Matches n n') :
    Aligned A (Span.point n) (Span.point n') := ⟨h, h⟩

structure Located.Alike {α : Type} [Alignable α] (A : Alignment) (x x' : Located α) : Prop where
  value : Aligned A x.value x'.value
  span : Aligned A x.span x'.span

instance {α : Type} [Alignable α] : Alignable (Located α) := ⟨Located.Alike⟩

/-! ## Places moved by a constant -/

section

variable {base : Nat}

theorem Span.eq_shift {s s' : Span} (h : Aligned (.shift base) s s') : s' = s.shift base := by
  obtain ⟨start, stop⟩ := s'
  obtain ⟨rfl, rfl⟩ : start = s.start + base ∧ stop = s.stop + base := ⟨h.start, h.stop⟩
  rfl

theorem eq_map_of_aligned {α : Type} [Alignable α] {f : α → α}
    (hf : ∀ x x', Aligned (.shift base) x x' → x' = f x) {xs xs' : List α}
    (h : Aligned (.shift base) xs xs') : xs' = xs.map f := by
  induction h with
  | nil => rfl
  | cons hx _ ih => rw [List.map_cons, hf _ _ hx, ih]

theorem Located.eq_shift {α : Type} [Alignable α]
    (hα : ∀ x x' : α, Aligned (.shift base) x x' → x' = x) {x x' : Located α}
    (h : Aligned (.shift base) x x') : x' = x.shift base := by
  obtain ⟨value, span⟩ := x'
  obtain rfl : value = x.value := hα _ _ h.value
  obtain rfl : span = x.span.shift base := Span.eq_shift h.span
  rfl

theorem Except.eq_map_of_aligned {α ε : Type} [Alignable α] [Alignable ε] {f : α → α} {g : ε → ε}
    (hf : ∀ x x', Aligned (.shift base) x x' → x' = f x)
    (hg : ∀ e e', Aligned (.shift base) e e' → e' = g e) {x x' : Except ε α}
    (h : Aligned (.shift base) x x') : x' = (x.map f).mapError g := by
  cases h with
  | ok hx =>
    rw [hf _ _ hx]
    rfl
  | error he =>
    rw [hg _ _ he]
    rfl

end

/-! ## Alignments that match more -/

/-- Values that are aligned stay so where more offsets are matched. -/
class Realignable (α : Type) [Alignable α] : Prop where
  mono {A B : Alignment} {x x' : α} : A ≤ B → Aligned A x x' → Aligned B x x'

instance : Realignable Bool := ⟨fun _ h => h⟩
instance : Realignable Text := ⟨fun _ h => h⟩

section Structures

variable {α β : Type} [Alignable α] [Alignable β] [Realignable α] [Realignable β]

instance : Realignable (α × β) :=
  ⟨fun hAB h => ⟨Realignable.mono hAB h.1, Realignable.mono hAB h.2⟩⟩

instance : Realignable (List α) := ⟨fun hAB h => h.imp fun _ _ => Realignable.mono hAB⟩

instance : Realignable (Option α) where
  mono hAB h := by
    cases h with
    | none => exact .none
    | some h => exact .some (Realignable.mono hAB h)

instance : Realignable Span := ⟨fun hAB h => ⟨hAB _ _ h.start, hAB _ _ h.stop⟩⟩

instance : Realignable (Located α) :=
  ⟨fun hAB h => ⟨Realignable.mono hAB h.value, Realignable.mono hAB h.span⟩⟩

end Structures

/-! ## Fragments -/

/-- Whether a text can be cut between `before` and `after` so that the cut does not lie in a run
of blanks: `after` is empty or one side of the cut is another character. -/
def Text.IsEdge (before after : Text) : Prop :=
  after.head? ≠ some ' ' ∨ ∃ c, before.getLast? = some c ∧ c ≠ ' '

/-- The fragments have the same text, and every cut of it that is an edge is matched. -/
structure Fragment.Alike (A : Alignment) (f f' : Fragment) : Prop where
  text : f.text = f'.text
  cut (before after : Text) : f.text = before ++ after → Text.IsEdge before after →
    A.Matches (f.offset + Text.size before) (f'.offset + Text.size before)

instance : Alignable Fragment := ⟨Fragment.Alike⟩

theorem Fragment.aligned_shift (base o : Nat) (t : Text) :
    Aligned (.shift base) (⟨o, t⟩ : Fragment) ⟨o + base, t⟩ :=
  ⟨rfl, fun before _ _ _ => Nat.add_right_comm o base (Text.size before)⟩

namespace Fragment.Alike

variable {A : Alignment} {f f' : Fragment} {o o' : Nat} {before after : Text} {c : Char}

theorem stop (h : Aligned A f f') : A.Matches f.stop f'.stop := by
  have hcut := h.cut f.text [] (by simp) (.inl (by simp))
  rw [Fragment.stop, Fragment.stop, ← h.text]
  exact hcut

/-- The beginning of aligned fragments that do not begin with a blank. -/
theorem start (h : Aligned A (⟨o, c :: after⟩ : Fragment) ⟨o', c :: after⟩) (hc : c ≠ ' ') :
    A.Matches o o' :=
  h.cut [] _ rfl (.inl (by simpa using hc))

/-- An end part of aligned fragments. -/
theorem behind (h : Aligned A (⟨o, before ++ after⟩ : Fragment) ⟨o', before ++ after⟩) :
    Aligned A (⟨o + Text.size before, after⟩ : Fragment) ⟨o' + Text.size before, after⟩ := by
  refine ⟨rfl, fun u v huv hedge => ?_⟩
  have hcut := h.cut (before ++ u) v (by simp_all) ?_
  · simpa [Nat.add_assoc] using hcut
  · refine hedge.imp id fun ⟨d, hd, hne⟩ => ⟨d, ?_, hne⟩
    simp [List.getLast?_append, hd]

theorem tail (h : Aligned A (⟨o, c :: after⟩ : Fragment) ⟨o', c :: after⟩) :
    Aligned A (⟨o + c.utf8Size, after⟩ : Fragment) ⟨o' + c.utf8Size, after⟩ :=
  have h : Aligned A (⟨o, [c] ++ after⟩ : Fragment) ⟨o', [c] ++ after⟩ := h
  h.behind

/-- A beginning of aligned fragments that something else than a blank follows. -/
theorem upTo (h : Aligned A (⟨o, before ++ c :: after⟩ : Fragment) ⟨o', before ++ c :: after⟩)
    (hc : c ≠ ' ') : Aligned A (⟨o, before⟩ : Fragment) ⟨o', before⟩ := by
  refine ⟨rfl, fun u v huv hedge => h.cut u (v ++ c :: after) (by simp_all) ?_⟩
  refine hedge.imp (fun hv => ?_) id
  cases v with
  | nil => simpa using hc
  | cons d v => simpa using hv

end Fragment.Alike

end QueryTemplate
