import QueryTemplate.Text.Space

/-! # Places in a text

A span is a pair of byte offsets. A thing with the span it was read from is `Located`; moving a
located thing moves its span only. A fragment is a part of a larger text that knows where it
starts, so what is read from it is located in the larger text.
-/

namespace QueryTemplate

/-- The bytes from offset `start` up to but not including offset `stop`. -/
structure Span where
  start : Nat
  stop : Nat
deriving DecidableEq, Repr, Inhabited

namespace Span

def point (n : Nat) : Span := ⟨n, n⟩

/-- The least span that covers both spans. -/
def merge (a b : Span) : Span := ⟨min a.start b.start, max a.stop b.stop⟩

def shift (base : Nat) (s : Span) : Span := ⟨s.start + base, s.stop + base⟩

/-- The number of bytes; a span that stops before it starts has none. -/
def size (s : Span) : Nat := s.stop - s.start

def isEmpty (s : Span) : Bool := s.size == 0

@[simp] theorem shift_zero (s : Span) : s.shift 0 = s := rfl

theorem shift_shift (a b : Nat) (s : Span) : (s.shift a).shift b = s.shift (a + b) := by
  simp [shift, Nat.add_assoc]

end Span

def Text.slice (t : Text) (s : Span) : Text :=
  Text.takeBytes s.size (Text.dropBytes s.start t)

/-- A value together with the place it was read from. -/
structure Located (α : Type) where
  value : α
  span : Span
deriving DecidableEq, Repr

namespace Located

variable {α β : Type}

/-- The same value read from a text that starts `base` bytes earlier. -/
def shift (base : Nat) (x : Located α) : Located α := ⟨x.value, x.span.shift base⟩

def map (f : α → β) (x : Located α) : Located β := ⟨f x.value, x.span⟩

@[simp] theorem map_shift (f : α → β) (base : Nat) (x : Located α) :
    (x.shift base).map f = (x.map f).shift base := rfl

end Located

/-- A part of a larger text, and the byte offset at which it starts there. -/
structure Fragment where
  offset : Nat
  text : Text
deriving DecidableEq, Repr

namespace Fragment

/-- A text taken on its own. -/
def ofText (t : Text) : Fragment := ⟨0, t⟩

/-- The byte offset behind the last character. -/
def stop (f : Fragment) : Nat := f.offset + Text.size f.text

def span (f : Fragment) : Span := ⟨f.offset, f.stop⟩

/-- The part of the fragment that a span of the larger text covers. -/
def slice (f : Fragment) (s : Span) : Text :=
  Text.slice f.text ⟨s.start - f.offset, s.stop - f.offset⟩

end Fragment

/-- The words of a text that starts at byte offset `start`, in order. -/
def Text.words (start : Nat) : Text → List (Located Text)
  | [] => []
  | c :: rest =>
    let later := words (start + c.utf8Size) rest
    if isSpace c then later
    else
      match rest, later with
      | d :: _, ⟨word, span⟩ :: others =>
        if isSpace d then ⟨[c], ⟨start, start + c.utf8Size⟩⟩ :: later
        else ⟨c :: word, ⟨start, span.stop⟩⟩ :: others
      | _, _ => ⟨[c], ⟨start, start + c.utf8Size⟩⟩ :: later

end QueryTemplate
