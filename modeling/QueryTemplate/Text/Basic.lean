/-! # Texts

A text is the list of its characters. Positions in a text are byte offsets into its UTF-8
encoding, so the size of a text is the number of bytes it takes.
-/

namespace QueryTemplate

/-- A text, character by character. -/
abbrev Text := List Char

namespace Text

/-- The number of bytes of the UTF-8 encoding. -/
def size : Text → Nat
  | [] => 0
  | c :: rest => c.utf8Size + size rest

@[simp] theorem size_nil : size [] = 0 := rfl

@[simp] theorem size_cons (c : Char) (rest : Text) :
    size (c :: rest) = c.utf8Size + size rest := rfl

@[simp] theorem size_append (a b : Text) : size (a ++ b) = size a + size b := by
  induction a with
  | nil => simp
  | cons c rest ih => simp [ih, Nat.add_assoc]

/-- The longest beginning of a text that takes at most `n` bytes. -/
def takeBytes : Nat → Text → Text
  | _, [] => []
  | n, c :: rest => if c.utf8Size ≤ n then c :: takeBytes (n - c.utf8Size) rest else []

/-- What `takeBytes n` leaves. -/
def dropBytes : Nat → Text → Text
  | _, [] => []
  | n, c :: rest => if c.utf8Size ≤ n then dropBytes (n - c.utf8Size) rest else c :: rest

theorem takeBytes_append_dropBytes (n : Nat) (t : Text) :
    takeBytes n t ++ dropBytes n t = t := by
  induction t generalizing n with
  | nil => rfl
  | cons c rest ih =>
    by_cases h : c.utf8Size ≤ n <;> simp [takeBytes, dropBytes, h, ih]

abbrev toString (t : Text) : String := String.ofList t

/-- The text without `lead`, if it starts with it. -/
def dropLead? : (lead : Text) → Text → Option Text
  | [], t => some t
  | _ :: _, [] => none
  | d :: lead, c :: rest => if c = d then dropLead? lead rest else none

theorem dropLead?_eq_some_iff {lead t rest : Text} :
    dropLead? lead t = some rest ↔ t = lead ++ rest := by
  induction lead generalizing t with
  | nil => simp [dropLead?]
  | cons d lead ih =>
    cases t with
    | nil => simp [dropLead?]
    | cons c t => by_cases h : c = d <;> simp [dropLead?, h, ih]

/-- The text before the first `c` and the text after it, if there is a `c`. -/
def splitFirst? (c : Char) : Text → Option (Text × Text)
  | [] => none
  | d :: rest =>
    if d = c then some ([], rest)
    else (splitFirst? c rest).map fun (before, after) => (d :: before, after)

theorem splitFirst?_eq_some {c : Char} {t before after : Text}
    (h : splitFirst? c t = some (before, after)) : t = before ++ c :: after ∧ c ∉ before := by
  induction t generalizing before with
  | nil => simp [splitFirst?] at h
  | cons d rest ih =>
    by_cases hd : d = c
    · simp only [splitFirst?, hd, if_true, Option.some.injEq, Prod.mk.injEq] at h
      obtain ⟨rfl, rfl⟩ := h
      simp [hd]
    · simp only [splitFirst?, hd, if_false, Option.map_eq_some_iff] at h
      obtain ⟨⟨u, v⟩, hs, huv⟩ := h
      simp only [Prod.mk.injEq] at huv
      obtain ⟨rfl, rfl⟩ := huv
      obtain ⟨rfl, hu⟩ := ih hs
      exact ⟨rfl, by simp [hu, Ne.symm hd]⟩

/-- The text before the first place where `mark` stands and the text behind that mark. -/
def splitMark? (mark : Text) : Text → Option (Text × Text)
  | [] => none
  | c :: rest =>
    match dropLead? mark (c :: rest) with
    | some after => some ([], after)
    | none => (splitMark? mark rest).map fun (before, after) => (c :: before, after)

theorem splitMark?_append {mark t before after : Text}
    (h : splitMark? mark t = some (before, after)) : t = before ++ mark ++ after := by
  fun_induction splitMark? mark t generalizing before after with
  | case1 => simp at h
  | case2 c rest found hd =>
    simp only [Option.some.injEq, Prod.mk.injEq] at h
    obtain ⟨rfl, rfl⟩ := h
    simpa using dropLead?_eq_some_iff.1 hd
  | case3 c rest _ ih =>
    obtain ⟨⟨u, v⟩, hs, huv⟩ := Option.map_eq_some_iff.1 h
    simp only [Prod.mk.injEq] at huv
    obtain ⟨rfl, rfl⟩ := huv
    simp [ih hs]

/-- The text before the last `c` and the text after it, if there is a `c`. -/
def splitLast? (c : Char) : Text → Option (Text × Text)
  | [] => none
  | d :: rest =>
    match splitLast? c rest with
    | some (before, after) => some (d :: before, after)
    | none => if d = c then some ([], rest) else none

/-- The lines of a text, each with the line feed that ends it. -/
def lines : Text → List Text
  | [] => []
  | c :: rest =>
    if c = '\n' then [c] :: lines rest
    else
      match lines rest with
      | [] => [[c]]
      | line :: later => (c :: line) :: later

theorem flatten_lines (t : Text) : (lines t).flatten = t := by
  induction t with
  | nil => rfl
  | cons c rest ih =>
    by_cases h : c = '\n'
    · simp [lines, h, ih]
    · cases hl : lines rest with
      | nil => simp_all [lines]
      | cons line later => simp_all [lines]

end Text

end QueryTemplate
