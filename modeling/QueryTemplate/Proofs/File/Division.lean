import QueryTemplate.Proofs.Alignment.Source

/-! # Dividing a file in two

If a file is cut in front of a header line, its methods are those of the two halves. The methods
of the first half stay where they are, and those of the second half are moved by the length of the
first one.
-/

namespace QueryTemplate

namespace Text

/-- Whether the text consists of whole lines. -/
def EndsLine (t : Text) : Prop := t = [] ∨ t.getLast? = some '\n'

theorem EndsLine.tail {c : Char} {rest : Text} (h : EndsLine (c :: rest)) :
    EndsLine rest ∧ (rest = [] → c = '\n') := by
  rcases h with h | h
  · exact absurd h (List.cons_ne_nil _ _)
  · cases rest with
    | nil => exact ⟨.inl rfl, fun _ => by simpa using h⟩
    | cons d rest => exact ⟨.inr (by simpa using h), fun hnil => absurd hnil (List.cons_ne_nil _ _)⟩

theorem lines_append {a : Text} (ha : EndsLine a) (b : Text) :
    lines (a ++ b) = lines a ++ lines b := by
  induction a with
  | nil => rfl
  | cons c rest ih =>
    obtain ⟨hrest, hlast⟩ := ha.tail
    rw [List.cons_append, lines, lines]
    by_cases hc : c = '\n'
    · rw [if_pos hc, if_pos hc, ih hrest, List.cons_append]
    · rw [if_neg hc, if_neg hc, ih hrest]
      cases hl : lines rest with
      | nil =>
        have hnil : rest = [] := by rw [← flatten_lines rest, hl, List.flatten_nil]
        exact absurd (hlast hnil) hc
      | cons line later => rfl

end Text

def Fragment.shift (base : Nat) (f : Fragment) : Fragment := ⟨f.offset + base, f.text⟩

namespace MethodSource

def StartsWithHeader (t : Text) : Prop :=
  ∃ line ∈ (Text.lines t).head?, (headerRest? line).isSome

def Block.shift (base : Nat) (b : Block) : Block :=
  ⟨b.header.shift base, b.rest, b.body.map (Fragment.shift base)⟩

/-! ## Lines -/

theorem locate_append (o : Nat) (xs ys : List Text) :
    locate o (xs ++ ys) = locate o xs ++ locate (o + Text.size xs.flatten) ys := by
  induction xs generalizing o with
  | nil => rfl
  | cons x xs ih =>
    rw [List.cons_append, locate, locate, ih, List.flatten_cons, Text.size_append, Nat.add_assoc]
    rfl

theorem locate_shift (base o : Nat) (lines : List Text) :
    locate (o + base) lines = (locate o lines).map (Fragment.shift base) := by
  induction lines generalizing o with
  | nil => rfl
  | cons line lines ih =>
    rw [locate, locate, Nat.add_right_comm, ih]
    rfl

/-! ## Blocks -/

theorem group_cons (line : Fragment) (later : List Fragment) :
    group (line :: later) = match headerRest? line.text with
      | some rest => ([], ⟨line, rest, (group later).1⟩ :: (group later).2)
      | none => (line :: (group later).1, (group later).2) := rfl

theorem group_append (xs : List Fragment) {ys : List Fragment} (hys : (group ys).1 = []) :
    group (xs ++ ys) = ((group xs).1, (group xs).2 ++ (group ys).2) := by
  induction xs with
  | nil => exact Prod.ext hys rfl
  | cons x xs ih =>
    rw [List.cons_append, group_cons, group_cons, ih]
    split <;> rfl

theorem group_shift (base : Nat) (lines : List Fragment) :
    group (lines.map (Fragment.shift base)) =
      ((group lines).1.map (Fragment.shift base), (group lines).2.map (Block.shift base)) := by
  induction lines with
  | nil => rfl
  | cons line lines ih =>
    rw [List.map_cons, group_cons, group_cons, ih]
    cases hheader : headerRest? line.text <;> simp only [Fragment.shift, hheader] <;> rfl

theorem lead_eq_nil {o : Nat} {t : Text} (h : StartsWithHeader t) :
    (group (locate o (Text.lines t))).1 = [] := by
  obtain ⟨line, hline, hheader⟩ := h
  cases hlines : Text.lines t with
  | nil => simp [hlines] at hline
  | cons first later =>
    obtain rfl : first = line := by simpa [hlines] using hline
    obtain ⟨rest, hrest⟩ := Option.isSome_iff_exists.1 hheader
    rw [locate, group_cons, hrest]

/-- A block starts with a header line, and its lines stand behind one another. -/
structure Block.IsWithin (bound : Nat) (b : Block) : Prop where
  header : headerRest? b.header.text = some b.rest
  stop : b.header.stop + Text.size (b.body.flatMap Fragment.text) ≤ bound

theorem group_isWithin (o : Nat) (lines : List Text) :
    Text.size ((group (locate o lines)).1.flatMap Fragment.text) ≤ Text.size lines.flatten ∧
      ∀ b ∈ (group (locate o lines)).2, b.IsWithin (o + Text.size lines.flatten) := by
  induction lines generalizing o with
  | nil => exact ⟨Nat.le_refl _, fun _ hb => absurd hb List.not_mem_nil⟩
  | cons line lines ih =>
    obtain ⟨hlead, hblocks⟩ := ih (o + Text.size line)
    rw [List.flatten_cons, Text.size_append, ← Nat.add_assoc, locate, group_cons]
    cases hheader : headerRest? line with
    | none =>
      refine ⟨?_, hblocks⟩
      rw [List.flatMap_cons, Text.size_append]
      exact Nat.add_le_add_left hlead _
    | some rest =>
      refine ⟨Nat.zero_le _, fun b hb => ?_⟩
      rcases List.mem_cons.1 hb with rfl | hb
      · exact ⟨hheader, Nat.add_le_add_left hlead _⟩
      · exact hblocks b hb

theorem aligned_ofBlock_shift (base : Nat) {bound : Nat} {b : Block} (hb : b.IsWithin bound) :
    Aligned (.shift base) (ofBlock b) (ofBlock (b.shift base)) := by
  have hstop : (b.header.shift base).stop = b.header.stop + base := Nat.add_right_comm ..
  have htext : (b.shift base).body.flatMap Fragment.text = b.body.flatMap Fragment.text := by
    rw [Block.shift, List.flatMap_map]
    rfl
  rw [ofBlock, ofBlock, htext]
  have hheader : Aligned (.shift base) b.header (b.header.shift base) := Fragment.aligned_shift ..
  refine aligned_ofHeader hheader rfl hb.header ?_ fun s s' hs => ?_
  · rw [hstop]
    exact Fragment.aligned_shift ..
  · obtain ⟨hstart, hend⟩ : s'.start = s.start + base ∧ s'.stop = s.stop + base :=
      ⟨hs.start, hs.stop⟩
    simp only [Fragment.slice, hstop, hstart, hend, Nat.add_sub_add_right]

theorem aligned_ofBlock_self {bound : Nat} {b : Block} (hb : b.IsWithin bound) :
    Aligned (.upTo bound) (ofBlock b) (ofBlock b) := by
  have hstop := hb.stop
  have hsize : Text.size (blankComments .code (b.body.flatMap Fragment.text)) =
      Text.size (b.body.flatMap Fragment.text) := size_blankComments _ _
  have hle : b.header.offset ≤ b.header.stop := Nat.le_add_right ..
  refine aligned_ofHeader (Fragment.aligned_upTo (by omega)) ⟨rfl, by omega⟩ hb.header ?_ ?_
  · refine Fragment.aligned_upTo ?_
    rw [Fragment.stop, hsize]
    exact hstop
  · intro s s' hs
    obtain ⟨hstart, hend⟩ : s'.start = s.start ∧ s'.stop = s.stop := ⟨hs.start.1, hs.stop.1⟩
    simp only [Fragment.slice, hstart, hend]

/-! ## Methods -/

theorem aligned_mapM_ofBlock {A : Alignment} {bs bs' : List Block}
    (h : List.Forall₂ (fun b b' => Aligned A (ofBlock b) (ofBlock b')) bs bs') :
    Aligned A (bs.mapM ofBlock) (bs'.mapM ofBlock) := by
  induction h with
  | nil => exact .ok .nil
  | cons hb _ ih =>
    rw [List.mapM_cons, List.mapM_cons]
    exact aligned_bind hb fun _ _ hm => aligned_bind ih fun _ _ hms => .ok (.cons hm hms)

theorem split_eq (t : Text) : split t = (do
    (group (locate 0 (Text.lines t))).1.forM checkLead
    (group (locate 0 (Text.lines t))).2.mapM ofBlock) := rfl

/-- The methods of a file lie in the file. -/
theorem aligned_split_self {t : Text} {sources : List MethodSource} (h : split t = .ok sources) :
    Aligned (.upTo (Text.size t)) sources sources := by
  have hblocks := (group_isWithin 0 (Text.lines t)).2
  rw [Nat.zero_add, Text.flatten_lines] at hblocks
  rw [split_eq] at h
  generalize group (locate 0 (Text.lines t)) = grouped at h hblocks
  have haligned := aligned_mapM_ofBlock <| List.forall₂_same.2 fun b hb =>
    aligned_ofBlock_self (hblocks b hb)
  cases hlead : grouped.1.forM checkLead with
  | error e =>
    rw [hlead] at h
    cases h
  | ok _ =>
    rw [hlead] at h
    have hmethods : grouped.2.mapM ofBlock = .ok sources := h
    rw [hmethods] at haligned
    cases haligned with
    | ok haligned => exact haligned

/-- Behind whole lines, the methods of a text that starts with a header line are moved. -/
theorem split_append {a b : Text} (ha : Text.EndsLine a) (hb : StartsWithHeader b)
    {first second : List MethodSource} (hfirst : split a = .ok first)
    (hsecond : split b = .ok second) :
    ∃ moved, split (a ++ b) = .ok (first ++ moved) ∧
      Aligned (.shift (Text.size a)) second moved := by
  have hmoved : locate (0 + Text.size a) (Text.lines b) =
      (locate 0 (Text.lines b)).map (Fragment.shift (Text.size a)) := locate_shift ..
  have hlead := lead_eq_nil (o := 0 + Text.size a) hb
  rw [split_eq] at hfirst hsecond
  rw [lead_eq_nil hb] at hsecond
  have hblocks := (group_isWithin 0 (Text.lines b)).2
  rw [split_eq, Text.lines_append ha, locate_append, Text.flatten_lines, group_append _ hlead,
    hmoved, group_shift]
  generalize group (locate 0 (Text.lines b)) = grouped at hsecond hblocks
  have haligned : Aligned (.shift (Text.size a)) (grouped.2.mapM ofBlock)
      ((grouped.2.map (Block.shift (Text.size a))).mapM ofBlock) := by
    refine aligned_mapM_ofBlock (List.forall₂_map_right_iff.2 (List.forall₂_same.2 fun b hb => ?_))
    exact aligned_ofBlock_shift _ (hblocks b hb)
  have hok : grouped.2.mapM ofBlock = .ok second := hsecond
  rw [hok] at haligned
  generalize hx : (grouped.2.map _).mapM ofBlock = x at haligned
  cases haligned with
  | @ok _ moved haligned =>
    refine ⟨moved, ?_, haligned⟩
    rw [List.mapM_append, hx, ← bind_assoc, hfirst]
    rfl

end MethodSource

end QueryTemplate
