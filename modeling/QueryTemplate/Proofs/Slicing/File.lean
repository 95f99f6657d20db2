import QueryTemplate.Proofs.File.Boundaries
import QueryTemplate.Proofs.Slicing.Text

/-! # Cutting files

Words are cut out of a header line by the offsets where they begin and end, and a comment is cut
off a line at the offset where it begins. No cut fails, and the method sources are those that the
file is divided into.
-/

namespace QueryTemplate

open Text (indices)

/-! ## Words -/

namespace Text

/-- The words of a text, given the characters that are left of it. If a word is being read, `start`
is the offset where it begins. -/
def wordsAt? (source : Fragment) : (start : Option Nat) → List (Nat × Char) →
    Option (List (Located Text))
  | none, [] => some []
  | some start, [] => do
    let word ← source.from? start
    return [⟨word, ⟨start, source.stop⟩⟩]
  | none, (i, c) :: later =>
    if isSpace c then wordsAt? source none later else wordsAt? source (some i) later
  | some start, (i, c) :: later =>
    if isSpace c then do
      let word ← source.cut? ⟨start, i⟩
      return ⟨word, ⟨start, i⟩⟩ :: (← wordsAt? source none later)
    else wordsAt? source (some start) later

variable {source : Fragment} {pos start : Nat} {rest : Text}

theorem wordsAt?_space {space : Text} (h : ∀ c ∈ space, isSpace c) (pos : Nat) (rest : Text) :
    wordsAt? source none (indices pos (space ++ rest)) =
      wordsAt? source none (indices (pos + size space) rest) := by
  induction space generalizing pos with
  | nil => rfl
  | cons c space ih =>
    obtain ⟨hc, hspace⟩ := List.forall_mem_cons.1 h
    rw [List.cons_append, indices, wordsAt?, if_pos hc, ih hspace, size_cons, Nat.add_assoc]

theorem wordsAt?_word {word : Text} (h : ∀ c ∈ word, isSpace c = false) (start pos : Nat)
    (rest : Text) : wordsAt? source (some start) (indices pos (word ++ rest)) =
      wordsAt? source (some start) (indices (pos + size word) rest) := by
  induction word generalizing pos with
  | nil => rfl
  | cons c word ih =>
    obtain ⟨hc, hword⟩ := List.forall_mem_cons.1 h
    rw [List.cons_append, indices, wordsAt?, if_neg (by simp [hc]), ih hword, size_cons,
      Nat.add_assoc]

theorem HoldsWords.wordsAt? {words : List (Located Text)} (h : HoldsWords pos rest words)
    (hrest : source.RestAt pos rest) :
    Text.wordsAt? source none (indices pos rest) = some words := by
  induction h with
  | @nil pos space hspace =>
    have hskip := @wordsAt?_space source space hspace pos []
    rw [List.append_nil] at hskip
    exact hskip
  | @cons pos space word rest words hspace hne hword hnext hlater ih =>
    obtain ⟨c, word, rfl⟩ := List.exists_cons_of_ne_nil hne
    have hbegin := hrest.step
    have hlast := ih hbegin.step
    rw [size_cons, ← Nat.add_assoc] at hlast ⊢
    rw [wordsAt?_space hspace, List.cons_append, indices, Text.wordsAt?, if_neg (by simp [hword]),
      wordsAt?_word fun d hd => hword d (List.mem_cons_of_mem _ hd)]
    cases rest with
    | nil =>
      cases hlast
      have hfrom := hbegin.from?
      have hstop := hbegin.stop
      rw [List.append_nil] at hfrom hstop
      rw [size_cons, ← Nat.add_assoc] at hstop
      simp [indices, Text.wordsAt?, hfrom, hstop]
    | cons d rest =>
      have hd : isSpace d := hnext d rfl
      have hcut := hbegin.cut?
      rw [size_cons, ← Nat.add_assoc] at hcut
      rw [indices, Text.wordsAt?, if_pos hd] at hlast
      rw [indices, Text.wordsAt?, if_pos hd]
      simp [hcut, hlast]

/-- The words that are cut out of a text are those that it holds. -/
theorem wordsAt?_eq (pos : Nat) (t : Text) :
    wordsAt? ⟨pos, t⟩ none (indices pos t) = some (words pos t) :=
  (HoldsWords.holdsWords_words pos t).wordsAt? (.start ⟨pos, t⟩)

end Text

namespace MethodSource

/-! ## Header lines -/

def ofHeaderAt? (line : Fragment) (rest : Text) (body : Text) :
    Slicing MethodFault MethodSource := do
  let headerSpan : Span := ⟨line.offset, line.offset + Text.size (Text.trimEnd line.text)⟩
  let lead ← minus? (Text.size line.text) (Text.size rest)
  let words ← Text.wordsAt? ⟨line.offset + lead, rest⟩ none (indices (line.offset + lead) rest)
  match words with
  | [] => throw ⟨.missingName, headerSpan⟩
  | word :: options =>
    match parseName? word.value with
    | none => throw ⟨.invalidName word.value, word.span⟩
    | some name =>
      return ⟨name, options.map WrittenOption.ofWord, headerSpan, word.span, ⟨line.stop, body⟩⟩

theorem ofHeaderAt?_yields {line : Fragment} {rest : Text} (h : headerRest? line.text = some rest)
    (body : Text) : (ofHeaderAt? line rest body).Yields (ofHeader line rest body) := by
  obtain ⟨lead, hline⟩ := append_headerRest? h
  have hlead : minus? (Text.size line.text) (Text.size rest) = some (Text.size lead) := by
    rw [hline, Text.size_append, Nat.add_comm, minus?_add_left]
  refine .cut hlead (.cut (Text.wordsAt?_eq _ rest) ?_)
  unfold ofHeader
  rw [Fragment.stop_sub_size hline]
  cases Text.words (line.offset + Text.size lead) rest with
  | nil => exact .throw _
  | cons word options =>
    dsimp only
    cases parseName? word.value with
    | none => exact .throw _
    | some name => exact .pure _

/-! ## Comments -/

/-- The offset where the comment of a line begins, if there is one, and the quote that is open
behind the line, given the quote that is open in front of it. -/
def commentStart : Option Char → List (Nat × Char) → Option Nat × Option Char
  | quote, [] => (none, quote)
  | quote, (i, c) :: later =>
    if quote = none ∧ c = '-' ∧ later.head?.map Prod.snd = some '-' then (some i, none)
    else commentStart (quoteBehind quote c) later

/-- A line without its comment, and the quote that is open behind it. -/
def blankLine? (quote : Option Char) (line : Text) : Option (Text × Option Char) :=
  match commentStart quote (indices 0 line) with
  | (none, quote) => some (line, quote)
  | (some start, quote) => do
    let (text, comment) ← line.splitAt? start
    return (text ++ blanks comment, quote)

def blankLines? : Option Char → List Text → Option Text
  | _, [] => some []
  | quote, line :: later => do
    let (line, quote) ← blankLine? quote line
    return line ++ (← blankLines? quote later)

theorem startsComment_nil_iff {quote : Option Char} {c : Char} {t : Text} (pos : Nat) :
    StartsComment quote [] (c :: t) ↔
      quote = none ∧ c = '-' ∧ (indices pos t).head?.map Prod.snd = some '-' := by
  rw [StartsComment, commentMark]
  cases t <;> simp [openQuote, indices, List.cons_prefix_cons, eq_comm]

theorem commentStart_of_forall {quote : Option Char} {line : Text} (pos : Nat)
    (h : ∀ before after, line = before ++ after → ¬StartsComment quote before after) :
    commentStart quote (indices pos line) = (none, openQuote quote line) := by
  induction line generalizing quote pos with
  | nil => rfl
  | cons c line ih =>
    have hhead := h [] (c :: line) rfl
    rw [startsComment_nil_iff (pos + c.utf8Size)] at hhead
    rw [indices, commentStart, if_neg hhead]
    exact ih _ fun before after hsplit => h (c :: before) after (by rw [hsplit, List.cons_append])

theorem commentStart_of_first {quote : Option Char} {before comment : Text} (pos : Nat)
    (hstart : StartsComment quote before comment)
    (hfirst : ∀ u v, before ++ comment = u ++ v → u.length < before.length →
      ¬StartsComment quote u v) :
    commentStart quote (indices pos (before ++ comment)) =
      (some (pos + Text.size before), none) := by
  induction before generalizing quote pos with
  | nil =>
    obtain ⟨rest, rfl⟩ := hstart.2
    have hhead := (startsComment_nil_iff (pos + Char.utf8Size '-')).1 hstart
    exact if_pos hhead
  | cons c before ih =>
    have hhead := hfirst [] (c :: (before ++ comment)) rfl (Nat.succ_pos _)
    rw [startsComment_nil_iff (pos + c.utf8Size)] at hhead
    rw [List.cons_append, indices, commentStart, if_neg hhead, Text.size_cons, ← Nat.add_assoc]
    refine ih _ hstart fun u v hsplit hlength => ?_
    exact hfirst (c :: u) v (by rw [List.cons_append, hsplit, List.cons_append])
      (Nat.succ_lt_succ hlength)

theorem LineBlanked.blankLine? {quote quote' : Option Char} {line line' : Text}
    (h : LineBlanked quote line line' quote') :
    MethodSource.blankLine? quote line = some (line', quote') := by
  unfold MethodSource.blankLine?
  cases h with
  | kept hline => rw [commentStart_of_forall 0 hline]
  | @blanked before comment hline hstart hfirst =>
    subst hline
    rw [commentStart_of_first 0 hstart hfirst, Nat.zero_add]
    simp [Text.splitAt?_size_append]

theorem LinesBlanked.blankLines? {quote : Option Char} {lines : List Text} {t : Text}
    (h : LinesBlanked quote lines t) : MethodSource.blankLines? quote lines = some t := by
  induction h with
  | nil => rfl
  | cons hline _ ih => simp [MethodSource.blankLines?, hline.blankLine?, ih]

/-! ## Division of a file -/

def ofBlockAt? (b : Block) : Slicing MethodFault MethodSource := do
  let body ← blankLines? none (b.body.map Fragment.text)
  ofHeaderAt? b.header b.rest body

def checkLeadAt? (line : Fragment) : Slicing MethodFault Unit :=
  if Text.isBlank line.text || isComment line.text then pure ()
  else do
    let indent ← minus? (Text.size line.text) (Text.size (Text.trimStart line.text))
    throw ⟨.textOutsideMethod,
      ⟨line.offset + indent, line.offset + Text.size (Text.trimEnd line.text)⟩⟩

def splitFile? (file : Text) : Slicing MethodFault (List MethodSource) := do
  let (lead, blocks) := group (locate 0 (Text.lines file))
  lead.forM checkLeadAt?
  blocks.mapM ofBlockAt?

theorem ofBlockAt?_yields {file : Text} {b : Block} (hb : b.IsPart 0 (Text.lines file)) :
    (ofBlockAt? b).Yields (ofBlock b) :=
  .cut hb.linesBlanked.2.blankLines? (ofHeaderAt?_yields hb.header _)

theorem checkLeadAt?_yields (line : Fragment) : (checkLeadAt? line).Yields (checkLead line) := by
  refine .ite (fun _ => .pure _) fun _ => ?_
  have hle := Nat.le.intro (Text.size_trimStart line.text)
  have hindent : minus? (Text.size line.text) (Text.size (Text.trimStart line.text)) =
      some (Text.size line.text - Text.size (Text.trimStart line.text)) := if_pos hle
  exact .cut hindent (.throw _)

/-- What is cut out of a file are the method sources that it is divided into. -/
theorem splitFile?_yields (file : Text) : (splitFile? file).Yields (split file) := by
  rw [split_eq]
  refine .bind ?_ fun _ _ => ?_
  · generalize (group (locate 0 (Text.lines file))).1 = lead
    induction lead with
    | nil => exact .pure _
    | cons line lead ih => exact .bind (checkLeadAt?_yields line) fun _ _ => ih
  · have hparts := (group_isPart 0 (Text.lines file)).2
    generalize (group (locate 0 (Text.lines file))).2 = blocks at hparts
    induction blocks with
    | nil => exact .pure _
    | cons b blocks ih =>
      obtain ⟨hb, hblocks⟩ := List.forall_mem_cons.1 hparts
      rw [List.mapM_cons, List.mapM_cons]
      refine .bind (ofBlockAt?_yields hb) fun _ _ => ?_
      exact .bind (ih hblocks) fun _ _ => .pure _

end MethodSource

end QueryTemplate
