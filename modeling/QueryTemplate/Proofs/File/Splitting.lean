import QueryTemplate.Proofs.File.Consistency
import QueryTemplate.Proofs.Text.Stretch

/-! # What a method source keeps of its file

A file is its header lines and, behind each of them, the lines of a template. The method source of
a header line holds its words and, byte by byte, its template, in which only comments are blanked
out. So every offset in a method source is the one in the file.
-/

namespace QueryTemplate

def WrittenOption.text (option : WrittenOption) : Text :=
  match option.value with
  | some value => option.key ++ '=' :: value
  | none => option.key

theorem WrittenOption.text_ofWord (word : Located Text) : (ofWord word).text = word.value := by
  unfold ofWord
  split
  · rename_i key value hsplit
    exact (Text.splitFirst?_eq_some hsplit).1.symm
  · rfl

namespace MethodSource

/-! ## Comments -/

def quoteBehind (quote : Option Char) (c : Char) : Option Char :=
  match quote with
  | some q => if c = q then none else some q
  | none => if isQuote c then some c else none

/-- The quote that is open behind a text. -/
def openQuote (quote : Option Char) (t : Text) : Option Char := t.foldl quoteBehind quote

/-- Between two parts of a line a comment may start: no quote is open, and two dashes follow. -/
def StartsComment (quote : Option Char) (before after : Text) : Prop :=
  openQuote quote before = none ∧ commentMark <+: after

/-- A blank for every byte but those of line ends. -/
def blanks (comment : Text) : Text :=
  comment.flatMap fun c => if c = '\n' ∨ c = '\r' then [c] else List.replicate c.utf8Size ' '

/-- A line without its comment, and the quote that is open behind it. The comment goes from the
first place where one may start to the end of the line. -/
inductive LineBlanked (quote : Option Char) (line : Text) : Text → Option Char → Prop where
  | kept : (∀ before after, line = before ++ after → ¬ StartsComment quote before after) →
    LineBlanked quote line line (openQuote quote line)
  | blanked {before comment : Text} : line = before ++ comment →
    StartsComment quote before comment →
    (∀ u v, line = u ++ v → u.length < before.length → ¬ StartsComment quote u v) →
    LineBlanked quote line (before ++ blanks comment) none

/-- The lines of a template without their comments. A quote that is open at the end of a line is
open at the beginning of the next one. -/
inductive LinesBlanked : Option Char → List Text → Text → Prop where
  | nil {quote : Option Char} : LinesBlanked quote [] []
  | cons {quote quote' : Option Char} {line line' rest : Text} {later : List Text} :
    LineBlanked quote line line' quote' → LinesBlanked quote' later rest →
    LinesBlanked quote (line :: later) (line' ++ rest)

def regionOf : Option Char → Region
  | none => .code
  | some quote => .quoted quote

theorem LineBlanked.cons {quote quote' : Option Char} {c : Char} {line line' : Text}
    (hc : ¬ StartsComment quote [] (c :: line))
    (h : LineBlanked (quoteBehind quote c) line line' quote') :
    LineBlanked quote (c :: line) (c :: line') quote' := by
  cases h with
  | kept hline =>
    refine .kept fun before after hsplit => ?_
    cases before with
    | nil => rwa [← List.nil_append after, ← hsplit]
    | cons d before =>
      obtain ⟨rfl, hrest⟩ := List.cons.inj hsplit
      exact hline before after hrest
  | @blanked before comment hline hstart hfirst =>
    have hsplit : c :: line = (c :: before) ++ comment := by rw [hline, List.cons_append]
    refine .blanked hsplit hstart ?_
    intro u v hsplit hlength
    cases u with
    | nil => rwa [← List.nil_append v, ← hsplit]
    | cons d u =>
      obtain ⟨rfl, hrest⟩ := List.cons.inj hsplit
      exact hfirst u v hrest (Nat.lt_of_succ_lt_succ hlength)

theorem blankComments_cons (quote : Option Char) (c : Char) (rest : Text) :
    blankComments (regionOf quote) (c :: rest) =
      if quote = none ∧ c = '-' ∧ rest.head? = some '-' then ' ' :: blankComments .comment rest
      else c :: blankComments (regionOf (quoteBehind quote c)) rest := by
  cases quote with
  | none =>
    simp only [regionOf, blankComments, quoteBehind, true_and]
    split_ifs <;> rfl
  | some q =>
    simp only [regionOf, blankComments, quoteBehind]
    split_ifs <;> simp_all

theorem blankComments_comment {u : Text} (hu : '\n' ∉ u) (later : Text) :
    blankComments .comment (u ++ later) = blanks u ++ blankComments .comment later := by
  induction u with
  | nil => rfl
  | cons c u ih =>
    simp only [List.mem_cons, not_or] at hu
    rw [List.cons_append, blankComments, if_neg (Ne.symm hu.1), ih hu.2, blanks, blanks,
      List.flatMap_cons]
    by_cases hc : c = '\r'
    · simp [hc]
    · simp [hc, Ne.symm hu.1]

/-- What a line ends with: a line feed, or nothing at the end of the text. -/
def IsLineEnd (ending later : Text) : Prop := ending = ['\n'] ∨ ending = [] ∧ later = []

theorem blankComments_ending {ending later : Text} (h : IsLineEnd ending later) :
    blankComments .comment (ending ++ later) = blanks ending ++ blankComments .code later := by
  rcases h with rfl | ⟨rfl, rfl⟩ <;> rfl

/-- One line is blanked out, and the next one goes on with the quote that is open then. -/
theorem lineBlanked_blankComments (quote : Option Char) {u : Text} (hu : '\n' ∉ u)
    {ending later : Text} (hend : IsLineEnd ending later) :
    ∃ line' quote', LineBlanked quote (u ++ ending) line' quote' ∧
      blankComments (regionOf quote) (u ++ ending ++ later) =
        line' ++ blankComments (regionOf quote') later := by
  induction u generalizing quote with
  | nil =>
    rcases hend with rfl | ⟨rfl, rfl⟩
    · refine ⟨['\n'], openQuote quote ['\n'], .kept fun before after hsplit hstart => ?_, ?_⟩
      · obtain ⟨rest, rfl⟩ := hstart.2
        rcases before with _ | ⟨d, before⟩ <;> simp [commentMark] at hsplit
      · rw [List.nil_append, List.singleton_append, blankComments_cons]
        simp [openQuote]
    · refine ⟨[], quote, .kept fun before after hsplit hstart => ?_, by simp [blankComments]⟩
      obtain ⟨rest, rfl⟩ := hstart.2
      simp [commentMark] at hsplit
  | cons c u ih =>
    simp only [List.mem_cons, not_or] at hu
    have hhead : (u ++ ending ++ later).head? = some '-' ↔ ∃ rest, u ++ ending = '-' :: rest := by
      rcases hend with rfl | ⟨rfl, rfl⟩ <;> cases u <;> simp [eq_comm]
    by_cases hc : quote = none ∧ c = '-' ∧ (u ++ ending ++ later).head? = some '-'
    · obtain ⟨rfl, rfl, hdash⟩ := hc
      have hstart : StartsComment none [] ('-' :: u ++ ending) := by
        obtain ⟨rest, hrest⟩ := hhead.1 hdash
        exact ⟨rfl, rest, by rw [List.cons_append, hrest]; rfl⟩
      have hline : LineBlanked none ('-' :: u ++ ending)
          ([] ++ blanks ('-' :: (u ++ ending))) none :=
        .blanked rfl hstart (by simp)
      refine ⟨_, none, hline, ?_⟩
      have hblanks : blanks ('-' :: (u ++ ending)) = ' ' :: (blanks u ++ blanks ending) :=
        congrArg (' ' :: ·) List.flatMap_append
      rw [List.cons_append, List.cons_append, blankComments_cons, if_pos ⟨rfl, rfl, hdash⟩,
        List.append_assoc, blankComments_comment hu.2, blankComments_ending hend, List.nil_append,
        hblanks, List.cons_append, List.append_assoc]
      rfl
    · obtain ⟨line', quote', hline, hblank⟩ := ih (quoteBehind quote c) hu.2
      refine ⟨c :: line', quote', hline.cons fun hstart => hc ?_, ?_⟩
      · obtain ⟨hquote, rest, hdashes⟩ := hstart
        obtain ⟨rfl, hrest⟩ := List.cons.inj hdashes
        exact ⟨hquote, rfl, hhead.2 ⟨rest, hrest.symm⟩⟩
      · rw [List.cons_append, List.cons_append, blankComments_cons, if_neg hc, hblank,
          List.cons_append]

/-- A text is blanked out line by line. -/
theorem linesBlanked_blankComments (quote : Option Char) {lines : List Text}
    (h : Text.lines lines.flatten = lines) :
    LinesBlanked quote lines (blankComments (regionOf quote) lines.flatten) := by
  induction lines generalizing quote with
  | nil => cases quote <;> exact .nil
  | cons line lines ih =>
    have hlater : Text.lines lines.flatten = lines :=
      Text.lines_flatten_of_append [line] lines [] (by simpa using h)
    obtain ⟨u, ending, hu, rfl, hend⟩ : ∃ u ending, '\n' ∉ u ∧ line = u ++ ending ∧
        IsLineEnd ending lines.flatten := by
      rcases Text.lines_cases h with ⟨u, hu, rfl, -⟩ | ⟨-, hline, rfl⟩
      · exact ⟨u, ['\n'], hu, rfl, .inl rfl⟩
      · exact ⟨line, [], hline, by simp, .inr ⟨rfl, rfl⟩⟩
    obtain ⟨line', quote', hline, hblank⟩ := lineBlanked_blankComments quote hu hend
    rw [List.flatten_cons, hblank]
    exact .cons hline (ih quote' hlater)

/-! ## Header lines -/

theorem qualified_of_parseName? {word : Text} {name : MethodName}
    (h : parseName? word = some name) : name.qualified = word := by
  unfold parseName? at h
  dsimp only at h
  split at h
  · rename_i owner rest hsplit
    split_ifs at h
    cases h
    exact (Text.splitLast?_eq_some hsplit).1.symm
  · split_ifs at h
    cases h
    rfl

/-- The words of a header line behind its tag. -/
def words (m : MethodSource) : List (Located Text) :=
  ⟨m.name.qualified, m.nameSpan⟩ :: m.options.map fun option => ⟨option.text, option.span⟩

/-- What a method source holds if the header line `line` and the lines behind it up to offset
`stop` of the file are its text. -/
structure IsWritten (file : Text) (line : Fragment) (stop : Nat) (m : MethodSource) : Prop where
  place : file.StandsAt line.text line.span
  header : m.headerSpan = ⟨line.offset, line.offset + Text.size (Text.trimEnd line.text)⟩
  words : ∃ rest, headerRest? line.text = some rest ∧
    Text.HoldsWords (line.stop - Text.size rest) rest m.words
  name : file.StandsAt m.name.qualified m.nameSpan
  options : ∀ option ∈ m.options, file.StandsAt option.text option.span
  bodyStart : m.body.offset = line.stop
  bodyStop : m.body.stop = stop
  body : ∃ template, file.StandsAt template ⟨line.stop, stop⟩ ∧
    LinesBlanked none (Text.lines template) m.body.text

def fileLines (file : Text) : List Fragment := locate 0 (Text.lines file)

def isHeader (line : Fragment) : Bool := (headerRest? line.text).isSome

def headerLines (file : Text) : List Fragment := (fileLines file).filter isHeader

/-- Where the template behind each header line stops: at the next one, or at the end. -/
def templateStops (file : Text) : List Nat :=
  (headerLines file).tail.map Fragment.offset ++ [Text.size file]

/-! ## Blocks -/

/-- A block is a header line of the file with the lines behind it. -/
structure Block.IsPart (offset : Nat) (lines : List Text) (b : Block) : Prop where
  header : headerRest? b.header.text = some b.rest
  lines : ∃ before after, lines = before ++ b.header.text :: (b.body.map Fragment.text ++ after) ∧
    b.header.offset = offset + Text.size before.flatten

/-- The parts of a block stand in the file: its header line and its template. -/
theorem Block.IsPart.stands {file : Text} {b : Block}
    (hb : b.IsPart 0 (Text.lines file)) :
    file.StandsAt b.header.text b.header.span ∧
      file.StandsAt (b.body.flatMap Fragment.text) ⟨b.header.stop, b.span.stop⟩ := by
  obtain ⟨-, before, after, hlines, hoffset⟩ := hb
  rw [Nat.zero_add] at hoffset
  have hfile : file = before.flatten ++ (b.header.text ++
      ((b.body.flatMap Fragment.text) ++ after.flatten)) := by
    rw [← Text.flatten_lines file, hlines]
    simp [List.flatMap_def]
  refine ⟨⟨_, _, hfile, ?_⟩, before.flatten ++ b.header.text, after.flatten, ?_, ?_⟩
  · rw [Fragment.span, Fragment.stop, hoffset]
  · rw [hfile, List.append_assoc]
  · rw [Text.size_append, Block.span, Fragment.stop, hoffset]

/-- The template of a block is blanked out line by line. -/
theorem Block.IsPart.linesBlanked {file : Text} {b : Block} (hb : b.IsPart 0 (Text.lines file)) :
    Text.lines (b.body.flatMap Fragment.text) = b.body.map Fragment.text ∧
      LinesBlanked none (b.body.map Fragment.text)
        (blankComments .code (b.body.flatMap Fragment.text)) := by
  obtain ⟨-, before, after, hlines, -⟩ := hb
  have hbody : Text.lines (b.body.map Fragment.text).flatten = b.body.map Fragment.text :=
    Text.lines_flatten_of_append (before ++ [b.header.text]) _ after
      (by rw [hlines, List.append_assoc, List.singleton_append])
  have hblanked := linesBlanked_blankComments none hbody
  rw [← List.flatMap_def] at hbody hblanked
  exact ⟨hbody, hblanked⟩

theorem group_isPart (o : Nat) (lines : List Text) :
    (∃ after, lines = (group (locate o lines)).1.map Fragment.text ++ after) ∧
      ∀ b ∈ (group (locate o lines)).2, b.IsPart o lines := by
  induction lines generalizing o with
  | nil => exact ⟨⟨[], rfl⟩, fun _ hb => absurd hb List.not_mem_nil⟩
  | cons line lines ih =>
    obtain ⟨⟨rest, hlead⟩, hblocks⟩ := ih (o + Text.size line)
    have hlater : ∀ b ∈ (group (locate (o + Text.size line) lines)).2,
        b.IsPart o (line :: lines) := by
      intro b hb
      obtain ⟨hheader, before, after, hlines, hoffset⟩ := hblocks b hb
      refine ⟨hheader, line :: before, after, by rw [hlines, List.cons_append], ?_⟩
      rw [hoffset, List.flatten_cons, Text.size_append, Nat.add_assoc]
    rw [locate, group_cons]
    cases hheader : headerRest? line with
    | none => exact ⟨⟨rest, congrArg (line :: ·) hlead⟩, hlater⟩
    | some tail =>
      refine ⟨⟨line :: lines, rfl⟩, List.forall_mem_cons.2 ⟨⟨hheader, [], rest, ?_, rfl⟩, hlater⟩⟩
      exact congrArg (line :: ·) hlead

theorem group_headers (lines : List Fragment) :
    (group lines).2.map Block.header = lines.filter isHeader := by
  induction lines with
  | nil => rfl
  | cons line lines ih =>
    rw [group_cons, List.filter_cons, isHeader]
    cases headerRest? line.text <;> simp [ih]

theorem group_lead (lines : List Fragment) :
    (group lines).1 = lines.takeWhile fun line => !isHeader line := by
  induction lines with
  | nil => rfl
  | cons line lines ih =>
    rw [group_cons, List.takeWhile_cons, isHeader]
    cases headerRest? line.text <;> simp [ih]

theorem exists_of_ofHeader {line : Fragment} {rest body : Text} {m : MethodSource}
    (h : ofHeader line rest body = .ok m) : ∃ word options,
      Text.words (line.stop - Text.size rest) rest = word :: options ∧
      m.name.qualified = word.value ∧ m.nameSpan = word.span ∧
      m.options = options.map WrittenOption.ofWord ∧
      m.headerSpan = ⟨line.offset, line.offset + Text.size (Text.trimEnd line.text)⟩ ∧
      m.body = ⟨line.stop, body⟩ := by
  unfold ofHeader at h
  dsimp only at h
  split at h
  · cases h
  · rename_i word options hwords
    split at h
    · cases h
    · rename_i name hname
      cases h
      exact ⟨word, options, hwords, qualified_of_parseName? hname, rfl, rfl, rfl, rfl⟩

/-- What a block writes is what its header line and its lines say. -/
theorem isWritten_of_ofBlock {file : Text} {b : Block} {m : MethodSource}
    (hb : b.IsPart 0 (Text.lines file)) (h : ofBlock b = .ok m) :
    IsWritten file b.header b.span.stop m := by
  obtain ⟨hplace, htemplate⟩ := hb.stands
  obtain ⟨hbodyLines, hblanked⟩ := hb.linesBlanked
  obtain ⟨word, options, hwords, hname, hnameSpan, hoptions, hheaderSpan, hbody⟩ :=
    exists_of_ofHeader h
  have hholds : Text.HoldsWords (b.header.stop - Text.size b.rest) b.rest m.words := by
    have hwritten := Text.HoldsWords.holdsWords_words (b.header.stop - Text.size b.rest) b.rest
    have heq : m.words = word :: options := by
      rw [words, hname, hnameSpan, hoptions, List.map_map]
      refine congrArg (word :: ·) (List.map_id'' (fun w => ?_) options)
      obtain ⟨value, span⟩ := w
      have htext := WrittenOption.text_ofWord ⟨value, span⟩
      simp only [Function.comp, htext]
      unfold WrittenOption.ofWord
      split <;> rfl
    rwa [heq, ← hwords]
  have hstands : ∀ w ∈ m.words, file.StandsAt w.value w.span := by
    intro w hw
    obtain ⟨u, v, hrest, hspan⟩ := hholds.stands w hw
    obtain ⟨lead, hline⟩ := append_headerRest? hb.header
    have hpart := hplace.part (lead ++ u) w.value v (by rw [hline, hrest, List.append_assoc])
    rwa [hspan, Fragment.stop_sub_size hline, Nat.add_assoc b.header.offset, ← Text.size_append]
  have hsize : Text.size (blankComments .code (b.body.flatMap Fragment.text)) =
      Text.size (b.body.flatMap Fragment.text) := size_blankComments _ _
  refine ⟨hplace, hheaderSpan, ⟨b.rest, hb.header, hholds⟩, hstands _ (List.mem_cons_self ..), ?_,
    by rw [hbody], ?_, b.body.flatMap Fragment.text, htemplate, ?_⟩
  · intro option hoption
    exact hstands ⟨option.text, option.span⟩
      (List.mem_cons_of_mem _ (List.mem_map_of_mem hoption))
  · rw [hbody, Fragment.stop, hsize, Block.span]
  · rw [hbody, hbodyLines]
    exact hblanked

/-! ## The whole file -/

theorem checkLead_eq_ok {line : Fragment} (h : checkLead line = .ok ()) :
    Text.isBlank line.text ∨ commentMark <+: Text.trimStart line.text := by
  unfold checkLead at h
  split at h
  · rename_i hline
    rw [Bool.or_eq_true, isComment, List.isPrefixOf_iff_prefix] at hline
    exact hline
  · cases h

theorem forM_checkLead {lines : List Fragment} (h : lines.forM checkLead = .ok ()) :
    ∀ line ∈ lines, checkLead line = .ok () := by
  induction lines with
  | nil => simp
  | cons line lines ih =>
    obtain ⟨_, hline, h⟩ := Checked.bind_eq_ok h
    exact List.forall_mem_cons.2 ⟨hline, ih h⟩

/-- Where the template behind each block stops. -/
theorem zip_templateStops (file : Text) :
    (headerLines file).zip (templateStops file) =
      (group (fileLines file)).2.map fun b => (b.header, b.span.stop) := by
  have hadjoin := group_adjoin 0 (Text.lines file)
  rw [Text.flatten_lines, Nat.zero_add, Nat.zero_add] at hadjoin
  rw [templateStops, headerLines, ← group_headers]
  change Span.Adjoin _ _ ((group (fileLines file)).2.map Block.span) at hadjoin
  generalize (group (fileLines file)).2 = blocks at hadjoin
  generalize Text.size _ = lead at hadjoin
  induction blocks generalizing lead with
  | nil => rfl
  | cons b blocks ih =>
    obtain ⟨-, -, hrest⟩ := hadjoin
    cases blocks with
    | nil =>
      have hstop : b.span.stop = Text.size file := hrest
      simp [hstop]
    | cons c blocks =>
      have hstop : c.header.offset = b.span.stop := hrest.1
      have hlater := ih _ hrest
      simp only [List.map_cons, List.tail_cons, List.cons_append, List.zip_cons_cons,
        List.map_map] at hlater ⊢
      rw [hstop, hlater]

/-- **Nothing is lost and no offset is moved when a file is split.** There is one method source
for each header line, in order, and each holds what that line and the lines up to the next one
say; in front of the first header line there are only blank lines and comments. -/
theorem split_isWritten {file : Text} {ms : List MethodSource} (h : split file = .ok ms) :
    (headerLines file).length = ms.length ∧
      List.Forall₂ (fun place => IsWritten file place.1 place.2)
        ((headerLines file).zip (templateStops file)) ms ∧
      ∀ line ∈ (fileLines file).takeWhile fun line => !isHeader line,
        Text.isBlank line.text ∨ commentMark <+: Text.trimStart line.text := by
  rw [split_eq] at h
  obtain ⟨_, hlead, h⟩ := Checked.bind_eq_ok h
  have hms := mapM_eq_ok_iff.1 h
  refine ⟨?_, ?_, fun line hline => checkLead_eq_ok (forM_checkLead hlead line ?_)⟩
  · rw [headerLines, ← group_headers, List.length_map]
    exact hms.length_eq
  · rw [zip_templateStops, List.forall₂_map_left_iff]
    have hparts := (group_isPart 0 (Text.lines file)).2
    exact (List.forall₂_iff_zip.2 ⟨hms.length_eq, fun hmem =>
      isWritten_of_ofBlock (hparts _ (List.of_mem_zip hmem).1)
        ((List.forall₂_iff_zip.1 hms).2 hmem)⟩)
  · rwa [← group_lead] at hline

/-- A quote goes on in the next line, a comment holds two-byte characters and a quote, and the
header line ends a quote that is still open. -/
theorem split_isWritten_open_quote :
    let file : Text := "\r\n-- \u00E9\n-- name: o.a exec=affect\tauto\r\n".toList ++
      "A 'x\r\n--y' --\u00E9'\r\n\"B\n  --name:\u00A0b\n`--`--z".toList
    let m : MethodSource := ⟨⟨some ['o'], ['a']⟩,
      [⟨"exec".toList, some "affect".toList, ⟨21, 32⟩⟩, ⟨"auto".toList, none, ⟨33, 37⟩⟩],
      ⟨8, 37⟩, ⟨17, 20⟩, ⟨39, "A 'x\r\n--y'      \r\n\"B\n".toList⟩⟩
    let n : MethodSource :=
      ⟨⟨none, ['b']⟩, [], ⟨60, 72⟩, ⟨71, 72⟩, ⟨73, "`--`   ".toList⟩⟩
    split file = .ok [m, n] ∧ (headerLines file).length = [m, n].length ∧
      List.Forall₂ (fun place => IsWritten file place.1 place.2)
        ((headerLines file).zip (templateStops file)) [m, n] ∧
      ∀ line ∈ (fileLines file).takeWhile fun line => !isHeader line,
        Text.isBlank line.text ∨ commentMark <+: Text.trimStart line.text := by
  intro file m n
  have h : split file = .ok [m, n] := by decide +kernel
  exact ⟨h, split_isWritten h⟩

end MethodSource

end QueryTemplate
