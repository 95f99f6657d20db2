import QueryTemplate.Proofs.Alignment.Segment
import QueryTemplate.Proofs.Text.Slice

/-! # Headers of directives

What a directive says depends on its header alone, not on where the directive stands. A header
ends at the first closing brace outside quotes; it opens a block if it is a condition behind its
word or the clause of a loop, and it closes one if it is a single closing word.
-/

namespace QueryTemplate

namespace Directive

/-! ## Quotes -/

def quoteBehind : Option Char → Char → Option Char
  | none, c => if HeaderToken.isQuote c then some c else none
  | some quote, c => if c = quote then none else some quote

/-- The text ends outside quotes, and every closing brace in it is inside. -/
structure EndsOutside (quote : Option Char) (header : Text) : Prop where
  closed : header.foldl quoteBehind quote = none
  brace (before after : Text) : header = before ++ '\x7d' :: after →
    before.foldl quoteBehind quote ≠ none

/-- Whether the text can stand in a directive: the brace behind it is the first one outside quotes,
and closes the directive. -/
abbrev IsHeader (header : Text) : Prop := EndsOutside none header

theorem endsOutside_cons {quote : Option Char} {c : Char} {header : Text} :
    EndsOutside quote (c :: header) ↔
      (quote = none → c ≠ '\x7d') ∧ EndsOutside (quoteBehind quote c) header := by
  constructor
  · intro h
    refine ⟨fun hquote hc => h.brace [] header (by rw [hc]; rfl) hquote, h.closed,
      fun before after hheader => ?_⟩
    exact h.brace (c :: before) after (congrArg (c :: ·) hheader)
  · rintro ⟨hc, h⟩
    refine ⟨h.closed, fun before after hheader => ?_⟩
    cases before with
    | nil =>
      intro hquote
      exact hc hquote (List.cons.inj hheader).1
    | cons d before =>
      obtain ⟨rfl, hrest⟩ := List.cons.inj hheader
      exact h.brace before after hrest

theorem splitHeader?_cons (quote : Option Char) (c : Char) (rest : Text) :
    splitHeader? quote (c :: rest) =
      if quote = none ∧ c = '\x7d' then some ([], rest)
      else (splitHeader? (quoteBehind quote c) rest).map fun (header, after) =>
        (c :: header, after) := by
  cases quote with
  | none =>
    rw [splitHeader?, quoteBehind]
    simp only [true_and]
  | some quote =>
    have hsome : ¬(some quote = none ∧ c = '\x7d') := fun h => nomatch h.1
    rw [splitHeader?, quoteBehind, if_neg hsome]

theorem splitHeader?_eq_some_iff {quote : Option Char} {t header after : Text} :
    splitHeader? quote t = some (header, after) ↔
      t = header ++ '\x7d' :: after ∧ EndsOutside quote header := by
  induction t generalizing quote header with
  | nil => simp [splitHeader?]
  | cons c rest ih =>
    rw [splitHeader?_cons]
    by_cases hc : quote = none ∧ c = '\x7d'
    · obtain ⟨rfl, rfl⟩ := hc
      rw [if_pos ⟨rfl, rfl⟩]
      cases header with
      | nil =>
        have hnil : EndsOutside none [] := ⟨rfl, fun before after h => by simp at h⟩
        simp [hnil]
      | cons d header =>
        simp only [Option.some.injEq, Prod.mk.injEq, List.cons_append, List.cons.injEq,
          endsOutside_cons]
        constructor
        · rintro ⟨h, _⟩
          cases h
        · rintro ⟨⟨rfl, _⟩, h, _⟩
          exact absurd rfl (h trivial)
    · rw [if_neg hc, Option.map_eq_some_iff]
      cases header with
      | nil =>
        constructor
        · rintro ⟨_, _, h⟩
          cases h
        · rintro ⟨h, hclosed, _⟩
          exact absurd ⟨hclosed, (List.cons.inj h).1⟩ hc
      | cons d header =>
        simp only [Prod.exists, Prod.mk.injEq, List.cons.injEq, List.cons_append, endsOutside_cons]
        constructor
        · rintro ⟨_, _, h, ⟨rfl, rfl⟩, rfl⟩
          obtain ⟨rfl, hends⟩ := ih.1 h
          exact ⟨⟨rfl, rfl⟩, fun hquote hbrace => hc ⟨hquote, hbrace⟩, hends⟩
        · rintro ⟨⟨rfl, rfl⟩, _, hends⟩
          exact ⟨header, after, ih.2 ⟨rfl, hends⟩, ⟨rfl, rfl⟩, rfl⟩

theorem splitHeader?_of_read {offset : Nat} {text : Text} {d : Directive} {after : Fragment}
    (h : read offset text = .ok (d, after)) :
    splitHeader? none text = some (d.header, after.text) := by
  unfold read at h
  split at h
  · cases h
  · rename_i hsplit
    cases h
    exact hsplit

end Directive

/-! ## Tokens -/

def HeaderKind.Spells : HeaderKind → Text → Prop
  | .opening block, text => text = block.openWord
  | .closing block, text => text = block.closeWord
  | .inWord, text => text = "in".toList
  | .joinWord, text => text = "join".toList
  | .quoted, text =>
    ∃ quote inner, HeaderToken.isQuote quote ∧ quote ∉ inner ∧ text = quote :: inner ++ [quote]
  | .name, _ => True
  | .invalid, _ => True

theorem HeaderKind.spells_ofWord (word : Text) : (ofWord word).Spells word := by
  unfold ofWord
  split_ifs with h₁ h₂ h₃ h₄ h₅ h₆
  · exact h₁
  · exact h₂
  · exact h₃
  · exact h₄
  · exact h₅
  · exact h₆
  · trivial

namespace HeaderToken

/-- A token without its place. -/
def form (t : HeaderToken) : HeaderKind × Text := (t.kind, t.text)

def forms (header : Text) : List (HeaderKind × Text) := (scan 0 header).map form

/-- The tokens of a header are the same wherever it stands. -/
theorem map_form_scan (o : Nat) (header : Text) : (scan o header).map form = forms header := by
  have h := scan_shift (o := o) header
  rw [forms]
  generalize scan 0 header = ts, scan o header = ts' at h
  induction h with
  | nil => rfl
  | cons ht _ ih => rw [List.map_cons, List.map_cons, ih, form, form, ht.kind, ht.text]

theorem forms_cons (c : Char) (rest : Text) :
    forms (c :: rest) =
      if isSeparator c then forms rest
      else if startsWord c then
        let word := c :: rest.takeWhile continuesWord
        (.ofWord word, word) :: forms (rest.dropWhile continuesWord)
      else if isQuote c then
        match Text.splitFirst? c rest with
        | some (inner, after) => (.quoted, c :: inner ++ [c]) :: forms after
        | none => [(.invalid, c :: rest)]
      else (.invalid, [c]) :: forms rest := by
  rw [forms, scan_cons]
  split_ifs
  · exact map_form_scan _ _
  · rw [List.map_cons, map_form_scan]
    rfl
  · cases Text.splitFirst? c rest with
    | none => rfl
    | some p =>
      dsimp only
      rw [List.map_cons, map_form_scan]
      rfl
  · rw [List.map_cons, map_form_scan]
    rfl

theorem spells_of_mem_forms {kind : HeaderKind} {text header : Text}
    (h : (kind, text) ∈ forms header) : kind.Spells text := by
  induction hn : header.length using Nat.strongRecOn generalizing header with
  | ind n ih =>
    cases header with
    | nil => simp [forms, scan] at h
    | cons c rest =>
      rw [forms_cons] at h
      split_ifs at h with hseparator hword hquote
      · exact ih _ (by simp [← hn]) h rfl
      · rcases List.mem_cons.1 h with heq | h
        · cases heq
          exact HeaderKind.spells_ofWord _
        · have hlength := (List.dropWhile_sublist continuesWord (l := rest)).length_le
          exact ih _ (by simp [← hn]; omega) h rfl
      · cases hsplit : Text.splitFirst? c rest with
        | none =>
          rw [hsplit] at h
          cases List.mem_singleton.1 h
          trivial
        | some p =>
          obtain ⟨inner, after⟩ := p
          obtain ⟨rfl, hinner⟩ := Text.splitFirst?_eq_some hsplit
          rw [hsplit] at h
          rcases List.mem_cons.1 h with heq | h
          · cases heq
            exact ⟨c, inner, hquote, hinner, rfl⟩
          · exact ih _ (by simp [← hn]; omega) h rfl
      · rcases List.mem_cons.1 h with heq | h
        · cases heq
          trivial
        · exact ih _ (by simp [← hn]) h rfl

/-! ## The first token -/

theorem scan_separators (o : Nat) {space : Text} (hspace : ∀ c ∈ space, isSeparator c)
    (rest : Text) : scan o (space ++ rest) = scan (o + Text.size space) rest := by
  induction space generalizing o with
  | nil => rfl
  | cons c space ih =>
    rw [List.cons_append, scan_cons, if_pos (hspace c (List.mem_cons_self ..)),
      ih _ fun d hd => hspace d (List.mem_cons_of_mem _ hd), Nat.add_assoc, Text.size_cons]

theorem not_isSeparator_of_startsWord {c : Char} (h : startsWord c) : ¬isSeparator c := by
  intro hspace
  simp only [isSeparator, Bool.or_eq_true, decide_eq_true_eq] at hspace
  rcases hspace with (((rfl | rfl) | rfl) | rfl) | rfl <;> exact absurd h (by decide)

/-- A word ends where the next character cannot go on with it. -/
theorem scan_word (o : Nat) {c : Char} {word rest : Text} (hc : startsWord c)
    (hword : ∀ d ∈ word, continuesWord d) (hrest : ∀ d ∈ rest.head?, continuesWord d = false) :
    scan o (c :: word ++ rest) =
      covering (.ofWord (c :: word)) o (c :: word) :: scan (o + Text.size (c :: word)) rest := by
  have htake : rest.takeWhile continuesWord = [] := by
    cases rest with
    | nil => rfl
    | cons d rest => rw [List.takeWhile_cons, hrest d rfl, if_neg Bool.false_ne_true]
  have hdrop : rest.dropWhile continuesWord = rest := by
    have h := List.takeWhile_append_dropWhile (p := continuesWord) (l := rest)
    rwa [htake] at h
  rw [List.cons_append, scan_cons, if_neg (not_isSeparator_of_startsWord hc), if_pos hc,
    List.takeWhile_append_of_pos hword, List.dropWhile_append_of_pos hword, htake, hdrop,
    List.append_nil]

/-- If a header begins with the word that opens a block, nothing but separators is in front of it
and it does not go on. -/
theorem head_of_opening {o : Nat} {header : Text} {t : HeaderToken} {ts : List HeaderToken}
    {block : BlockKind} (h : scan o header = t :: ts) (ht : t.kind = .opening block) :
    ∃ space rest, header = space ++ block.openWord ++ rest ∧ (∀ c ∈ space, isSeparator c) ∧
      (∀ c ∈ rest.head?, continuesWord c = false) ∧
      t.span.stop = o + Text.size (space ++ block.openWord) := by
  induction header generalizing o with
  | nil => simp [scan] at h
  | cons c rest ih =>
    rw [scan_cons] at h
    split_ifs at h with hseparator hword hquote
    · obtain ⟨space, rest, rfl, hspace, hrest, hstop⟩ := ih h
      refine ⟨c :: space, rest, rfl, ?_, hrest, ?_⟩
      · intro d hd
        rcases List.mem_cons.1 hd with rfl | hd
        · exact hseparator
        · exact hspace d hd
      · rw [hstop, List.cons_append, Text.size_cons, Nat.add_assoc]
    · obtain ⟨rfl, _⟩ := List.cons.inj h
      have hspells := HeaderKind.spells_ofWord (c :: rest.takeWhile continuesWord)
      rw [show HeaderKind.ofWord (c :: rest.takeWhile continuesWord) = _ from ht] at hspells
      have hopen : c :: rest.takeWhile continuesWord = block.openWord := hspells
      refine ⟨[], rest.dropWhile continuesWord, ?_, by simp, fun d hd => ?_, ?_⟩
      · rw [List.nil_append, ← hopen, List.cons_append, List.takeWhile_append_dropWhile]
      · have hnot := List.head?_dropWhile_not continuesWord rest
        rw [hd] at hnot
        exact hnot
      · rw [List.nil_append, ← hopen]
        rfl
    · split at h
      · obtain ⟨rfl, _⟩ := List.cons.inj h
        cases ht
      · obtain ⟨rfl, _⟩ := List.cons.inj h
        cases ht
    · obtain ⟨rfl, _⟩ := List.cons.inj h
      cases ht

/-- A header that begins with the word that opens a block has it as its first token. -/
theorem scan_of_opening (o : Nat) (block : BlockKind) {space rest : Text}
    (hspace : ∀ c ∈ space, isSeparator c) (hrest : ∀ c ∈ rest.head?, continuesWord c = false) :
    ∃ ts, scan o (space ++ block.openWord ++ rest) =
      covering (.opening block) (o + Text.size space) block.openWord :: ts := by
  have hif : ∀ c ∈ ['f'], continuesWord c := List.all_eq_true.1 (by decide)
  have hfor : ∀ c ∈ ['o', 'r'], continuesWord c := List.all_eq_true.1 (by decide)
  rw [List.append_assoc, scan_separators o hspace]
  cases block with
  | conditional => exact ⟨_, scan_word _ (by decide : startsWord 'i') hif hrest⟩
  | loop => exact ⟨_, scan_word _ (by decide : startsWord 'f') hfor hrest⟩

end HeaderToken

namespace Directive

theorem map_form_tokens (d : Directive) : d.tokens.map HeaderToken.form =
    HeaderToken.forms d.header :=
  HeaderToken.map_form_scan _ _

theorem spells_of_mem_tokens {d : Directive} {t : HeaderToken} (h : t ∈ d.tokens) :
    t.kind.Spells t.text := by
  have hmem : t.form ∈ HeaderToken.forms d.header := by
    rw [← d.map_form_tokens]
    exact List.mem_map_of_mem h
  exact HeaderToken.spells_of_mem_forms hmem

end Directive

/-! ## Openings -/

namespace Text

theorem trimEnd_eq_nil_iff {t : Text} : trimEnd t = [] ↔ isBlank t := by
  induction t with
  | nil => simp [trimEnd, isBlank]
  | cons c rest ih =>
    rw [isBlank, List.all_cons, Bool.and_eq_true, ← isBlank, ← ih, trimEnd]
    cases trimEnd rest with
    | nil => by_cases hc : isSpace c <;> simp [hc]
    | cons d kept => simp

theorem trim_eq_nil_iff {t : Text} : trim t = [] ↔ isBlank t := by
  have hblank : isBlank (trimStart t) ↔ isBlank t := by
    induction t with
    | nil => rfl
    | cons c rest ih =>
      by_cases hc : isSpace c
      · have hrest : isBlank (c :: rest) = isBlank rest := by
          rw [isBlank, List.all_cons, hc, Bool.true_and, isBlank]
        rw [hrest, trimStart, List.dropWhile_cons, if_pos hc]
        exact ih
      · rw [trimStart, List.dropWhile_cons, if_neg hc]
  rw [trim, trimEnd_eq_nil_iff, hblank]

end Text

theorem Checked.bind_eq_ok_iff {ε α β : Type} {x : Except ε α} {f : α → Except ε β} {b : β} :
    x >>= f = .ok b ↔ ∃ a, x = .ok a ∧ f a = .ok b := by
  refine ⟨bind_eq_ok, ?_⟩
  rintro ⟨a, rfl, h⟩
  exact h

theorem Checked.map_eq_ok_iff {ε α β : Type} {x : Except ε α} {f : α → β} {b : β} :
    x.map f = .ok b ↔ ∃ a, x = .ok a ∧ f a = b := by
  refine ⟨map_eq_ok, ?_⟩
  rintro ⟨a, rfl, rfl⟩
  rfl

namespace BlockOpening

open HeaderToken

/-- The opening that a header writes: a word and a condition, which is not blank, or the clause of
a loop, with or without a separator between quotes. -/
inductive IsWritten : BlockOpening → Text → Prop where
  | conditional {header space rest : Text} : header = space ++ "if".toList ++ rest →
    (∀ c ∈ space, isSeparator c) → (∀ c ∈ rest.head?, continuesWord c = false) →
    ¬Text.isBlank rest → IsWritten (.conditional (Text.trim rest)) header
  | loop {header element collection : Text} :
    forms header = [(.opening .loop, "for".toList), (.name, element), (.inWord, "in".toList),
      (.name, collection)] →
    IsWritten (.loop element collection none) header
  | separated {header element collection separator : Text} {quote : Char} : isQuote quote →
    forms header = [(.opening .loop, "for".toList), (.name, element), (.inWord, "in".toList),
      (.name, collection), (.joinWord, "join".toList), (.quoted, quote :: separator ++ [quote])] →
    IsWritten (.loop element collection (some separator)) header

theorem loopPart_eq_ok_iff {d : Directive} {part : LoopPart} {kind : HeaderKind}
    {ts rest : List HeaderToken} {text : Text} :
    loopPart d part kind ts = .ok (text, rest) ↔ ∃ t, ts = t :: rest ∧ t.form = (kind, text) := by
  cases ts with
  | nil => simp [loopPart]
  | cons t ts =>
    rw [loopPart]
    by_cases h : t.kind = kind
    · rw [if_pos h]
      constructor
      · intro hok
        cases hok
        exact ⟨t, rfl, congrArg (·, t.text) h⟩
      · rintro ⟨_, heq, hform⟩
        cases heq
        have htext : t.text = text := congrArg Prod.snd hform
        rw [htext]
    · rw [if_neg h]
      constructor
      · intro hok
        cases hok
      · rintro ⟨_, heq, hform⟩
        cases heq
        exact absurd (congrArg Prod.fst hform) h

/-- A part that is there is read, and reading goes on behind it. -/
theorem loopPart_bind {β : Type} {d : Directive} {part : LoopPart} {kind : HeaderKind}
    {t : HeaderToken} {rest : List HeaderToken} {text : Text}
    {next : Text × List HeaderToken → Checked β} {b : β} (ht : t.form = (kind, text))
    (hnext : next (text, rest) = .ok b) : (loopPart d part kind (t :: rest) >>= next) = .ok b :=
  Checked.bind_eq_ok_iff.2 ⟨(text, rest), loopPart_eq_ok_iff.2 ⟨t, rfl, ht⟩, hnext⟩

theorem clause_of_ofLoopClause {d : Directive} {clause : List HeaderToken}
    {opening : BlockOpening} (h : ofLoopClause d clause = .ok opening) :
    ∃ element inText collection,
      (clause.map form = [(.name, element), (.inWord, inText), (.name, collection)] ∧
        opening = .loop element collection none) ∨
      ∃ joinText quoted, clause.map form = [(.name, element), (.inWord, inText),
          (.name, collection), (.joinWord, joinText), (.quoted, quoted)] ∧
        opening = .loop element collection (some quoted.tail.dropLast) := by
  obtain ⟨⟨element, rest₁⟩, h₁, hrest₁⟩ := Checked.bind_eq_ok h
  obtain ⟨⟨inText, rest₂⟩, h₂, hrest₂⟩ := Checked.bind_eq_ok hrest₁
  obtain ⟨⟨collection, rest₃⟩, h₃, hrest₃⟩ := Checked.bind_eq_ok hrest₂
  obtain ⟨t₁, rfl, ht₁⟩ := loopPart_eq_ok_iff.1 h₁
  obtain ⟨t₂, rfl, ht₂⟩ := loopPart_eq_ok_iff.1 h₂
  obtain ⟨t₃, rfl, ht₃⟩ := loopPart_eq_ok_iff.1 h₃
  refine ⟨element, inText, collection, ?_⟩
  simp only [List.map_cons, ht₁, ht₂, ht₃]
  cases rest₃ with
  | nil =>
    cases hrest₃
    exact .inl ⟨rfl, rfl⟩
  | cons t₄ rest₃ =>
    obtain ⟨⟨joinText, rest₄⟩, h₄, hrest₄⟩ := Checked.bind_eq_ok hrest₃
    obtain ⟨⟨quoted, rest₅⟩, h₅, hrest₅⟩ := Checked.bind_eq_ok hrest₄
    obtain ⟨_, heq, ht₄⟩ := loopPart_eq_ok_iff.1 h₄
    obtain ⟨t₅, rfl, ht₅⟩ := loopPart_eq_ok_iff.1 h₅
    cases heq
    cases rest₅ with
    | nil =>
      cases hrest₅
      exact .inr ⟨joinText, quoted, by rw [List.map_cons, List.map_cons, ht₄, ht₅]; rfl, rfl⟩
    | cons extra _ => cases hrest₅

theorem ofLoopClause_of_clause (d : Directive) {clause : List HeaderToken}
    {element inText collection : Text}
    (h : clause.map form = [(.name, element), (.inWord, inText), (.name, collection)]) :
    ofLoopClause d clause = .ok (.loop element collection none) := by
  obtain ⟨t₁, rest, rfl, h₁, h⟩ := List.map_eq_cons_iff.1 h
  obtain ⟨t₂, rest, rfl, h₂, h⟩ := List.map_eq_cons_iff.1 h
  obtain ⟨t₃, rest, rfl, h₃, h⟩ := List.map_eq_cons_iff.1 h
  obtain rfl := List.map_eq_nil_iff.1 h
  apply loopPart_bind h₁
  apply loopPart_bind h₂
  apply loopPart_bind h₃
  rfl

theorem ofLoopClause_of_separated (d : Directive) {clause : List HeaderToken}
    {element inText collection joinText quoted : Text}
    (h : clause.map form = [(.name, element), (.inWord, inText), (.name, collection),
      (.joinWord, joinText), (.quoted, quoted)]) :
    ofLoopClause d clause = .ok (.loop element collection (some quoted.tail.dropLast)) := by
  obtain ⟨t₁, rest, rfl, h₁, h⟩ := List.map_eq_cons_iff.1 h
  obtain ⟨t₂, rest, rfl, h₂, h⟩ := List.map_eq_cons_iff.1 h
  obtain ⟨t₃, rest, rfl, h₃, h⟩ := List.map_eq_cons_iff.1 h
  obtain ⟨t₄, rest, rfl, h₄, h⟩ := List.map_eq_cons_iff.1 h
  obtain ⟨t₅, rest, rfl, h₅, h⟩ := List.map_eq_cons_iff.1 h
  obtain rfl := List.map_eq_nil_iff.1 h
  apply loopPart_bind h₁
  apply loopPart_bind h₂
  apply loopPart_bind h₃
  apply loopPart_bind h₄
  apply loopPart_bind h₅
  rfl

/-- The opening of a condition is read off its header. -/
theorem isWritten_of_condition {d : Directive} {t : HeaderToken} {clause : List HeaderToken}
    {opening : BlockOpening} (htokens : d.tokens = t :: clause)
    (hkind : t.kind = .opening .conditional) (h : ofDirective d = .ok opening) :
    opening.IsWritten d.header := by
  obtain ⟨space, rest, hheader, hspace, hrest, hstop⟩ := head_of_opening htokens hkind
  simp only [ofDirective, htokens, hkind, hstop, Nat.add_sub_cancel_left, hheader] at h
  rw [Text.dropBytes_size_append] at h
  split_ifs at h with hempty
  cases h
  refine .conditional hheader hspace hrest fun hblank => ?_
  rw [Text.trim_eq_nil_iff.2 hblank] at hempty
  exact hempty rfl

theorem ofDirective_of_condition {d : Directive} {space rest : Text}
    (hheader : d.header = space ++ "if".toList ++ rest) (hspace : ∀ c ∈ space, isSeparator c)
    (hrest : ∀ c ∈ rest.head?, continuesWord c = false) (hblank : ¬Text.isBlank rest) :
    ofDirective d = .ok (.conditional (Text.trim rest)) := by
  have hscan := scan_of_opening (d.span.start + Text.size Directive.opener) .conditional
    hspace hrest
  obtain ⟨ts, htokens⟩ : ∃ ts, d.tokens = _ :: ts := by
    rw [Directive.tokens, hheader]
    exact hscan
  have hread : d.span.start + Text.size Directive.opener + Text.size space +
      Text.size BlockKind.conditional.openWord - (d.span.start + Text.size Directive.opener) =
        Text.size (space ++ "if".toList) := by
    rw [Text.size_append, Nat.add_assoc, Nat.add_sub_cancel_left]
    rfl
  have htrim : ¬(Text.trim rest).isEmpty := by
    rw [List.isEmpty_iff, Text.trim_eq_nil_iff]
    exact hblank
  simp only [ofDirective, htokens, covering, hread, hheader, Text.dropBytes_size_append,
    if_neg htrim]

/-- The opening of a loop is read off its header: the tokens between the names are spelled as their
kinds say. -/
theorem isWritten_of_clause {d : Directive} {clause : List HeaderToken} {opening : BlockOpening}
    (hforms : forms d.header = (.opening .loop, "for".toList) :: clause.map form)
    (h : ofLoopClause d clause = .ok opening) : opening.IsWritten d.header := by
  obtain ⟨element, inText, collection, hclause⟩ := clause_of_ofLoopClause h
  have hin : (HeaderKind.inWord, inText) ∈ forms d.header := by
    rw [hforms]
    rcases hclause with ⟨hmap, _⟩ | ⟨_, _, hmap, _⟩ <;> rw [hmap] <;> simp
  obtain rfl : inText = "in".toList := spells_of_mem_forms hin
  rcases hclause with ⟨hmap, rfl⟩ | ⟨joinText, quoted, hmap, rfl⟩
  · rw [hmap] at hforms
    exact .loop hforms
  · rw [hmap] at hforms
    have hjoin : (HeaderKind.joinWord, joinText) ∈ forms d.header := by
      rw [hforms]
      simp
    have hquoted : (HeaderKind.quoted, quoted) ∈ forms d.header := by
      rw [hforms]
      simp
    obtain rfl : joinText = "join".toList := spells_of_mem_forms hjoin
    obtain ⟨quote, separator, hquote, _, rfl⟩ := spells_of_mem_forms hquoted
    rw [List.cons_append, List.tail_cons, List.dropLast_concat]
    exact .separated hquote hforms

theorem ofDirective_of_loop {d : Directive} {clauseForms : List (HeaderKind × Text)}
    (h : forms d.header = (.opening .loop, "for".toList) :: clauseForms) :
    ∃ clause, ofDirective d = ofLoopClause d clause ∧ clause.map form = clauseForms := by
  obtain ⟨t, clause, htokens, ht, hclause⟩ := List.map_eq_cons_iff.1 (d.map_form_tokens.trans h)
  have hkind : t.kind = .opening .loop := congrArg Prod.fst ht
  exact ⟨clause, by simp only [ofDirective, htokens, hkind], hclause⟩

theorem ofDirective_eq_ok_iff {d : Directive} {opening : BlockOpening} :
    ofDirective d = .ok opening ↔ opening.IsWritten d.header := by
  constructor
  · intro h
    cases htokens : d.tokens with
    | nil =>
      rw [ofDirective, htokens] at h
      cases h
    | cons t clause =>
      have hforms := d.map_form_tokens
      have hspells := Directive.spells_of_mem_tokens (htokens ▸ List.mem_cons_self ..)
      cases hkind : t.kind with
      | opening block =>
        cases block with
        | conditional => exact isWritten_of_condition htokens hkind h
        | loop =>
          have ht : t.form = (.opening .loop, "for".toList) := by
            rw [hkind] at hspells
            rw [form, hkind, (hspells : t.text = _)]
            rfl
          rw [htokens, List.map_cons, ht] at hforms
          simp only [ofDirective, htokens, hkind] at h
          exact isWritten_of_clause hforms.symm h
      | _ =>
        simp only [ofDirective, htokens, hkind] at h
        cases h
  · intro h
    cases h with
    | conditional hheader hspace hrest hblank =>
      exact ofDirective_of_condition hheader hspace hrest hblank
    | loop hheader =>
      obtain ⟨clause, hopen, hclause⟩ := ofDirective_of_loop hheader
      rw [hopen]
      exact ofLoopClause_of_clause d hclause
    | separated hquote hheader =>
      obtain ⟨clause, hopen, hclause⟩ := ofDirective_of_loop hheader
      rw [hopen, ofLoopClause_of_separated d hclause, List.cons_append, List.tail_cons,
        List.dropLast_concat]

end BlockOpening

/-! ## Closings -/

open HeaderToken in
theorem Segment.checkClosing_eq_ok_iff {block : BlockKind} {d : Directive} :
    checkClosing block d = .ok () ↔ forms d.header = [(.closing block, block.closeWord)] := by
  have hforms := d.map_form_tokens
  constructor
  · intro h
    rw [checkClosing] at h
    cases htokens : d.tokens with
    | nil =>
      rw [htokens] at h
      cases h
    | cons t surplus =>
      have hspells := Directive.spells_of_mem_tokens (htokens ▸ List.mem_cons_self ..)
      rw [htokens] at h hforms
      dsimp only at h
      split at h
      · rename_i found hkind
        split_ifs at h with hfound
        obtain rfl : found = block := not_not.1 hfound
        cases surplus with
        | nil =>
          rw [hkind] at hspells
          rw [← hforms, List.map_cons, form, hkind, (hspells : t.text = _)]
          rfl
        | cons extra _ => cases h
      · cases h
      · cases h
  · intro h
    obtain ⟨t, rest, htokens, ht, hrest⟩ := List.map_eq_cons_iff.1 (hforms.trans h)
    obtain rfl := List.map_eq_nil_iff.1 hrest
    have hkind : t.kind = .closing block := congrArg Prod.fst ht
    simp [checkClosing, htokens, hkind]

end QueryTemplate
