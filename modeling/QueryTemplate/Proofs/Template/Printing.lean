import Mathlib.Data.List.Chain
import QueryTemplate.Proofs.Template.Grammar

/-! # Printing dynamic templates

A dynamic template that is printed from its parts is divided into those parts again. What is
printed in contents, conditions, names and separators is as free as the readers allow: a separator
may hold braces and openers, since it is printed between quotes that it lacks, and a condition may
hold them between quotes of its own.
-/

namespace QueryTemplate

namespace Text

structure IsTrimmed (t : Text) : Prop where
  head : ∀ c ∈ t.head?, isSpace c = false
  last : ∀ c ∈ t.getLast?, isSpace c = false

instance (t : Text) : Decidable t.IsTrimmed :=
  decidable_of_iff (t.head?.all (!isSpace ·) ∧ t.getLast?.all (!isSpace ·)) <| by
    simp only [Option.all_eq_true, Bool.not_eq_true']
    exact ⟨fun h => ⟨h.1, h.2⟩, fun h => ⟨h.head, h.last⟩⟩

theorem trimEnd_eq_self {t : Text} (h : ∀ c ∈ t.getLast?, isSpace c = false) : trimEnd t = t := by
  induction t with
  | nil => rfl
  | cons c rest ih =>
    cases rest with
    | nil => simp [trimEnd, h c rfl]
    | cons d rest => rw [trimEnd, ih h]

theorem IsTrimmed.trim_eq {t : Text} (h : t.IsTrimmed) : trim t = t := by
  have hstart : trimStart t = t := by
    cases t with
    | nil => rfl
    | cons c rest => rw [trimStart, List.dropWhile_cons, h.head c rfl, if_neg Bool.false_ne_true]
  rw [trim, hstart, trimEnd_eq_self h.last]

theorem IsTrimmed.not_isBlank {t : Text} (h : t.IsTrimmed) (hne : t ≠ []) : ¬isBlank t := by
  rw [← trim_eq_nil_iff, h.trim_eq]
  exact hne

theorem splitFirst?_append {c : Char} {before : Text} (h : c ∉ before) (after : Text) :
    splitFirst? c (before ++ c :: after) = some (before, after) := by
  induction before with
  | nil => rw [List.nil_append, splitFirst?, if_pos rfl]
  | cons d before ih =>
    obtain ⟨hne, hrest⟩ := List.ne_and_not_mem_of_not_mem_cons h
    rw [List.cons_append, splitFirst?, if_neg hne.symm, ih hrest]
    rfl

theorem splitFirst?_eq_none_iff {c : Char} {t : Text} : splitFirst? c t = none ↔ c ∉ t := by
  constructor
  · intro h hmem
    obtain ⟨before, after, rfl, hnot⟩ := List.eq_append_cons_of_mem hmem
    rw [splitFirst?_append hnot] at h
    cases h
  · intro h
    rw [Option.eq_none_iff_forall_not_mem]
    rintro ⟨before, after⟩ hfound
    rw [(splitFirst?_eq_some hfound).1] at h
    exact h (List.mem_append_right _ (List.mem_cons_self ..))

end Text

theorem Directive.not_opener_infix_append {t rest : Text} (ht : '\x7b' ∉ t)
    (hhead : ∀ c ∈ rest.head?, c ≠ '\x7b') (hrest : ¬opener <:+: rest) :
    ¬opener <:+: t ++ rest := by
  induction t with
  | nil => exact hrest
  | cons c t ih =>
    obtain ⟨_, ht⟩ := List.ne_and_not_mem_of_not_mem_cons ht
    rw [List.cons_append, List.infix_cons_iff, not_or]
    refine ⟨fun hopener => ?_, ih ht⟩
    have hsecond := (List.cons_prefix_cons.1 hopener).2
    cases t with
    | nil =>
      obtain ⟨after, hafter⟩ := hsecond
      exact hhead '\x7b' (by rw [← List.nil_append rest, ← hafter]; rfl) rfl
    | cons d t =>
      rw [← (List.cons_prefix_cons.1 hsecond).1] at ht
      exact ht (List.mem_cons_self ..)

/-! ## Contents -/

def Placeholder.mark : Placeholder → Char
  | bind => '$'
  | substitute => '#'

namespace Piece

def text : Piece → Text
  | literal c => [c]
  | placeholder sort name => sort.mark :: '\x7b' :: name ++ ['\x7d']

def print (pieces : List Piece) : Text := pieces.flatMap text

/-- Whether a piece is read back from what is written: a character that opens nothing, or a
placeholder whose name is not blank, has no white space around it and does not hold braces. -/
def IsPrintable : Piece → Prop
  | literal c => c ≠ '\x7b'
  | placeholder _ name => name ≠ [] ∧ name.IsTrimmed ∧ '\x7b' ∉ name ∧ '\x7d' ∉ name

instance : (p : Piece) → Decidable p.IsPrintable
  | literal c => inferInstanceAs (Decidable (c ≠ '\x7b'))
  | placeholder _ name => inferInstanceAs
    (Decidable (name ≠ [] ∧ name.IsTrimmed ∧ '\x7b' ∉ name ∧ '\x7d' ∉ name))

def isBlank : Piece → Bool
  | literal c => Text.isSpace c
  | placeholder _ _ => false

theorem opened?_mark (sort : Placeholder) : opened? sort.mark '\x7b' = some sort := by
  cases sort <;> rfl

/-- No brace opens the text of printable contents. -/
theorem head_print {pieces : List Piece} (h : ∀ p ∈ pieces, p.IsPrintable) :
    ∀ c ∈ (print pieces).head?, c ≠ '\x7b' := by
  intro c hc
  cases pieces with
  | nil => cases hc
  | cons p pieces =>
    have hp := h p (List.mem_cons_self ..)
    cases p with
    | literal d =>
      cases hc
      exact hp
    | placeholder sort name =>
      cases hc
      cases sort <;> decide

/-- A character with no brace behind it is a piece of its own. -/
theorem scan_literal (o : Nat) (c : Char) {rest : Text} (hrest : ∀ d ∈ rest.head?, d ≠ '\x7b') :
    scan o (c :: rest) = (scan (o + c.utf8Size) rest).map (literal c :: ·) := by
  cases rest with
  | nil =>
    rw [scan, scan]
    rfl
  | cons d rest =>
    have hclosed : opened? c d = none := by
      rw [Option.eq_none_iff_forall_not_mem]
      intro sort hsort
      exact hrest d rfl (opened?_eq_some hsort).2
    rw [scan_cons, hclosed]

/-- A placeholder is a piece of its own, whatever follows it. -/
theorem scan_placeholder (o : Nat) (sort : Placeholder) {name : Text}
    (h : (placeholder sort name).IsPrintable) (rest : Text) :
    ∃ o', scan o ((placeholder sort name).text ++ rest) =
      (scan o' rest).map (placeholder sort name :: ·) := by
  obtain ⟨hne, htrimmed, _, hbrace⟩ := h
  have htext : (placeholder sort name).text ++ rest =
      sort.mark :: '\x7b' :: (name ++ '\x7d' :: rest) := by
    simp [text]
  rw [htext, scan_cons, opened?_mark]
  dsimp only
  rw [Text.splitFirst?_append hbrace]
  dsimp only
  rw [if_neg (htrimmed.not_isBlank hne), htrimmed.trim_eq]
  exact ⟨_, rfl⟩

/-- What is printed is scanned to the pieces it was printed from. -/
theorem scan_print (o : Nat) {pieces : List Piece} (h : ∀ p ∈ pieces, p.IsPrintable) :
    scan o (print pieces) = .ok pieces := by
  induction pieces generalizing o with
  | nil => rw [print, List.flatMap_nil, scan]
  | cons p pieces ih =>
    obtain ⟨hp, hpieces⟩ := List.forall_mem_cons.1 h
    have hprint : print (p :: pieces) = p.text ++ print pieces := List.flatMap_cons ..
    rw [hprint]
    cases p with
    | literal c =>
      change scan o (c :: print pieces) = _
      rw [scan_literal o c (head_print hpieces), ih _ hpieces]
      rfl
    | placeholder sort name =>
      obtain ⟨o', hscan⟩ := scan_placeholder o sort hp (print pieces)
      rw [hscan, ih o' hpieces]
      rfl

/-- No directive is opened in printable contents. -/
theorem not_opener_infix_print {pieces : List Piece} (h : ∀ p ∈ pieces, p.IsPrintable) :
    ¬Directive.opener <:+: print pieces := by
  induction pieces with
  | nil => decide
  | cons p pieces ih =>
    obtain ⟨hp, hpieces⟩ := List.forall_mem_cons.1 h
    have hrest := ih hpieces
    have hhead := head_print hpieces
    have hprint : print (p :: pieces) = p.text ++ print pieces := List.flatMap_cons ..
    rw [hprint]
    cases p with
    | literal c =>
      have hc : '\x7b' ∉ [c] := fun hmem => hp (List.mem_singleton.1 hmem).symm
      exact Directive.not_opener_infix_append hc hhead hrest
    | placeholder sort name =>
      obtain ⟨_, _, hopen, _⟩ := hp
      have hname : '\x7b' ∉ name ++ ['\x7d'] := by simpa using hopen
      have hinner := Directive.not_opener_infix_append hname hhead hrest
      have htext : (placeholder sort name).text ++ print pieces =
          sort.mark :: '\x7b' :: (name ++ ['\x7d'] ++ print pieces) := by
        simp [text]
      -- Neither of the two characters that open a placeholder begins an opener.
      rw [htext, List.infix_cons_iff, List.infix_cons_iff, not_or, not_or]
      refine ⟨fun hmark => ?_, fun hbrace => ?_, hinner⟩
      · have hfirst := (List.cons_prefix_cons.1 hmark).1
        cases sort <;> exact absurd hfirst (by decide)
      · exact absurd (List.cons_prefix_cons.1 hbrace).1 (by decide)

/-- Contents leave no text if they are white space, since no placeholder is replaced by nothing. -/
theorem write_eq_nil_iff {markers : Markers} (hmarkers : ∀ sort, markers.text sort ≠ [])
    (spaced started : Bool) (pieces : List Piece) :
    write markers spaced started pieces = [] ↔ pieces.all isBlank := by
  induction pieces generalizing spaced started with
  | nil => simp [write]
  | cons p pieces ih =>
    cases p with
    | literal c =>
      rw [write, List.all_cons, isBlank]
      by_cases hc : Text.isSpace c
      · rw [if_pos hc, ih, hc, Bool.true_and]
      · rw [if_neg hc]
        cases spaced <;> cases started <;> simp [hc]
    | placeholder sort name =>
      have hmarker := hmarkers sort
      rw [write, List.all_cons, isBlank]
      cases spaced <;> cases started <;> simp [hmarker]

end Piece

theorem Statement.resolves_print (markers : Markers) {pieces : List Piece}
    (h : ∀ p ∈ pieces, p.IsPrintable) :
    Resolves markers (Piece.print pieces) (.ofPieces markers pieces) := by
  rw [Resolves, resolve, Fragment.ofText, Piece.scan_print 0 h]
  rfl

/-! ## Headers -/

namespace Directive

instance (header : Text) : Decidable (IsHeader header) :=
  decidable_of_iff (splitHeader? none (header ++ ['\x7d']) = some (header, []))
    (splitHeader?_eq_some_iff.trans ⟨fun h => h.2, fun h => ⟨rfl, h⟩⟩)

theorem endsOutside_nil : EndsOutside none [] where
  closed := rfl
  brace before after h := by simp at h

/-- Text without quotes and closing braces can be put in front of a header. -/
theorem endsOutside_append {t header : Text}
    (ht : ∀ c ∈ t, HeaderToken.isQuote c = false ∧ c ≠ '\x7d') (h : EndsOutside none header) :
    EndsOutside none (t ++ header) := by
  induction t with
  | nil => exact h
  | cons c t ih =>
    obtain ⟨hquote, hbrace⟩ := ht c (List.mem_cons_self ..)
    have hbehind : quoteBehind none c = none := if_neg (by simp [hquote])
    rw [List.cons_append, endsOutside_cons, hbehind]
    exact ⟨fun _ => hbrace, ih fun d hd => ht d (List.mem_cons_of_mem _ hd)⟩

theorem endsOutside_quoted {quote : Char} (hquote : HeaderToken.isQuote quote) {inner : Text}
    (hinner : quote ∉ inner) : EndsOutside none (quote :: inner ++ [quote]) := by
  have hinside : EndsOutside (some quote) (inner ++ [quote]) := by
    induction inner with
    | nil =>
      rw [List.nil_append, endsOutside_cons, quoteBehind, if_pos rfl]
      exact ⟨fun h => absurd h (Option.some_ne_none _), endsOutside_nil⟩
    | cons c inner ih =>
      obtain ⟨hne, hrest⟩ := List.ne_and_not_mem_of_not_mem_cons hinner
      rw [List.cons_append, endsOutside_cons, quoteBehind, if_neg hne.symm]
      exact ⟨fun h => absurd h (Option.some_ne_none _), ih hrest⟩
  rw [List.cons_append, endsOutside_cons, quoteBehind, if_pos hquote]
  refine ⟨fun _ hbrace => ?_, hinside⟩
  rw [hbrace] at hquote
  exact absurd hquote (by decide)

end Directive

namespace HeaderToken

/-- Whether the text is a word of a header, a keyword or not. -/
structure IsWord (word : Text) : Prop where
  ne_nil : word ≠ []
  head : ∀ c ∈ word.head?, startsWord c
  tail : ∀ c ∈ word.tail, continuesWord c

instance (word : Text) : Decidable (IsWord word) :=
  decidable_of_iff (word ≠ [] ∧ word.head?.all startsWord ∧ word.tail.all continuesWord) <| by
    simp only [Option.all_eq_true, List.all_eq_true]
    exact ⟨fun h => ⟨h.1, h.2.1, h.2.2⟩, fun h => ⟨h.ne_nil, h.head, h.tail⟩⟩

def keywords : List Text :=
  ["if".toList, "endif".toList, "for".toList, "endfor".toList, "in".toList, "join".toList]

theorem ofWord_eq_name {word : Text} (h : word ∉ keywords) : HeaderKind.ofWord word = .name := by
  simp only [keywords, List.mem_cons, List.not_mem_nil, or_false, not_or] at h
  obtain ⟨hif, hendif, hfor, hendfor, hin, hjoin⟩ := h
  unfold HeaderKind.ofWord
  split_ifs with h₁ h₂ h₃ h₄
  · exact absurd h₁ hif
  · exact absurd h₂ hendif
  · exact absurd h₃ hfor
  · exact absurd h₄ hendfor
  · rfl

theorem continuesWord_of_startsWord {c : Char} (h : startsWord c) : continuesWord c := by
  simp only [startsWord, Bool.or_eq_true, decide_eq_true_eq] at h
  rcases h with h | h <;> simp [continuesWord, Char.isAlphanum, h]

theorem plain_of_continuesWord {c : Char} (h : continuesWord c) :
    isQuote c = false ∧ c ≠ '\x7d' := by
  constructor
  · rw [Bool.eq_false_iff]
    intro hquote
    simp only [isQuote, Bool.or_eq_true, decide_eq_true_eq] at hquote
    rcases hquote with rfl | rfl <;> exact absurd h (by decide)
  · rintro rfl
    exact absurd h (by decide)

theorem IsWord.plain {word : Text} (h : IsWord word) :
    ∀ c ∈ word, isQuote c = false ∧ c ≠ '\x7d' := by
  intro c hc
  cases word with
  | nil => cases hc
  | cons d rest =>
    rcases List.mem_cons.1 hc with rfl | hc
    · exact plain_of_continuesWord (continuesWord_of_startsWord (h.head c rfl))
    · exact plain_of_continuesWord (h.tail c hc)

theorem forms_word {word rest : Text} (hword : IsWord word)
    (hrest : ∀ c ∈ rest.head?, continuesWord c = false) :
    forms (word ++ rest) = (.ofWord word, word) :: forms rest := by
  cases word with
  | nil => exact absurd rfl hword.ne_nil
  | cons c tail =>
    have htail : ∀ d ∈ tail, continuesWord d := hword.tail
    rw [forms, scan_word 0 (hword.head c rfl) htail hrest, List.map_cons, map_form_scan]
    rfl

theorem forms_of_isWord {word : Text} (hword : IsWord word) :
    forms word = [(.ofWord word, word)] := by
  have hend : ∀ c ∈ ([] : Text).head?, continuesWord c = false := by simp
  have hforms := forms_word hword hend
  rw [List.append_nil] at hforms
  rw [hforms, forms, scan]
  rfl

theorem forms_blank (rest : Text) : forms (' ' :: rest) = forms rest := by
  rw [forms_cons, if_pos (by decide)]

theorem forms_quoted {quote : Char} (hquote : isQuote quote) {inner : Text}
    (hinner : quote ∉ inner) :
    forms (quote :: inner ++ [quote]) = [(.quoted, quote :: inner ++ [quote])] := by
  have hkind : isSeparator quote = false ∧ startsWord quote = false := by
    simp only [isQuote, Bool.or_eq_true, decide_eq_true_eq] at hquote
    rcases hquote with rfl | rfl <;> decide
  rw [List.cons_append, forms_cons, if_neg (by simp [hkind.1]), if_neg (by simp [hkind.2]),
    if_pos hquote, Text.splitFirst?_append hinner]
  dsimp only
  rw [forms, scan]
  rfl

end HeaderToken

/-! ## Openings -/

namespace BlockOpening

open HeaderToken

/-- What follows the collection of a loop if there is a separator. -/
def printSeparator (quote : Char) : Option Text → Text
  | none => []
  | some separator => " join ".toList ++ (quote :: separator ++ [quote])

/-- The header that says what is opened, with the separator between the given quotes. -/
def print (quote : Char) : BlockOpening → Text
  | .conditional condition => "if ".toList ++ condition
  | .loop element collection separator =>
    "for ".toList ++ element ++ " in ".toList ++ collection ++ printSeparator quote separator

theorem print_loop (quote : Char) (element collection : Text) (separator : Option Text) :
    print quote (.loop element collection separator) =
      "for ".toList ++ element ++ " in ".toList ++ (collection ++ printSeparator quote separator) :=
  List.append_assoc ..

/-- Whether an opening can be printed: a condition has to be trimmed and to keep its quotes closed
and its closing braces in quotes, names have to be words and no keywords, and a separator has to
lack the quote that it is printed between. -/
def IsPrintable (quote : Char) : BlockOpening → Prop
  | .conditional condition =>
    condition ≠ [] ∧ condition.IsTrimmed ∧ Directive.IsHeader condition
  | .loop element collection separator =>
    (IsWord element ∧ element ∉ keywords) ∧ (IsWord collection ∧ collection ∉ keywords) ∧
      ∀ s ∈ separator, isQuote quote ∧ quote ∉ s

instance (quote : Char) : (opening : BlockOpening) → Decidable (opening.IsPrintable quote)
  | .conditional condition => inferInstanceAs
    (Decidable (condition ≠ [] ∧ condition.IsTrimmed ∧ Directive.IsHeader condition))
  | .loop element collection separator => inferInstanceAs
    (Decidable ((IsWord element ∧ element ∉ keywords) ∧
      (IsWord collection ∧ collection ∉ keywords) ∧ ∀ s ∈ separator, isQuote quote ∧ quote ∉ s))

theorem plain_of_all {t : Text} (h : t.all fun c => !isQuote c && c != '\x7d') :
    ∀ c ∈ t, isQuote c = false ∧ c ≠ '\x7d' := by
  intro c hc
  simpa using List.all_eq_true.1 h c hc

theorem isHeader_print {quote : Char} {opening : BlockOpening} (h : opening.IsPrintable quote) :
    Directive.IsHeader (opening.print quote) := by
  cases opening with
  | conditional condition => exact Directive.endsOutside_append (plain_of_all (by decide)) h.2.2
  | loop element collection separator =>
    obtain ⟨⟨helement, _⟩, ⟨hcollection, _⟩, hseparator⟩ := h
    have hquoted : Directive.IsHeader (printSeparator quote separator) := by
      cases separator with
      | none => exact Directive.endsOutside_nil
      | some s =>
        obtain ⟨hquote, hlacks⟩ := hseparator s rfl
        exact Directive.endsOutside_append (plain_of_all (by decide))
          (Directive.endsOutside_quoted hquote hlacks)
    rw [print_loop]
    simp only [List.append_assoc]
    refine Directive.endsOutside_append (plain_of_all (by decide)) ?_
    refine Directive.endsOutside_append helement.plain ?_
    refine Directive.endsOutside_append (plain_of_all (by decide)) ?_
    exact Directive.endsOutside_append hcollection.plain hquoted

theorem isWord_of_mem_keywords : ∀ word ∈ keywords, IsWord word := by decide

/-- A word and the blank behind it. -/
theorem forms_word_blank {word : Text} (hword : IsWord word) (rest : Text) :
    forms (word ++ ' ' :: rest) = (.ofWord word, word) :: forms rest := by
  have hblank : ∀ c ∈ (' ' :: rest).head?, continuesWord c = false := by
    rintro _ ⟨⟩
    decide
  rw [forms_word hword hblank, forms_blank]

theorem forms_keyword_blank {word : Text} (h : word ∈ keywords) (rest : Text) :
    forms (word ++ ' ' :: rest) = (.ofWord word, word) :: forms rest :=
  forms_word_blank (isWord_of_mem_keywords word h) rest

theorem isWritten_condition {condition : Text} (hne : condition ≠ [])
    (htrimmed : condition.IsTrimmed) :
    IsWritten (.conditional condition) ("if ".toList ++ condition) := by
  have htrim : Text.trim (' ' :: condition) = condition := by
    rw [Text.trim, Text.trimStart, List.dropWhile_cons, if_pos (by decide)]
    exact htrimmed.trim_eq
  have hwritten : IsWritten (.conditional (Text.trim (' ' :: condition)))
      ("if ".toList ++ condition) := by
    refine @IsWritten.conditional _ [] (' ' :: condition) rfl (by simp) ?_ ?_
    · rintro _ ⟨⟩
      decide
    · rw [← Text.trim_eq_nil_iff, htrim]
      exact hne
  rw [htrim] at hwritten
  exact hwritten

/-- The tokens of a loop as it is printed, up to its collection. -/
theorem forms_clause {element : Text} (helement : IsWord element) (hname : element ∉ keywords)
    (rest : Text) :
    forms ("for ".toList ++ element ++ " in ".toList ++ rest) =
      (.opening .loop, "for".toList) :: (.name, element) :: (.inWord, "in".toList) ::
        forms rest := by
  have htext : "for ".toList ++ element ++ " in ".toList ++ rest =
      "for".toList ++ ' ' :: (element ++ ' ' :: ("in".toList ++ ' ' :: rest)) := by
    simp
  have hfor := forms_keyword_blank (by decide : "for".toList ∈ keywords)
    (element ++ ' ' :: ("in".toList ++ ' ' :: rest))
  have hin := forms_keyword_blank (by decide : "in".toList ∈ keywords) rest
  rw [htext, hfor, forms_word_blank helement, hin, ofWord_eq_name hname]
  rfl

theorem forms_separator {collection : Text} (hcollection : IsWord collection)
    (hname : collection ∉ keywords) {quote : Char} (hquote : isQuote quote) {separator : Text}
    (hlacks : quote ∉ separator) :
    forms (collection ++ printSeparator quote (some separator)) =
      [(.name, collection), (.joinWord, "join".toList),
        (.quoted, quote :: separator ++ [quote])] := by
  have htext : collection ++ printSeparator quote (some separator) =
      collection ++ ' ' :: ("join".toList ++ ' ' :: (quote :: separator ++ [quote])) := rfl
  have hjoin := forms_keyword_blank (by decide : "join".toList ∈ keywords)
    (quote :: separator ++ [quote])
  rw [htext, forms_word_blank hcollection, hjoin, forms_quoted hquote hlacks, ofWord_eq_name hname]
  rfl

theorem isWritten_print {quote : Char} {opening : BlockOpening} (h : opening.IsPrintable quote) :
    opening.IsWritten (opening.print quote) := by
  cases opening with
  | conditional condition => exact isWritten_condition h.1 h.2.1
  | loop element collection separator =>
    obtain ⟨⟨helement, helementName⟩, ⟨hcollection, hcollectionName⟩, hseparator⟩ := h
    cases separator with
    | none =>
      refine .loop ?_
      rw [print_loop, forms_clause helement helementName]
      change _ :: _ :: _ :: forms (collection ++ []) = _
      rw [List.append_nil, forms_of_isWord hcollection, ofWord_eq_name hcollectionName]
    | some s =>
      obtain ⟨hquote, hlacks⟩ := hseparator s rfl
      refine .separated hquote ?_
      rw [print_loop, forms_clause helement helementName,
        forms_separator hcollection hcollectionName hquote hlacks]

end BlockOpening

/-! ## Templates -/

theorem BlockKind.isWord_closeWord (kind : BlockKind) : HeaderToken.IsWord kind.closeWord := by
  cases kind <;> decide

theorem BlockKind.isHeader_closeWord (kind : BlockKind) : Directive.IsHeader kind.closeWord := by
  rw [← List.append_nil kind.closeWord]
  exact Directive.endsOutside_append kind.isWord_closeWord.plain Directive.endsOutside_nil

theorem BlockKind.forms_closeWord (kind : BlockKind) :
    HeaderToken.forms kind.closeWord = [(.closing kind, kind.closeWord)] := by
  rw [HeaderToken.forms_of_isWord kind.isWord_closeWord]
  cases kind <;> rfl

/-- A part of a dynamic template before it is resolved: constant contents, or a block. A separator
is printed between the quotes given. -/
inductive TemplatePart where
  | constant (contents : List Piece)
  | block (opening : BlockOpening) (quote : Char) (contents : List Piece)

namespace TemplatePart

def IsBlock : TemplatePart → Prop
  | constant _ => False
  | block _ _ _ => True

def print : TemplatePart → Text
  | constant contents => Piece.print contents
  | block opening quote contents =>
    Directive.write (opening.print quote) ++ Piece.print contents ++
      Directive.write opening.kind.closeWord

/-- Whether a part is read back from what is written. -/
def IsPrintable : TemplatePart → Prop
  | constant contents => ∀ p ∈ contents, p.IsPrintable
  | block opening quote contents => opening.IsPrintable quote ∧ ∀ p ∈ contents, p.IsPrintable

instance : (p : TemplatePart) → Decidable p.IsBlock
  | constant _ => inferInstanceAs (Decidable False)
  | block _ _ _ => inferInstanceAs (Decidable True)

instance : (p : TemplatePart) → Decidable p.IsPrintable
  | constant contents => inferInstanceAs (Decidable (∀ p ∈ contents, p.IsPrintable))
  | block opening quote contents => inferInstanceAs
    (Decidable (opening.IsPrintable quote ∧ ∀ p ∈ contents, p.IsPrintable))

/-- The segment of the part, which is left out if it is constant white space. -/
def segments (markers : Markers) : TemplatePart → List Segment
  | constant contents =>
    if contents.all Piece.isBlank then [] else [.constant (.ofPieces markers contents)]
  | block opening _ contents => [opening.segment (.ofPieces markers contents)]

end TemplatePart

namespace Segment

theorem ofConstant_ofPieces {markers : Markers} (hmarkers : ∀ sort, markers.text sort ≠ [])
    (contents : List Piece) :
    ofConstant (.ofPieces markers contents) =
      (TemplatePart.constant contents).segments markers := by
  have hempty : (Statement.ofPieces markers contents).isEmpty = contents.all Piece.isBlank := by
    rw [Bool.eq_iff_iff, ← Piece.write_eq_nil_iff hmarkers false false]
    exact List.isEmpty_iff
  rw [ofConstant, hempty, TemplatePart.segments]

/-- Dividing what is printed gives the segments of the parts, those of a constant in front first.
The induction goes over the parts; a constant among them becomes the one in front. -/
theorem parts_print {markers : Markers} (hmarkers : ∀ sort, markers.text sort ≠ [])
    {parts : List TemplatePart} (hparts : ∀ p ∈ parts, p.IsPrintable)
    (hconstants : parts.IsChain fun p q => p.IsBlock ∨ q.IsBlock) {lead : List Piece}
    (hlead : ∀ p ∈ lead, p.IsPrintable) (hhead : lead = [] ∨ ∀ p ∈ parts.head?, p.IsBlock)
    {source : Fragment}
    (hsource : source.text = Piece.print lead ++ parts.flatMap TemplatePart.print) :
    Segment.parts markers source = .ok (ofConstant (.ofPieces markers lead) ++
      parts.flatMap (TemplatePart.segments markers)) := by
  induction parts generalizing lead source with
  | nil =>
    rw [List.flatMap_nil, List.append_nil] at hsource
    have hnone : Directive.first? source = none := by
      rw [Directive.first?_eq_none_iff, hsource]
      exact Piece.not_opener_infix_print hlead
    rw [parts_eq, hnone, List.flatMap_nil, List.append_nil]
    exact constants_eq_ok_iff.2 ⟨_, hsource ▸ Statement.resolves_print markers hlead, rfl⟩
  | cons part parts ih =>
    obtain ⟨hpart, hrest⟩ := List.forall_mem_cons.1 hparts
    have hchain := List.isChain_cons.1 hconstants
    cases part with
    | constant contents =>
      have hnil : lead = [] := hhead.resolve_right fun h => h _ rfl
      subst hnil
      have hnext : ∀ p ∈ parts.head?, p.IsBlock := fun p hp => (hchain.1 p hp).resolve_left id
      rw [ih hrest hchain.2 hpart (.inr hnext) hsource, ofConstant_ofPieces hmarkers]
      rfl
    | block opening quote contents =>
      let b : TemplateBlock := ⟨Piece.print lead, opening, opening.print quote,
        Piece.print contents, opening.kind.closeWord⟩
      have hb : b.IsWellFormed :=
        ⟨Piece.not_opener_infix_print hlead, BlockOpening.isHeader_print hpart.1,
          BlockOpening.isWritten_print hpart.1, Piece.not_opener_infix_print hpart.2,
          BlockKind.isHeader_closeWord _, BlockKind.forms_closeWord _⟩
      have htext : source.text = b.text ++ parts.flatMap TemplatePart.print := by
        rw [hsource, List.flatMap_cons, TemplatePart.print, TemplateBlock.text]
        simp only [b, List.append_assoc]
      obtain ⟨after, hafter, hrun⟩ := parts_block hb htext
        (Statement.resolves_print markers hlead) (Statement.resolves_print markers hpart.2)
      have hnone : ∀ p ∈ ([] : List Piece), p.IsPrintable := by simp
      rw [hrun, ih hrest hchain.2 hnone (.inl rfl) hafter]
      rfl

/-- **Dividing undoes printing.** -/
theorem divide_print (markers : Markers) (hmarkers : ∀ sort, markers.text sort ≠ [])
    (offset : Nat) (parts : List TemplatePart) (hparts : ∀ p ∈ parts, p.IsPrintable)
    (hblock : ∃ p ∈ parts, p.IsBlock)
    (hconstants : parts.IsChain fun p q => p.IsBlock ∨ q.IsBlock) :
    divide markers ⟨offset, parts.flatMap TemplatePart.print⟩ =
      .ok (parts.flatMap (TemplatePart.segments markers)) := by
  have hnone : ∀ p ∈ ([] : List Piece), p.IsPrintable := by simp
  refine divide_eq_ok_iff_parts.2 ⟨parts_print hmarkers hparts hconstants hnone (.inl rfl) rfl, ?_⟩
  obtain ⟨part, hmem, hpart⟩ := hblock
  cases part with
  | constant _ => cases hpart
  | block opening quote contents =>
    have hsegment : opening.segment (.ofPieces markers contents) ∈
        (TemplatePart.block opening quote contents).segments markers := List.mem_singleton.2 rfl
    rw [List.any_eq_true]
    exact ⟨_, List.mem_flatMap.2 ⟨_, hmem, hsegment⟩, isDynamic_segment ..⟩

/-- A condition with a brace between quotes, and a separator with a quote and an opener. -/
theorem divide_print_quoted :
    let parts : List TemplatePart :=
      [.constant [.literal '$', .placeholder .bind ['n']],
        .block (.conditional "x='\x7d'".toList) '"' [.literal 'b', .literal ' '],
        .block (.loop ['e'] "c.d".toList (some "'%\x7b".toList)) '"'
          [.placeholder .substitute ['e']]]
    parts.flatMap TemplatePart.print =
        ("$$\x7bn\x7d%\x7bif x='\x7d'\x7db %\x7bendif\x7d%\x7bfor e in c.d join \"'%\x7b\"\x7d" ++
          "#\x7be\x7d%\x7bendfor\x7d").toList ∧
      divide .standard ⟨0, parts.flatMap TemplatePart.print⟩ =
        .ok [.constant ⟨"$?".toList, [['n']], []⟩,
          .conditional "x='\x7d'".toList ⟨['b'], [], []⟩,
          .loop ['e'] "c.d".toList (some "'%\x7b".toList) ⟨"%v".toList, [], [['e']]⟩] := by
  intro parts
  have hmarkers : ∀ sort, Markers.standard.text sort ≠ [] := by
    intro sort
    cases sort <;> decide
  exact ⟨by decide, divide_print .standard hmarkers 0 parts (by decide +kernel) (by decide +kernel)
    (by decide +kernel)⟩

end Segment

end QueryTemplate
