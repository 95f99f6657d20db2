import QueryTemplate.Proofs.Slicing.Text
import QueryTemplate.Proofs.Template.Grammar

/-! # Cutting templates

Placeholders, directives and blocks are found by their offsets in a template, and names, headers
and bodies are cut out between them. No cut fails, and the statement and the segments are those that
are read from what is left of the template.
-/

namespace QueryTemplate

open Text (indices)

/-! ## Placeholders -/

namespace Piece

/-- The offset of the next closing brace, and the characters behind it. -/
def nameStop? : List (Nat × Char) → Option (Nat × List (Nat × Char))
  | [] => none
  | (i, c) :: later => if c = '\x7d' then some (i, later) else nameStop? later

theorem nameStop?_indices (pos : Nat) (t : Text) :
    nameStop? (indices pos t) = (Text.splitFirst? '\x7d' t).map fun (name, after) =>
      (pos + Text.size name, indices (pos + Text.size name + 1) after) := by
  induction t generalizing pos with
  | nil => rfl
  | cons c t ih =>
    rw [indices, nameStop?, Text.splitFirst?]
    by_cases hc : c = '\x7d'
    · simp [hc, show Char.utf8Size '\x7d' = 1 from rfl]
    · simp [hc, ih, Nat.add_assoc, Function.comp_def]

theorem nameStop?_length {cs after : List (Nat × Char)} {i : Nat}
    (h : nameStop? cs = some (i, after)) : after.length < cs.length := by
  induction cs with
  | nil => cases h
  | cons x cs ih =>
    obtain ⟨j, c⟩ := x
    rw [nameStop?] at h
    split_ifs at h
    · cases h
      exact Nat.lt_succ_self _
    · exact Nat.lt_succ_of_lt (ih h)

def scanAt? (source : Fragment) : List (Nat × Char) → Slicing LexicalFault (List Piece)
  | [] => pure []
  | [(_, c)] => pure [literal c]
  | (start, c) :: (next, d) :: later =>
    match opened? c d with
    | none => (literal c :: ·) <$> scanAt? source ((next, d) :: later)
    | some sort =>
      match _ : nameStop? later with
      | none => throw ⟨.unterminatedPlaceholder, ⟨start, source.stop⟩⟩
      | some (stop, after) => do
        let name ← source.cut? ⟨start + 2, stop⟩
        if Text.isBlank name then throw ⟨.emptyPlaceholder, ⟨start, stop + 1⟩⟩
        else (placeholder sort (Text.trim name) :: ·) <$> scanAt? source after
termination_by cs => cs.length
decreasing_by
  · simp
  · have hlength := nameStop?_length (by assumption)
    simp
    omega

variable {source : Fragment} {pos : Nat} {rest : Text}

/-- A placeholder is opened by two characters of one byte each. -/
theorem size_of_opened? {c d : Char} {sort : Placeholder} (h : opened? c d = some sort)
    (t : Text) : Text.size (c :: d :: t) = 2 + Text.size t := by
  obtain ⟨hc, rfl⟩ := opened?_eq_some h
  rw [Text.size_cons, Text.size_cons, ← Nat.add_assoc]
  rcases hc with ⟨rfl, -⟩ | ⟨rfl, -⟩ <;> rfl

theorem stop_of_opened? {c d : Char} {sort : Placeholder} (h : opened? c d = some sort) (pos : Nat)
    (name : Text) : pos + Text.size (c :: d :: name) + 1 = pos + 2 + Text.size name + 1 := by
  rw [size_of_opened? h, Nat.add_assoc pos 2]

theorem scanAt?_opened {c d : Char} {sort : Placeholder} (h : opened? c d = some sort)
    (pos : Nat) (rest : Text) :
    scanAt? source (indices pos (c :: d :: rest)) = (match Text.splitFirst? '\x7d' rest with
      | none => throw ⟨.unterminatedPlaceholder, ⟨pos, source.stop⟩⟩
      | some (name, after) => do
        let stop := pos + 2 + Text.size name
        let name ← source.cut? ⟨pos + 2, stop⟩
        if Text.isBlank name then throw ⟨.emptyPlaceholder, ⟨pos, stop + 1⟩⟩
        else (placeholder sort (Text.trim name) :: ·) <$>
          scanAt? source (indices (stop + 1) after)) := by
  have hsize : c.utf8Size + d.utf8Size = 2 := size_of_opened? h []
  rw [indices, indices, scanAt?, h, Nat.add_assoc, hsize]
  dsimp only
  split
  · rename_i hstop
    rw [nameStop?_indices, Option.map_eq_none_iff] at hstop
    rw [hstop]
  · rename_i hstop
    rw [nameStop?_indices] at hstop
    obtain ⟨⟨name, after⟩, hsplit, heq⟩ := Option.map_eq_some_iff.1 hstop
    cases heq
    rw [hsplit]

/-- The name of a placeholder is cut out between its braces, and the text goes on behind it. -/
theorem name_of_restAt {c d : Char} {sort : Placeholder} (hopened : opened? c d = some sort)
    {name after : Text} (h : source.RestAt pos (c :: d :: (name ++ '\x7d' :: after))) :
    source.cut? ⟨pos + 2, pos + 2 + Text.size name⟩ = some name ∧
      source.RestAt (pos + 2 + Text.size name + 1) after := by
  have hsize := size_of_opened? hopened []
  have hinside : source.RestAt (pos + 2) (name ++ '\x7d' :: after) := by
    have hstep := Fragment.RestAt.step (t := [c, d]) h
    rwa [hsize] at hstep
  exact ⟨hinside.cut?, hinside.step.next⟩

theorem scanAt?_yields (h : source.RestAt pos rest) :
    (scanAt? source (indices pos rest)).Yields (scan pos rest) := by
  fun_induction scan pos rest with
  | case1 pos =>
    rw [indices, scanAt?]
    exact .pure _
  | case2 pos c =>
    rw [indices, indices, scanAt?]
    exact .pure _
  | case3 pos c d rest hopened ih =>
    rw [indices, indices, scanAt?, hopened]
    exact (ih h.next).map _
  | case4 pos c d rest sort hopened hsplit =>
    rw [scanAt?_opened hopened, hsplit, h.stop]
    exact .throw _
  | case5 pos c d rest sort hopened name after hsplit stop hblank =>
    obtain ⟨rfl, -⟩ := Text.splitFirst?_eq_some hsplit
    have hstop : stop = pos + 2 + Text.size name + 1 := stop_of_opened? hopened pos name
    rw [scanAt?_opened hopened, hsplit, hstop]
    refine .cut (name_of_restAt hopened h).1 ?_
    rw [if_pos hblank]
    exact .throw _
  | case6 pos c d rest sort hopened name after hsplit stop hblank ih =>
    obtain ⟨rfl, -⟩ := Text.splitFirst?_eq_some hsplit
    have hstop : stop = pos + 2 + Text.size name + 1 := stop_of_opened? hopened pos name
    obtain ⟨hcut, hafter⟩ := name_of_restAt hopened h
    rw [scanAt?_opened hopened, hsplit]
    rw [hstop] at ih ⊢
    refine .cut hcut ?_
    rw [if_neg hblank]
    exact (ih hafter).map _

end Piece

namespace Segment

def resolveAt? (markers : Markers) (source : Fragment) (s : Span) :
    Slicing TemplateFault Statement := do
  let text ← source.cut? s
  ExceptT.adapt LexicalFault.inTemplate
    (Statement.ofPieces markers <$> Piece.scanAt? ⟨s.start, text⟩ (indices s.start text))

theorem resolveAt?_yields (markers : Markers) {source : Fragment} {pos : Nat} {t rest : Text}
    (h : source.RestAt pos (t ++ rest)) :
    (resolveAt? markers source ⟨pos, pos + Text.size t⟩).Yields (resolve markers ⟨pos, t⟩) :=
  .cut h.cut? (((Piece.scanAt?_yields (.start _)).map _).adapt _)

end Segment

/-! ## Directives -/

namespace Directive

/-- The offset of the directive that is opened next behind offset `pos`. -/
def nextOpener? (source : Fragment) (pos : Nat) : Option (Option Nat) := do
  let rest ← source.from? pos
  return (find? rest).map (pos + ·)

/-- The offset of the closing brace of a directive, given the characters behind its opener. -/
def headerStop? : Option Char → List (Nat × Char) → Option Nat
  | _, [] => none
  | none, (i, c) :: later =>
    if c = '\x7d' then some i
    else headerStop? (if HeaderToken.isQuote c then some c else none) later
  | some quote, (_, c) :: later => headerStop? (if c = quote then none else some quote) later

def readAt? (source : Fragment) (start : Nat) : Slicing TemplateFault Directive := do
  let inside := start + Text.size opener
  let rest ← source.from? inside
  match headerStop? none (indices inside rest) with
  | none => throw (LexicalFault.inTemplate ⟨.unterminatedDirective, ⟨start, source.stop⟩⟩)
  | some stop =>
    let header ← source.cut? ⟨inside, stop⟩
    return ⟨header, ⟨start, stop + 1⟩⟩

def inner (d : Directive) : Fragment := ⟨d.span.start + Text.size opener, d.header⟩

def textOf? (d : Directive) (t : HeaderToken) : Option Text := d.inner.cut? t.span

variable {source : Fragment} {pos : Nat} {rest : Text}

theorem headerStop?_indices (quote : Option Char) (pos : Nat) (t : Text) :
    headerStop? quote (indices pos t) =
      (splitHeader? quote t).map fun (header, _) => pos + Text.size header := by
  fun_induction splitHeader? quote t generalizing pos with
  | case1 => rfl
  | case2 => simp [indices, headerStop?]
  | case3 c rest hc ih => simp [indices, headerStop?, hc, ih, Nat.add_assoc, Function.comp_def]
  | case4 quote c rest ih => simp [indices, headerStop?, ih, Nat.add_assoc, Function.comp_def]

theorem nextOpener?_eq (h : source.RestAt pos rest) :
    nextOpener? source pos =
      some ((first? ⟨pos, rest⟩).map fun (before, _) => before.stop) := by
  simp [nextOpener?, h.from?, first?, find?, Function.comp_def, Fragment.stop]

theorem readAt?_yields {after : Text} (h : source.RestAt pos (opener ++ after)) :
    (readAt? source pos).Yields
      (((read pos after).mapError LexicalFault.inTemplate).map Prod.fst) := by
  have hinside := h.step
  refine .cut hinside.from? ?_
  rw [headerStop?_indices]
  unfold read
  cases hsplit : splitHeader? none after with
  | none =>
    rw [hinside.stop]
    exact .throw _
  | some found =>
    obtain ⟨header, behind⟩ := found
    rw [splitHeader?_append hsplit] at hinside
    exact .cut hinside.cut? (.pure _)

/-- Behind a directive that is read, the text goes on. -/
theorem restAt_of_read {after : Text} {d : Directive} {behind : Fragment}
    (h : source.RestAt pos (opener ++ after)) (hread : read pos after = .ok (d, behind)) :
    behind.offset = d.span.stop ∧ source.RestAt behind.offset behind.text := by
  unfold read at hread
  split at hread
  · cases hread
  · rename_i hsplit
    cases hread
    have hinside := h.step
    rw [splitHeader?_append hsplit] at hinside
    exact ⟨rfl, hinside.step.next⟩

end Directive

theorem Checked.mapError_eq_ok {ε ε' α : Type} {x : Except ε α} {f : ε → ε'} {a : α}
    (h : x.mapError f = .ok a) : x = .ok a := by
  cases x with
  | ok _ => exact congrArg Except.ok (Except.ok.inj h)
  | error _ => cases h

/-! ## Headers -/

theorem HeaderToken.restAt_of_mem_scan {source : Fragment} {pos : Nat} {rest : Text}
    (h : source.RestAt pos rest) {t : HeaderToken} (ht : t ∈ scan pos rest) :
    ∃ after, source.RestAt t.span.start (t.text ++ after) ∧
      t.span = ⟨t.span.start, t.span.start + Text.size t.text⟩ := by
  fun_induction scan pos rest with
  | case1 => cases ht
  | case2 pos c rest _ ih => exact ih h.next ht
  | case3 pos c rest _ _ word ih =>
    have hword : source.RestAt pos (word ++ rest.dropWhile continuesWord) := by
      simpa only [word, List.cons_append, List.takeWhile_append_dropWhile] using h
    rcases List.mem_cons.1 ht with rfl | ht
    · exact ⟨_, hword, rfl⟩
    · exact ih hword.step ht
  | case4 pos c rest _ _ _ inner after hsplit quoted ih =>
    have hquoted : source.RestAt pos (quoted ++ after) := by
      obtain ⟨hrest, -⟩ := Text.splitFirst?_eq_some hsplit
      simpa [quoted, hrest] using h
    rcases List.mem_cons.1 ht with rfl | ht
    · exact ⟨_, hquoted, rfl⟩
    · exact ih hquoted.step ht
  | case5 pos c rest =>
    rw [List.mem_singleton.1 ht]
    exact ⟨[], by simpa [covering] using h, rfl⟩
  | case6 pos c rest _ _ _ ih =>
    rcases List.mem_cons.1 ht with rfl | ht
    · exact ⟨rest, h, rfl⟩
    · exact ih h.next ht

namespace Directive

variable {d : Directive} {t : HeaderToken}

/-- The text of every token can be cut out of the header. -/
theorem textOf?_eq (ht : t ∈ d.tokens) : d.textOf? t = some t.text := by
  obtain ⟨after, hrest, hspan⟩ := HeaderToken.restAt_of_mem_scan (.start d.inner) ht
  rw [textOf?, hspan, hrest.cut?]

/-- The header goes on behind every token. -/
theorem from?_stop (ht : t ∈ d.tokens) : d.inner.from? t.span.stop =
    some (Text.dropBytes (t.span.stop - (d.span.start + Text.size opener)) d.header) := by
  obtain ⟨after, hrest, hspan⟩ := HeaderToken.restAt_of_mem_scan (.start d.inner) ht
  have hfrom := hrest.step.from?
  obtain ⟨before, htext, hstop⟩ := hrest.step
  have hread : t.span.start + Text.size t.text - (d.span.start + Text.size opener) =
      Text.size before := by
    have hoffset : d.inner.offset = d.span.start + Text.size opener := rfl
    omega
  rw [hspan, hfrom, hread, show d.header = before ++ after from htext, Text.dropBytes_size_append]

end Directive

namespace BlockOpening

def unquoted? (quoted : Text) : Option Text := do
  let last ← minus? (Text.size quoted) 1
  quoted.cut? ⟨1, last⟩

/-- The next token of the clause of a loop, which has to be of the given kind, with its text cut out
of the header, and the tokens behind it. -/
def loopPartAt? (d : Directive) (part : LoopPart) (kind : HeaderKind) :
    List HeaderToken → Slicing TemplateFault (Text × List HeaderToken)
  | [] => throw ⟨.malformedLoop (.missing part), d.span⟩
  | t :: rest =>
    if t.kind = kind then do
      let text ← d.textOf? t
      return (text, rest)
    else throw ⟨.malformedLoop (.mistaken part t.kind), t.span⟩

def ofLoopClauseAt? (d : Directive) (clause : List HeaderToken) :
    Slicing TemplateFault BlockOpening := do
  let (element, rest) ← loopPartAt? d .element .name clause
  let (_, rest) ← loopPartAt? d .inWord .inWord rest
  let (collection, rest) ← loopPartAt? d .collection .name rest
  if rest.isEmpty then return loop element collection none
  let (_, rest) ← loopPartAt? d .joinWord .joinWord rest
  let (quoted, rest) ← loopPartAt? d .separator .quoted rest
  let separator ← unquoted? quoted
  match rest with
  | [] => return loop element collection (some separator)
  | extra :: _ => throw ⟨.malformedLoop (.surplus extra.kind), extra.span⟩

def ofDirectiveAt? (d : Directive) : Slicing TemplateFault BlockOpening :=
  match d.tokens with
  | [] => throw ⟨.unknownDirective (Text.trim d.header), d.span⟩
  | t :: clause =>
    match t.kind with
    | .opening .conditional => do
      let rest ← d.inner.from? t.span.stop
      if (Text.trim rest).isEmpty then throw ⟨.emptyCondition, d.span⟩
      else return conditional (Text.trim rest)
    | .opening .loop => ofLoopClauseAt? d clause
    | .closing block => do
      let _ ← d.textOf? t
      throw ⟨.strayBlockEnd block, d.span⟩
    | _ => throw ⟨.unknownDirective (Text.trim d.header), d.span⟩

variable {d : Directive}

theorem unquoted?_eq {quoted : Text} (h : HeaderKind.quoted.Spells quoted) :
    unquoted? quoted = some quoted.tail.dropLast := by
  obtain ⟨quote, inner, hquote, -, rfl⟩ := h
  have hsize : quote.utf8Size = 1 := by
    simp only [HeaderToken.isQuote, Bool.or_eq_true, decide_eq_true_eq] at hquote
    rcases hquote with rfl | rfl <;> rfl
  have hquoted : Text.size (quote :: inner ++ [quote]) = 1 + (1 + Text.size inner) := by
    simp only [Text.size_append, Text.size_cons, Text.size_nil, hsize]
    omega
  have hcut := @Text.cut?_of_text [quote] inner [quote] (quote :: inner ++ [quote]) rfl
  rw [Text.size_cons, Text.size_nil, hsize] at hcut
  rw [unquoted?, hquoted, minus?_add_left]
  simpa using hcut

theorem loopPartAt?_yields (part : LoopPart) (kind : HeaderKind) {ts : List HeaderToken}
    (hts : ts ⊆ d.tokens) :
    (loopPartAt? d part kind ts).Yields (loopPart d part kind ts) := by
  cases ts with
  | nil => exact .throw _
  | cons t rest =>
    refine .ite (fun _ => ?_) fun _ => .throw _
    exact .cut (Directive.textOf?_eq (hts (List.mem_cons_self ..))) (.pure _)

theorem ofLoopClauseAt?_yields {clause : List HeaderToken} (hclause : clause ⊆ d.tokens) :
    (ofLoopClauseAt? d clause).Yields (ofLoopClause d clause) := by
  have htail {part : LoopPart} {kind : HeaderKind} {ts rest : List HeaderToken} {text : Text}
      (hts : ts ⊆ d.tokens) (h : loopPart d part kind ts = .ok (text, rest)) :
      rest ⊆ d.tokens := by
    obtain ⟨t, rfl, -⟩ := loopPart_eq_ok_iff.1 h
    exact (List.cons_subset.1 hts).2
  refine .bind (loopPartAt?_yields _ _ hclause) fun ⟨element, rest⟩ h => ?_
  have hrest := htail hclause h
  refine .bind (loopPartAt?_yields _ _ hrest) fun ⟨_, rest⟩ h => ?_
  have hrest := htail hrest h
  refine .bind (loopPartAt?_yields _ _ hrest) fun ⟨collection, rest⟩ h => ?_
  have hrest := htail hrest h
  refine .ite (fun _ => .pure _) fun _ => ?_
  refine .bind (loopPartAt?_yields _ _ hrest) fun ⟨_, rest⟩ h => ?_
  have hrest := htail hrest h
  refine .bind (loopPartAt?_yields _ _ hrest) fun ⟨quoted, rest⟩ h => ?_
  have hquoted : HeaderKind.quoted.Spells quoted := by
    obtain ⟨t, rfl, hform⟩ := loopPart_eq_ok_iff.1 h
    obtain ⟨hkind, rfl⟩ := Prod.mk.inj hform
    have hspells := Directive.spells_of_mem_tokens (hrest (List.mem_cons_self ..))
    rwa [hkind] at hspells
  refine .cut (unquoted?_eq hquoted) ?_
  cases rest with
  | nil => exact .pure _
  | cons extra _ => exact .throw _

theorem ofDirectiveAt?_yields (d : Directive) : (ofDirectiveAt? d).Yields (ofDirective d) := by
  have htokens : d.tokens ⊆ d.tokens := List.Subset.refl _
  unfold ofDirectiveAt? ofDirective
  generalize hts : d.tokens = ts
  rw [hts] at htokens
  cases ts with
  | nil => exact .throw _
  | cons t clause =>
    obtain ⟨ht, hclause⟩ := List.cons_subset.1 htokens
    rw [← hts] at ht hclause
    dsimp only
    cases t.kind with
    | opening block =>
      cases block with
      | conditional =>
        refine .cut (Directive.from?_stop ht) ?_
        exact .ite (fun _ => .throw _) fun _ => .pure _
      | loop => exact ofLoopClauseAt?_yields hclause
    | closing block => exact .cut (Directive.textOf?_eq ht) (.throw _)
    | _ => exact .throw _

end BlockOpening

/-! ## Blocks -/

namespace Segment

def checkClosingAt? (block : BlockKind) (d : Directive) : Slicing TemplateFault Unit :=
  match d.tokens with
  | [] => throw ⟨.unknownDirective (Text.trim d.header), d.span⟩
  | t :: surplus =>
    match t.kind with
    | .closing found =>
      if found ≠ block then do
        let _ ← d.textOf? t
        throw ⟨.mismatchedBlockEnd block found, d.span⟩
      else
        match surplus with
        | [] => pure ()
        | extra :: _ =>
          throw ⟨.unexpectedToken (.symbol .closeBrace) (.headerToken extra.kind), extra.span⟩
    | .opening _ => throw ⟨.nestedDirective, d.span⟩
    | _ => throw ⟨.unknownDirective (Text.trim d.header), d.span⟩

variable (markers : Markers) (source : Fragment)

/-- The place of the body of the block that a directive has opened, and the offset behind the
directive that closes the block. -/
def blockBodyAt? (block : BlockKind) (d : Directive) : Slicing TemplateFault (Span × Nat) := do
  match ← Directive.nextOpener? source d.span.stop with
  | none => throw ⟨.unclosedBlock block, d.span⟩
  | some start =>
    let closing ← Directive.readAt? source start
    checkClosingAt? block closing
    return (⟨d.span.stop, start⟩, closing.span.stop)

def constantsAt? (s : Span) : Slicing TemplateFault (List Segment) :=
  (fun statement => if statement.isEmpty then [] else [constant statement]) <$>
    resolveAt? markers source s

def blockAt? (d : Directive) : Slicing TemplateFault (Segment × Nat) := do
  let opening ← BlockOpening.ofDirectiveAt? d
  let (body, stop) ← blockBodyAt? source opening.kind d
  let statement ← resolveAt? markers source body
  return (opening.segment statement, stop)

/-- The segments of a template from offset `pos` on, if there are less than `fuel` blocks. -/
def partsAt? : (fuel : Nat) → (pos : Nat) → Slicing TemplateFault (List Segment)
  | 0, _ => ExceptT.mk none
  | fuel + 1, pos => do
    match ← Directive.nextOpener? source pos with
    | none => constantsAt? markers source ⟨pos, source.stop⟩
    | some start =>
      let lead ← constantsAt? markers source ⟨pos, start⟩
      let d ← Directive.readAt? source start
      let (segment, stop) ← blockAt? markers source d
      (fun later => lead ++ segment :: later) <$> partsAt? fuel stop

def divideAt? : Slicing TemplateFault (List Segment) := do
  let segments ← partsAt? markers source (source.text.length + 1) source.offset
  if segments.any isDynamic then return segments else throw ⟨.noDynamicSegment, source.span⟩

variable {markers} {source} {pos : Nat} {rest : Text}

theorem checkClosingAt?_yields (block : BlockKind) (d : Directive) :
    (checkClosingAt? block d).Yields (checkClosing block d) := by
  have htokens : d.tokens ⊆ d.tokens := List.Subset.refl _
  unfold checkClosingAt? checkClosing
  generalize hts : d.tokens = ts
  rw [hts] at htokens
  cases ts with
  | nil => exact .throw _
  | cons t surplus =>
    obtain ⟨ht, -⟩ := List.cons_subset.1 htokens
    rw [← hts] at ht
    dsimp only
    cases t.kind with
    | closing found =>
      refine .ite (fun _ => .cut (Directive.textOf?_eq ht) (.throw _)) fun _ => ?_
      cases surplus with
      | nil => exact .pure _
      | cons extra _ => exact .throw _
    | _ => exact .throw _

/-- Where a directive is found, its opener stands behind the text in front of it. -/
theorem exists_of_first? {before : Fragment} {found : Except LexicalFault (Directive × Fragment)}
    (h : Directive.first? ⟨pos, rest⟩ = some (before, found)) :
    ∃ u after, before = ⟨pos, u⟩ ∧ rest = u ++ (Directive.opener ++ after) ∧
      found = Directive.read (pos + Text.size u) after := by
  obtain ⟨⟨u, after⟩, hsplit, heq⟩ := Option.map_eq_some_iff.1 h
  cases heq
  refine ⟨u, after, rfl, ?_, rfl⟩
  rw [← List.append_assoc]
  exact Text.splitMark?_append hsplit

theorem blockBody_map {α : Type} (p : Fragment × Fragment → α) (block : BlockKind) (d : Directive)
    {source body : Fragment} {found : Except LexicalFault (Directive × Fragment)}
    (h : Directive.first? source = some (body, found)) :
    (blockBody block d source).map p = (do
      let (closing, after) ← found.mapError LexicalFault.inTemplate
      let _ ← checkClosing block closing
      .ok (p (body, after))) := by
  rw [blockBody, h]
  rcases found with _ | ⟨closing, after⟩
  · rfl
  · dsimp only [Except.mapError, Bind.bind, Except.bind]
    cases checkClosing block closing <;> rfl

theorem blockBodyAt?_yields (block : BlockKind) (d : Directive)
    (h : source.RestAt d.span.stop rest) :
    (blockBodyAt? source block d).Yields ((blockBody block d ⟨d.span.stop, rest⟩).map
      fun (body, after) => (body.span, after.offset)) := by
  refine .cut (Directive.nextOpener?_eq h) ?_
  cases hfirst : Directive.first? ⟨d.span.stop, rest⟩ with
  | none =>
    rw [blockBody, hfirst]
    exact .throw _
  | some p =>
    obtain ⟨body, found⟩ := p
    rw [blockBody_map _ block d hfirst]
    obtain ⟨u, after, rfl, rfl, rfl⟩ := exists_of_first? hfirst
    refine .bind_map (Directive.readAt?_yields h.step) fun found hread => ?_
    obtain ⟨closing, behind⟩ := found
    have hstop := (Directive.restAt_of_read h.step (Checked.mapError_eq_ok hread)).1
    dsimp only
    rw [hstop]
    exact .bind (checkClosingAt?_yields block closing) fun _ _ => .pure _

/-- The body of a block lies in front of the directive that closes it, and the text goes on behind
that directive. -/
theorem restAt_of_blockBody {block : BlockKind} {d : Directive} {body behind : Fragment}
    (h : source.RestAt pos rest) (hbody : blockBody block d ⟨pos, rest⟩ = .ok (body, behind)) :
    (∃ u after, body = ⟨pos, u⟩ ∧ rest = u ++ after) ∧
      source.RestAt behind.offset behind.text := by
  obtain ⟨closing, hfirst, -⟩ := blockBody_eq_ok_iff.1 hbody
  obtain ⟨u, after, rfl, rfl, hread⟩ := exists_of_first? hfirst
  exact ⟨⟨u, _, rfl, rfl⟩, (Directive.restAt_of_read h.step hread.symm).2⟩

theorem block_map {α : Type} (p : Segment × Fragment → α) (d : Directive) (source : Fragment) :
    (block markers d source).map p = (do
      let opening ← BlockOpening.ofDirective d
      let (body, after) ← blockBody opening.kind d source
      let statement ← resolve markers body
      .ok (p (opening.segment statement, after))) := by
  rw [block_eq_bind]
  cases BlockOpening.ofDirective d with
  | error _ => rfl
  | ok opening =>
    dsimp only [Bind.bind, Except.bind]
    rcases blockBody opening.kind d source with _ | ⟨body, after⟩
    · rfl
    · dsimp only
      cases resolve markers body <;> rfl

theorem blockAt?_yields (d : Directive) (h : source.RestAt d.span.stop rest) :
    (blockAt? markers source d).Yields ((block markers d ⟨d.span.stop, rest⟩).map
      fun (segment, after) => (segment, after.offset)) := by
  rw [block_map]
  refine .bind (BlockOpening.ofDirectiveAt?_yields d) fun opening _ => ?_
  refine .bind_map (blockBodyAt?_yields _ d h) fun ⟨body, behind⟩ hbody => ?_
  obtain ⟨⟨u, after, rfl, rfl⟩, -⟩ := restAt_of_blockBody h hbody
  exact .bind (resolveAt?_yields markers h) fun _ _ => .pure _

theorem constantsAt?_yields {t : Text} (h : source.RestAt pos (t ++ rest)) :
    (constantsAt? markers source ⟨pos, pos + Text.size t⟩).Yields (constants markers ⟨pos, t⟩) :=
  (resolveAt?_yields markers h).map _

/-- The segments that are cut out from an offset on are those of what is left of the template. -/
theorem partsAt?_yields (fuel : Nat) (h : source.RestAt pos rest) (hfuel : rest.length < fuel) :
    (partsAt? markers source fuel pos).Yields (parts markers ⟨pos, rest⟩) := by
  induction fuel generalizing pos rest with
  | zero => exact absurd hfuel (Nat.not_lt_zero _)
  | succ fuel ih =>
    refine .cut (Directive.nextOpener?_eq h) ?_
    cases hfirst : Directive.first? ⟨pos, rest⟩ with
    | none =>
      rw [parts_eq, hfirst, h.stop]
      rw [← List.append_nil rest] at h
      exact constantsAt?_yields h
    | some p =>
      obtain ⟨before, found⟩ := p
      rw [parts_eq_bind hfirst]
      obtain ⟨u, after, rfl, rfl, rfl⟩ := exists_of_first? hfirst
      refine .bind (constantsAt?_yields h) fun lead _ => ?_
      refine .bind_map (Directive.readAt?_yields h.step) fun ⟨d, ⟨o, inside⟩⟩ hread => ?_
      replace hread := Checked.mapError_eq_ok hread
      obtain ⟨rfl, hinside⟩ := Directive.restAt_of_read h.step hread
      rw [hread] at hfirst
      have hshorter := Directive.first?_length hfirst
      refine .bind_map (blockAt?_yields d hinside) fun ⟨segment, behind⟩ hblock => ?_
      obtain ⟨_, _, _, -, hbody, -⟩ := block_eq_ok_iff.1 hblock
      have hlength := block_length hblock
      refine (ih (restAt_of_blockBody hinside hbody).2 ?_).map _
      dsimp only at hshorter hlength
      omega

theorem divideAt?_yields (markers : Markers) (source : Fragment) :
    (divideAt? markers source).Yields (divide markers source) := by
  have hparts := @partsAt?_yields markers source _ _ (source.text.length + 1) (.start source)
    (Nat.lt_succ_self _)
  have hdivide : divide markers source = (do
      let segments ← parts markers source
      if segments.any isDynamic then .ok segments
      else .error ⟨.noDynamicSegment, source.span⟩) := by
    rw [divide]
    cases parts markers source <;> rfl
  rw [hdivide]
  exact .bind hparts fun _ _ => .ite (fun _ => .pure _) fun _ => .throw _

end Segment

end QueryTemplate
