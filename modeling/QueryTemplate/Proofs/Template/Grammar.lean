import QueryTemplate.Proofs.Template.Header

/-! # The grammar of dynamic templates

A dynamic template is a sequence of blocks, each behind some constant text, and constant text at
the end. Neither constant texts nor bodies contain the opener of a directive. Dividing a template
accepts exactly the texts of this form whose constant texts and bodies resolve, and gives their
segments in order.
-/

namespace QueryTemplate

/-! ## Marks -/

namespace Text

theorem dropLead?_eq_none_iff {lead t : Text} : dropLead? lead t = none ↔ ¬lead <+: t := by
  rw [Option.eq_none_iff_forall_not_mem]
  constructor
  · rintro h ⟨rest, rfl⟩
    exact h rest (dropLead?_eq_some_iff.2 rfl)
  · intro h rest hrest
    exact h ⟨rest, (dropLead?_eq_some_iff.1 hrest).symm⟩

theorem splitMark?_eq_none_iff {mark : Text} (hmark : mark ≠ []) {t : Text} :
    splitMark? mark t = none ↔ ¬mark <:+: t := by
  induction t with
  | nil => simp [splitMark?, hmark]
  | cons c rest ih =>
    rw [List.infix_cons_iff, not_or, ← ih, ← dropLead?_eq_none_iff, splitMark?]
    cases dropLead? mark (c :: rest) <;> simp

theorem not_infix_of_splitMark? {mark : Text} (hmark : mark ≠ []) {t before after : Text}
    (h : splitMark? mark t = some (before, after)) : ¬mark <:+: before := by
  induction t generalizing before with
  | nil => simp [splitMark?] at h
  | cons c rest ih =>
    have happend := splitMark?_append h
    rw [splitMark?] at h
    cases hlead : dropLead? mark (c :: rest) with
    | some found =>
      rw [hlead] at h
      cases h
      simpa using hmark
    | none =>
      rw [hlead] at h
      obtain ⟨⟨u, v⟩, hs, huv⟩ := Option.map_eq_some_iff.1 h
      obtain ⟨rfl, rfl⟩ := Prod.mk.inj huv
      rw [List.infix_cons_iff, not_or]
      refine ⟨fun hprefix => dropLead?_eq_none_iff.1 hlead ?_, ih hs⟩
      rw [happend, List.append_assoc]
      exact hprefix.trans (List.prefix_append ..)

end Text

namespace Directive

def write (header : Text) : Text := opener ++ header ++ ['\x7d']

theorem splitMark?_opener {before after : Text} (h : ¬opener <:+: before) :
    Text.splitMark? opener (before ++ opener ++ after) = some (before, after) := by
  induction before with
  | nil => rfl
  | cons c before ih =>
    rw [List.infix_cons_iff, not_or] at h
    have hlead : Text.dropLead? opener (c :: (before ++ opener ++ after)) = none := by
      rw [Text.dropLead?_eq_none_iff]
      -- An opener here would lie in `before`, since it does not end with its first character.
      cases before with
      | nil => exact fun hlead => absurd hlead (by simp [opener])
      | cons d before =>
        intro hlead
        refine h.1 ?_
        simpa [opener] using hlead
    rw [List.cons_append, List.cons_append, Text.splitMark?, hlead, ih h.2]
    rfl

theorem first?_eq_none_iff {source : Fragment} :
    first? source = none ↔ ¬opener <:+: source.text := by
  rw [first?, Option.map_eq_none_iff, Text.splitMark?_eq_none_iff (by decide)]

/-- A directive that is found is written behind text without any directive. -/
theorem write_of_first? {source before after : Fragment} {d : Directive}
    (h : first? source = some (before, .ok (d, after))) :
    source.text = before.text ++ write d.header ++ after.text ∧ ¬opener <:+: before.text ∧
      IsHeader d.header := by
  obtain ⟨⟨u, v⟩, hs, huv⟩ := Option.map_eq_some_iff.1 h
  obtain ⟨rfl, hread⟩ := Prod.mk.inj huv
  have hnot := Text.not_infix_of_splitMark? (by decide) hs
  obtain ⟨rfl, hheader⟩ := splitHeader?_eq_some_iff.1 (splitHeader?_of_read hread)
  rw [Text.splitMark?_append hs]
  exact ⟨by simp [write], hnot, hheader⟩

/-- A directive that is written behind text without any directive is found. -/
theorem first?_of_write {source : Fragment} {before header after : Text}
    (h : source.text = before ++ write header ++ after) (hbefore : ¬opener <:+: before)
    (hheader : IsHeader header) :
    ∃ d inside, first? source = some (⟨source.offset, before⟩, .ok (d, inside)) ∧
      d.header = header ∧ inside.text = after := by
  have htext : source.text = before ++ opener ++ (header ++ '\x7d' :: after) := by
    rw [h, write]
    simp
  have hsplit : splitHeader? none (header ++ '\x7d' :: after) = some (header, after) :=
    splitHeader?_eq_some_iff.2 ⟨rfl, hheader⟩
  simp only [first?, htext, splitMark?_opener hbefore, Option.map_some, read, hsplit]
  exact ⟨_, _, rfl, rfl, rfl⟩

end Directive

/-! ## Blocks -/

def Resolves (markers : Markers) (text : Text) (s : Statement) : Prop :=
  Statement.resolve markers (.ofText text) = .ok s

/-- Where a text stands does not matter to what it resolves to. -/
theorem Segment.resolve_eq_ok_iff {markers : Markers} {source : Fragment} {s : Statement} :
    resolve markers source = .ok s ↔ Resolves markers source.text s := by
  have h : Aligned (.shift source.offset) (⟨0, source.text⟩ : Fragment)
      ⟨0 + source.offset, source.text⟩ := Fragment.aligned_shift ..
  rw [Nat.zero_add] at h
  have haligned := Statement.aligned_resolve markers h
  rw [Resolves, resolve, Fragment.ofText]
  generalize Statement.resolve markers ⟨0, source.text⟩ = x,
    Statement.resolve markers source = y at haligned
  cases haligned with
  | error _ => simp [Except.mapError]
  | ok h =>
    rw [(h : _ = _)]
    simp [Except.mapError]

/-- The segment of a constant text, which is left out if the text resolves to nothing. -/
def Segment.ofConstant (s : Statement) : List Segment :=
  if s.isEmpty then [] else [.constant s]

theorem Segment.constants_eq_ok_iff {markers : Markers} {source : Fragment}
    {segments : List Segment} : constants markers source = .ok segments ↔
      ∃ s, Resolves markers source.text s ∧ ofConstant s = segments := by
  simp only [← resolve_eq_ok_iff]
  exact Checked.map_eq_ok_iff

/-- Constant text and a block behind it, as they are written; `opening` is what the header of the
block says. -/
structure TemplateBlock where
  lead : Text
  opening : BlockOpening
  header : Text
  body : Text
  closing : Text

namespace TemplateBlock

def text (b : TemplateBlock) : Text :=
  b.lead ++ Directive.write b.header ++ b.body ++ Directive.write b.closing

structure IsWellFormed (b : TemplateBlock) : Prop where
  lead : ¬Directive.opener <:+: b.lead
  header : Directive.IsHeader b.header
  opening : b.opening.IsWritten b.header
  body : ¬Directive.opener <:+: b.body
  closing : Directive.IsHeader b.closing
  closes : HeaderToken.forms b.closing = [(.closing b.opening.kind, b.opening.kind.closeWord)]

/-- The segments of blocks with `last` behind them, if their constant texts and bodies resolve. -/
inductive Yields (markers : Markers) : List TemplateBlock → Text → List Segment → Prop where
  | last {last : Text} {s : Statement} : Resolves markers last s →
    Yields markers [] last (Segment.ofConstant s)
  | block {b : TemplateBlock} {blocks : List TemplateBlock} {last : Text} {lead body : Statement}
    {segments : List Segment} : Resolves markers b.lead lead → Resolves markers b.body body →
    Yields markers blocks last segments →
    Yields markers (b :: blocks) last
      (Segment.ofConstant lead ++ b.opening.segment body :: segments)

end TemplateBlock

namespace Segment

open TemplateBlock

variable {markers : Markers}

theorem blockBody_eq_ok_iff {kind : BlockKind} {d : Directive} {source body after : Fragment} :
    blockBody kind d source = .ok (body, after) ↔
      ∃ closing, Directive.first? source = some (body, .ok (closing, after)) ∧
        HeaderToken.forms closing.header = [(.closing kind, kind.closeWord)] := by
  rw [blockBody]
  cases Directive.first? source with
  | none => simp
  | some p =>
    obtain ⟨found, _ | ⟨closing, rest⟩⟩ := p
    · simp
    · simp only [← checkClosing_eq_ok_iff, Checked.map_eq_ok_iff, Option.some.injEq, Prod.mk.injEq,
        Except.ok.injEq]
      constructor
      · rintro ⟨_, hclosing, rfl, rfl⟩
        exact ⟨closing, ⟨rfl, rfl, rfl⟩, hclosing⟩
      · rintro ⟨_, ⟨rfl, rfl, rfl⟩, hclosing⟩
        exact ⟨(), hclosing, rfl, rfl⟩

theorem block_eq_bind (d : Directive) (source : Fragment) :
    block markers d source = (do
      let opening ← BlockOpening.ofDirective d
      let (body, after) ← blockBody opening.kind d source
      (resolve markers body).map fun s => (opening.segment s, after)) := by
  rw [block]
  cases BlockOpening.ofDirective d with
  | error _ => rfl
  | ok opening =>
    dsimp only [Bind.bind, Except.bind]
    cases blockBody opening.kind d source <;> rfl

theorem block_eq_ok_iff {d : Directive} {source after : Fragment} {segment : Segment} :
    block markers d source = .ok (segment, after) ↔
      ∃ (opening : BlockOpening) (body : Fragment) (s : Statement), opening.IsWritten d.header ∧
        blockBody opening.kind d source = .ok (body, after) ∧ Resolves markers body.text s ∧
        opening.segment s = segment := by
  simp only [block_eq_bind, Checked.bind_eq_ok_iff, Checked.map_eq_ok_iff, Prod.exists,
    BlockOpening.ofDirective_eq_ok_iff, resolve_eq_ok_iff, Prod.mk.injEq]
  constructor
  · rintro ⟨opening, hopening, body, _, hbody, s, hs, hsegment, rfl⟩
    exact ⟨opening, body, s, hopening, hbody, hs, hsegment⟩
  · rintro ⟨opening, body, s, hopening, hbody, hs, hsegment⟩
    exact ⟨opening, hopening, body, after, hbody, s, hs, hsegment, rfl⟩

/-- A well-formed block is read, and dividing goes on behind it. -/
theorem parts_block {b : TemplateBlock} (hb : b.IsWellFormed) {source : Fragment} {rest : Text}
    (htext : source.text = b.text ++ rest) {lead body : Statement}
    (hlead : Resolves markers b.lead lead) (hbody : Resolves markers b.body body) :
    ∃ after : Fragment, after.text = rest ∧ parts markers source = (parts markers after).map
      fun later => ofConstant lead ++ b.opening.segment body :: later := by
  have hsource : source.text = b.lead ++ Directive.write b.header ++
      (b.body ++ Directive.write b.closing ++ rest) := by
    rw [htext, text]
    simp only [List.append_assoc]
  obtain ⟨d, inside, hfirst, hheader, hinside⟩ :=
    Directive.first?_of_write hsource hb.lead hb.header
  obtain ⟨closing, after, hsecond, hclosing, hafter⟩ :=
    Directive.first?_of_write hinside hb.body hb.closing
  have hconstants : constants markers ⟨source.offset, b.lead⟩ = .ok (ofConstant lead) :=
    constants_eq_ok_iff.2 ⟨lead, hlead, rfl⟩
  have hblock : block markers d inside = .ok (b.opening.segment body, after) := by
    refine block_eq_ok_iff.2 ⟨b.opening, ⟨inside.offset, b.body⟩, body, ?_, ?_, hbody, rfl⟩
    · rw [hheader]
      exact hb.opening
    · exact blockBody_eq_ok_iff.2 ⟨closing, hsecond, hclosing ▸ hb.closes⟩
  refine ⟨after, hafter, ?_⟩
  rw [parts_eq, hfirst]
  dsimp only
  rw [hconstants]
  dsimp only
  rw [hblock]

theorem parts_eq_bind {source before : Fragment}
    {found : Except LexicalFault (Directive × Fragment)}
    (h : Directive.first? source = some (before, found)) :
    parts markers source = (do
      let lead ← constants markers before
      let (d, inside) ← found.mapError LexicalFault.inTemplate
      let (segment, after) ← block markers d inside
      (parts markers after).map fun later => lead ++ segment :: later) := by
  rw [parts_eq, h]
  dsimp only [Bind.bind, Except.bind]
  cases constants markers before with
  | error _ => rfl
  | ok lead =>
    rcases found with _ | ⟨d, inside⟩
    · rfl
    · dsimp only [Except.mapError]
      cases block markers d inside <;> rfl

/-- Dividing a fragment that holds a directive has read a well-formed block. -/
theorem block_of_parts {source : Fragment} {segments : List Segment}
    (h : parts markers source = .ok segments) (hopener : Directive.opener <:+: source.text) :
    ∃ (b : TemplateBlock) (after : Fragment) (lead body : Statement) (later : List Segment),
      source.text = b.text ++ after.text ∧ after.text.length < source.text.length ∧
        b.IsWellFormed ∧ Resolves markers b.lead lead ∧ Resolves markers b.body body ∧
        parts markers after = .ok later ∧
        segments = ofConstant lead ++ b.opening.segment body :: later := by
  cases hfirst : Directive.first? source with
  | none => exact absurd hopener (Directive.first?_eq_none_iff.1 hfirst)
  | some p =>
    obtain ⟨before, found⟩ := p
    rw [parts_eq_bind hfirst] at h
    obtain ⟨lead, hlead, hfound⟩ := Checked.bind_eq_ok h
    obtain ⟨⟨d, inside⟩, hread, hblock⟩ := Checked.bind_eq_ok hfound
    obtain ⟨⟨segment, after⟩, hsegment, hparts⟩ := Checked.bind_eq_ok hblock
    obtain ⟨later, hlater, rfl⟩ := Checked.map_eq_ok hparts
    obtain ⟨leadStatement, hleadResolves, rfl⟩ := constants_eq_ok_iff.1 hlead
    obtain rfl : found = .ok (d, inside) := by
      cases found with
      | error _ => cases hread
      | ok q =>
        cases hread
        rfl
    obtain ⟨opening, body, s, hopening, hbody, hbodyResolves, rfl⟩ := block_eq_ok_iff.1 hsegment
    obtain ⟨closing, hsecond, hcloses⟩ := blockBody_eq_ok_iff.1 hbody
    obtain ⟨htext, hbefore, hheader⟩ := Directive.write_of_first? hfirst
    obtain ⟨hinside, hbodyText, hclosing⟩ := Directive.write_of_first? hsecond
    have hlength := Nat.lt_trans (block_length hsegment) (Directive.first?_length hfirst)
    refine ⟨⟨before.text, opening, d.header, body.text, closing.header⟩, after, leadStatement, s,
      later, ?_, hlength, ⟨hbefore, hheader, hopening, hbodyText, hclosing, hcloses⟩,
      hleadResolves, hbodyResolves, hlater, rfl⟩
    rw [htext, hinside, text]
    simp only [List.append_assoc]

/-- A fragment that is divided is written from the blocks of its segments. The induction is on the
length of the fragment, since a block is read from the front. -/
theorem grammar_of_parts {source : Fragment} {segments : List Segment}
    (h : parts markers source = .ok segments) :
    ∃ blocks last, source.text = blocks.flatMap text ++ last ∧ (∀ b ∈ blocks, b.IsWellFormed) ∧
      ¬Directive.opener <:+: last ∧ Yields markers blocks last segments := by
  induction hn : source.text.length using Nat.strongRecOn generalizing source segments with
  | ind n ih =>
    by_cases hopener : Directive.opener <:+: source.text
    · obtain ⟨b, after, lead, body, later, htext, hlength, hb, hlead, hbody, hlater, rfl⟩ :=
        block_of_parts h hopener
      obtain ⟨blocks, last, hrest, hblocks, hlast, hyields⟩ := ih _ (hn ▸ hlength) hlater rfl
      refine ⟨b :: blocks, last, ?_, List.forall_mem_cons.2 ⟨hb, hblocks⟩, hlast,
        .block hlead hbody hyields⟩
      rw [htext, hrest, List.flatMap_cons, List.append_assoc]
    · rw [parts_eq, Directive.first?_eq_none_iff.2 hopener] at h
      obtain ⟨s, hs, rfl⟩ := constants_eq_ok_iff.1 h
      exact ⟨[], source.text, rfl, by simp, hopener, .last hs⟩

theorem isDynamic_segment (opening : BlockOpening) (s : Statement) :
    (opening.segment s).isDynamic := by
  cases opening <;> rfl

theorem divide_eq_ok_iff_parts {source : Fragment} {segments : List Segment} :
    divide markers source = .ok segments ↔
      parts markers source = .ok segments ∧ segments.any isDynamic := by
  rw [divide]
  cases parts markers source with
  | error _ => simp
  | ok found =>
    by_cases h : found.any isDynamic
    · simp only [if_pos h, Except.ok.injEq]
      exact ⟨fun heq => ⟨heq, heq ▸ h⟩, fun heq => heq.1⟩
    · simp only [if_neg h, Except.ok.injEq]
      exact ⟨fun heq => (nomatch heq), fun ⟨heq, hany⟩ => absurd (heq ▸ hany) h⟩

end Segment

end QueryTemplate
