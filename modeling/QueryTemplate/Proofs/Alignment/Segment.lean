import Mathlib.Data.List.TakeWhile
import QueryTemplate.Proofs.Alignment.Query
import QueryTemplate.Segment.Division

/-! # Statements and segments of aligned texts

Resolving placeholders and dividing a template into segments give the same results in aligned
fragments: statements and segments hold no places, so only the faults differ by their places.
-/

namespace QueryTemplate

instance : Alignable Statement := .plain
instance : Alignable BlockOpening := .plain
instance : Alignable (List Piece) := .plain
instance : Alignable Segment := .plain
instance : Alignable (List Segment) := .plain

structure HeaderToken.Alike (A : Alignment) (t t' : HeaderToken) : Prop where
  kind : t.kind = t'.kind
  text : t.text = t'.text
  span : Aligned A t.span t'.span

instance : Alignable HeaderToken := ⟨HeaderToken.Alike⟩

structure Directive.Alike (A : Alignment) (d d' : Directive) : Prop where
  header : d.header = d'.header
  span : Aligned A d.span d'.span
  inner : Aligned A (⟨d.span.start + Text.size opener, d.header⟩ : Fragment)
    ⟨d'.span.start + Text.size opener, d'.header⟩

instance : Alignable Directive := ⟨Directive.Alike⟩

section

variable {A : Alignment} {o o' : Nat}

/-- The place behind a closing brace, and the fragment there. -/
theorem Fragment.Alike.behindBrace {before after : Text}
    (h : Aligned A (⟨o, before ++ '\x7d' :: after⟩ : Fragment) ⟨o', before ++ '\x7d' :: after⟩) :
    A.Matches (o + Text.size before + 1) (o' + Text.size before + 1) ∧
      Aligned A (⟨o + Text.size before + 1, after⟩ : Fragment)
        ⟨o' + Text.size before + 1, after⟩ := by
  have hb := h.behind
  refine ⟨?_, hb.tail⟩
  exact hb.cut ['\x7d'] after rfl (.inr ⟨_, rfl, by decide⟩)

/-! ## Placeholders -/

theorem Piece.scan_cons (offset : Nat) (c d : Char) (rest : Text) :
    scan offset (c :: d :: rest) = match opened? c d with
      | none => (scan (offset + c.utf8Size) (d :: rest)).map (literal c :: ·)
      | some sort =>
        match Text.splitFirst? '\x7d' rest with
        | none =>
          .error ⟨.unterminatedPlaceholder, ⟨offset, offset + Text.size (c :: d :: rest)⟩⟩
        | some (name, after) =>
          let stop := offset + Text.size (c :: d :: name) + 1
          if Text.isBlank name then .error ⟨.emptyPlaceholder, ⟨offset, stop⟩⟩
          else (scan stop after).map (placeholder sort (Text.trim name) :: ·) := by
  rw [scan]
  cases opened? c d with
  | none => rfl
  | some sort =>
    dsimp only
    split <;> simp_all

theorem Piece.opened?_eq_some {c d : Char} {sort : Placeholder} (h : opened? c d = some sort) :
    (c = '$' ∧ sort = .bind ∨ c = '#' ∧ sort = .substitute) ∧ d = '\x7b' := by
  unfold opened? at h
  split at h <;> simp_all

theorem Piece.aligned_scan {t : Text} (h : Aligned A (⟨o, t⟩ : Fragment) ⟨o', t⟩) :
    Aligned A (scan o t) (scan o' t) := by
  induction hn : t.length using Nat.strongRecOn generalizing t o o' with
  | ind n ih =>
    match t with
    | [] =>
      rw [scan, scan]
      exact .ok rfl
    | [c] =>
      rw [scan, scan]
      exact .ok rfl
    | c :: d :: rest =>
      rw [scan_cons, scan_cons]
      split
      · exact aligned_map (ih _ (by simp [← hn]) h.tail rfl) fun _ _ hp => congrArg _ hp
      · rename_i sort hopened
        have hc : c ≠ ' ' := by
          rcases (opened?_eq_some hopened).1 with ⟨rfl, -⟩ | ⟨rfl, -⟩ <;> decide
        split
        · exact .error ⟨rfl, h.start hc, h.stop⟩
        · rename_i name after hs
          obtain ⟨rfl, -⟩ := Text.splitFirst?_eq_some hs
          have h' : Aligned A (⟨o, (c :: d :: name) ++ '\x7d' :: after⟩ : Fragment)
              ⟨o', (c :: d :: name) ++ '\x7d' :: after⟩ := h
          have hbehind := h'.behindBrace
          refine aligned_ite (fun _ => .error ⟨rfl, h.start hc, hbehind.1⟩) fun _ => ?_
          exact aligned_map (ih _ (by simp [← hn]; omega) hbehind.2 rfl) fun _ _ hp => congrArg _ hp

theorem Statement.aligned_resolve (markers : Markers) {f f' : Fragment} (h : Aligned A f f') :
    Aligned A (resolve markers f) (resolve markers f') := by
  obtain ⟨o, t⟩ := f
  obtain ⟨o', t'⟩ := f'
  obtain rfl : t = t' := h.text
  exact aligned_map (Piece.aligned_scan h) fun _ _ hp => congrArg _ hp

theorem Segment.aligned_resolve (markers : Markers) {f f' : Fragment} (h : Aligned A f f') :
    Aligned A (resolve markers f) (resolve markers f') :=
  aligned_mapError (Statement.aligned_resolve markers h) fun _ _ => LexicalFault.aligned_inTemplate

/-! ## Directives -/

theorem HeaderToken.scan_cons (offset : Nat) (c : Char) (rest : Text) :
    scan offset (c :: rest) =
      if isSeparator c then scan (offset + c.utf8Size) rest
      else if startsWord c then
        let word := c :: rest.takeWhile continuesWord
        covering (.ofWord word) offset word ::
          scan (offset + Text.size word) (rest.dropWhile continuesWord)
      else if isQuote c then
        match Text.splitFirst? c rest with
        | some (inner, after) =>
          let quoted := c :: inner ++ [c]
          covering .quoted offset quoted :: scan (offset + Text.size quoted) after
        | none => [covering .invalid offset (c :: rest)]
      else covering .invalid offset [c] :: scan (offset + c.utf8Size) rest := by
  rw [scan]
  split
  · rfl
  · split
    · rfl
    · split
      · split <;> simp_all
      · rfl

theorem HeaderToken.aligned_covering (kind : HeaderKind) {text after : Text}
    (h : Aligned A (⟨o, text ++ after⟩ : Fragment) ⟨o', text ++ after⟩)
    (hstart : Text.IsEdge [] (text ++ after)) (hstop : Text.IsEdge text after) :
    Aligned A (covering kind o text) (covering kind o' text) :=
  ⟨rfl, rfl, h.cut [] _ rfl hstart, h.cut text after rfl hstop⟩

theorem HeaderToken.ne_blank_of_continuesWord {c : Char} (h : continuesWord c = true) :
    c ≠ ' ' := by
  rintro rfl
  exact absurd h (by decide)

theorem HeaderToken.aligned_scan {t : Text} (h : Aligned A (⟨o, t⟩ : Fragment) ⟨o', t⟩) :
    Aligned A (scan o t) (scan o' t) := by
  induction hn : t.length using Nat.strongRecOn generalizing t o o' with
  | ind n ih =>
    cases t with
    | nil =>
      rw [scan, scan]
      exact .nil
    | cons c rest =>
      rw [scan_cons, scan_cons]
      refine aligned_ite (fun _ => ih _ (by simp [← hn]) h.tail rfl) fun hseparator => ?_
      have hc : c ≠ ' ' := by
        rintro rfl
        exact hseparator (by decide)
      have hstart : Text.IsEdge [] (c :: rest) := .inl (by simpa using hc)
      refine aligned_ite (fun _ => ?_) fun _ => aligned_ite (fun _ => ?_) fun _ => ?_
      · have hrest : c :: rest =
            c :: rest.takeWhile continuesWord ++ rest.dropWhile continuesWord := by
          simp
        have hlength := (List.dropWhile_sublist continuesWord (l := rest)).length_le
        rw [hrest] at h hstart
        refine .cons (aligned_covering _ h hstart (.inr ?_))
          (ih _ (by simp [← hn]; omega) h.behind rfl)
        refine ⟨(rest.takeWhile continuesWord).getLast?.getD c, by rw [List.getLast?_cons], ?_⟩
        rcases List.eq_nil_or_concat (rest.takeWhile continuesWord) with hw | ⟨u, d, hw⟩
        · simpa [hw] using hc
        · have hd : d ∈ rest.takeWhile continuesWord := by simp [hw]
          simpa [hw] using ne_blank_of_continuesWord (List.mem_takeWhile_imp hd)
      · split
        · rename_i inner after hs
          obtain ⟨rfl, -⟩ := Text.splitFirst?_eq_some hs
          have hrest : c :: (inner ++ c :: after) = c :: inner ++ [c] ++ after := by simp
          rw [hrest] at h hstart
          exact .cons (aligned_covering _ h hstart (.inr ⟨c, List.getLast?_concat .., hc⟩))
            (ih _ (by simp [← hn]; omega) h.behind rfl)
        · exact .cons ⟨rfl, rfl, h.start hc, h.stop⟩ .nil
      · have h' : Aligned A (⟨o, [c] ++ rest⟩ : Fragment) ⟨o', [c] ++ rest⟩ := h
        exact .cons (aligned_covering _ h' hstart (.inr ⟨c, rfl, hc⟩))
          (ih _ (by simp [← hn]) h.tail rfl)

theorem Directive.aligned_tokens {d d' : Directive} (h : Aligned A d d') :
    Aligned A d.tokens d'.tokens := by
  have hinner := h.inner
  rw [tokens, tokens]
  rw [← h.header] at hinner ⊢
  exact HeaderToken.aligned_scan hinner

theorem Directive.aligned_read {text : Text}
    (h : Aligned A (⟨o, opener ++ text⟩ : Fragment) ⟨o', opener ++ text⟩) :
    Aligned A (read o text) (read o' text) := by
  have hstart : A.Matches o o' := Fragment.Alike.start h (by decide)
  have hbehind := h.behind
  unfold read
  split
  · exact .error ⟨rfl, hstart, hbehind.stop⟩
  · rename_i header after hs
    obtain rfl := splitHeader?_append hs
    have hstop := hbehind.behindBrace
    exact .ok ⟨⟨rfl, ⟨hstart, hstop.1⟩, hbehind.upTo (by decide)⟩, hstop.2⟩

theorem Directive.aligned_first? {f f' : Fragment} (h : Aligned A f f') :
    Aligned A (first? f) (first? f') := by
  obtain ⟨o, t⟩ := f
  obtain ⟨o', t'⟩ := f'
  obtain rfl : t = t' := h.text
  simp only [first?]
  cases hs : Text.splitMark? opener t with
  | none => exact .none
  | some p =>
    obtain ⟨before, after⟩ := p
    obtain rfl := Text.splitMark?_append hs
    rw [List.append_assoc] at h
    exact .some ⟨h.upTo (by decide), aligned_read h.behind⟩

/-! ## Blocks -/

theorem BlockOpening.aligned_loopPart {d d' : Directive} (hd : Aligned A d d') (part : LoopPart)
    (kind : HeaderKind) {ts ts' : List HeaderToken} (hts : Aligned A ts ts') :
    Aligned A (loopPart d part kind ts) (loopPart d' part kind ts') := by
  cases hts with
  | nil => exact .error ⟨rfl, hd.span⟩
  | cons ht hrest =>
    simp only [loopPart, ht.kind]
    exact aligned_ite (fun _ => .ok ⟨ht.text, hrest⟩) fun _ => .error ⟨rfl, ht.span⟩

theorem BlockOpening.aligned_ofLoopClause {d d' : Directive} (hd : Aligned A d d')
    {ts ts' : List HeaderToken} (hts : Aligned A ts ts') :
    Aligned A (ofLoopClause d ts) (ofLoopClause d' ts') := by
  apply aligned_bind (aligned_loopPart hd _ _ hts)
  rintro ⟨e, _⟩ ⟨e', _⟩ ⟨he, h⟩
  apply aligned_bind (aligned_loopPart hd _ _ h)
  rintro _ _ ⟨_, h⟩
  apply aligned_bind (aligned_loopPart hd _ _ h)
  rintro ⟨c, rest⟩ ⟨c', rest'⟩ h
  obtain ⟨hc, hrest⟩ : c = c' ∧ Aligned A rest rest' := h
  obtain rfl : e = e' := he
  subst hc
  have hempty : rest.isEmpty = rest'.isEmpty := by cases hrest <;> rfl
  dsimp only
  rw [hempty]
  refine aligned_ite (fun _ => .ok rfl) fun _ => ?_
  apply aligned_bind (aligned_loopPart hd _ _ hrest)
  rintro _ _ ⟨_, h⟩
  apply aligned_bind (aligned_loopPart hd _ _ h)
  rintro ⟨quoted, last⟩ ⟨quoted', last'⟩ h
  obtain ⟨hquoted, hlast⟩ : quoted = quoted' ∧ Aligned A last last' := h
  subst hquoted
  cases hlast with
  | nil => exact .ok rfl
  | cons ht _ => exact .error ⟨by rw [ht.kind]; rfl, ht.span⟩

/-- The tokens of a header are those of the same header at offset 0, moved. -/
theorem HeaderToken.scan_shift (t : Text) : Aligned (.shift o) (scan 0 t) (scan o t) :=
  aligned_scan (by simpa using Fragment.aligned_shift o 0 t)

/-- How far behind the beginning of its header the first token stops. -/
theorem Directive.firstStop {d : Directive} {t : HeaderToken} {rest : List HeaderToken}
    (h : d.tokens = t :: rest) :
    ((HeaderToken.scan 0 d.header).head?.map fun t => t.span.stop) =
      some (t.span.stop - (d.span.start + Text.size opener)) := by
  have hshift := HeaderToken.scan_shift (o := d.span.start + Text.size opener) d.header
  rw [tokens] at h
  rw [h] at hshift
  generalize HeaderToken.scan 0 d.header = ts at hshift
  cases hshift with
  | cons ht _ =>
    have hstop : t.span.stop = _ := ht.span.stop
    rw [hstop, Nat.add_sub_cancel]
    rfl

theorem BlockOpening.aligned_ofDirective {d d' : Directive} (hd : Aligned A d d') :
    Aligned A (ofDirective d) (ofDirective d') := by
  have hunknown : Aligned A (⟨.unknownDirective (Text.trim d.header), d.span⟩ : TemplateFault)
      ⟨.unknownDirective (Text.trim d'.header), d'.span⟩ := ⟨by rw [hd.header]; rfl, hd.span⟩
  have htokens := Directive.aligned_tokens hd
  unfold ofDirective
  generalize hts : d.tokens = ts, hts' : d'.tokens = ts' at htokens
  cases htokens with
  | nil => exact .error hunknown
  | @cons t t' clause clause' ht hclause =>
    have hstop : t.span.stop - (d.span.start + Text.size Directive.opener) =
        t'.span.stop - (d'.span.start + Text.size Directive.opener) := by
      have h := Directive.firstStop hts
      rw [hd.header, Directive.firstStop hts'] at h
      exact (Option.some.inj h).symm
    simp only [ht.kind, hstop, hd.header]
    split
    · exact aligned_ite (fun _ => .error ⟨rfl, hd.span⟩) fun _ => .ok rfl
    · exact aligned_ofLoopClause hd hclause
    · exact .error ⟨rfl, hd.span⟩
    · exact .error ⟨rfl, hd.span⟩

namespace Segment

theorem aligned_checkClosing (block : BlockKind) {d d' : Directive} (hd : Aligned A d d') :
    Aligned A (checkClosing block d) (checkClosing block d') := by
  have htokens := Directive.aligned_tokens hd
  unfold checkClosing
  generalize d.tokens = ts, d'.tokens = ts' at htokens
  cases htokens with
  | nil => exact .error ⟨by rw [hd.header]; rfl, hd.span⟩
  | cons ht hsurplus =>
    simp only [ht.kind, hd.header]
    split
    · refine aligned_ite (fun _ => .error ⟨rfl, hd.span⟩) fun _ => ?_
      cases hsurplus with
      | nil => exact .ok rfl
      | cons hextra _ => exact .error ⟨by rw [hextra.kind]; rfl, hextra.span⟩
    · exact .error ⟨rfl, hd.span⟩
    · exact .error ⟨rfl, hd.span⟩

theorem aligned_blockBody (block : BlockKind) {d d' : Directive} (hd : Aligned A d d')
    {f f' : Fragment} (hf : Aligned A f f') :
    Aligned A (blockBody block d f) (blockBody block d' f') := by
  have hfirst := Directive.aligned_first? hf
  unfold blockBody
  generalize Directive.first? f = first, Directive.first? f' = first' at hfirst
  cases hfirst with
  | none => exact .error ⟨rfl, hd.span⟩
  | @some x x' h =>
    obtain ⟨body, found⟩ := x
    obtain ⟨body', found'⟩ := x'
    obtain ⟨hbody, hfound⟩ : Aligned A body body' ∧ Aligned A found found' := h
    cases hfound with
    | error h => exact .error (LexicalFault.aligned_inTemplate h)
    | ok h => exact aligned_map (aligned_checkClosing block h.1) fun _ _ _ => ⟨hbody, h.2⟩

theorem aligned_constants (markers : Markers) {f f' : Fragment} (hf : Aligned A f f') :
    Aligned A (constants markers f) (constants markers f') :=
  aligned_map (aligned_resolve markers hf) fun _ _ h => by rw [(h : _ = _)]; rfl

theorem aligned_block (markers : Markers) {d d' : Directive} (hd : Aligned A d d')
    {f f' : Fragment} (hf : Aligned A f f') :
    Aligned A (block markers d f) (block markers d' f') := by
  have hopening := BlockOpening.aligned_ofDirective hd
  unfold block
  generalize BlockOpening.ofDirective d = x, BlockOpening.ofDirective d' = x' at hopening
  cases hopening with
  | error h => exact .error h
  | @ok opening opening' h =>
    obtain rfl : opening = opening' := h
    have hbody := aligned_blockBody opening.kind hd hf
    dsimp only
    generalize blockBody opening.kind d f = y, blockBody opening.kind d' f' = y' at hbody
    cases hbody with
    | error h => exact .error h
    | ok h =>
      exact aligned_map (aligned_resolve markers h.1) fun s s' hs =>
        ⟨congrArg (opening.segment ·) hs, h.2⟩

theorem parts_eq (markers : Markers) (source : Fragment) :
    parts markers source = match Directive.first? source with
      | none => constants markers source
      | some (before, found) =>
        match constants markers before with
        | .error fault => .error fault
        | .ok lead =>
          match found with
          | .error fault => .error fault.inTemplate
          | .ok (directive, inside) =>
            match block markers directive inside with
            | .error fault => .error fault
            | .ok (segment, after) =>
              (parts markers after).map fun later => lead ++ segment :: later := by
  rw [parts]
  split
  · simp_all
  · rename_i before found hf
    simp only [hf]
    cases constants markers before with
    | error _ => rfl
    | ok lead =>
      cases found with
      | error fault => rfl
      | ok p =>
        dsimp only
        split <;> simp_all

theorem aligned_parts (markers : Markers) {f f' : Fragment} (hf : Aligned A f f') :
    Aligned A (parts markers f) (parts markers f') := by
  induction hn : f.text.length using Nat.strongRecOn generalizing f f' with
  | ind n ih =>
    have hfirst := Directive.aligned_first? hf
    rw [parts_eq markers f, parts_eq markers f']
    generalize hs : Directive.first? f = first, Directive.first? f' = first' at hfirst
    cases hfirst with
    | none => exact aligned_constants markers hf
    | @some x x' h =>
      obtain ⟨before, found⟩ := x
      obtain ⟨before', found'⟩ := x'
      obtain ⟨hbefore, hfound⟩ : Aligned A before before' ∧ Aligned A found found' := h
      have hlead := aligned_constants markers hbefore
      dsimp only
      generalize constants markers before = y, constants markers before' = y' at hlead
      cases hlead with
      | error h => exact .error h
      | @ok lead lead' h =>
        obtain rfl : lead = lead' := h
        cases hfound with
        | error h => exact .error (LexicalFault.aligned_inTemplate h)
        | @ok z z' h =>
          obtain ⟨directive, inside⟩ := z
          obtain ⟨directive', inside'⟩ := z'
          have hblock := aligned_block markers h.1 h.2
          dsimp only at hblock ⊢
          generalize hb : block markers directive inside = w,
            block markers directive' inside' = w' at hblock
          cases hblock with
          | error h => exact .error h
          | @ok v v' h =>
            obtain ⟨segment, after⟩ := v
            obtain ⟨segment', after'⟩ := v'
            obtain ⟨hsegment, hafter⟩ : segment = segment' ∧ Aligned A after after' := h
            subst hsegment
            have hshorter := Nat.lt_trans (block_length hb) (Directive.first?_length hs)
            exact aligned_map (ih _ (hn ▸ hshorter) hafter rfl) fun _ _ hlater =>
              congrArg (fun later => lead ++ segment :: later) hlater

/-- Dividing a template. A template without blocks is refused as a whole, from its beginning on. -/
theorem aligned_divide (markers : Markers) {f f' : Fragment} (hf : Aligned A f f')
    (hstart : A.Matches f.offset f'.offset) :
    Aligned A (divide markers f) (divide markers f') := by
  have hparts := aligned_parts markers hf
  unfold divide
  generalize parts markers f = x, parts markers f' = x' at hparts
  cases hparts with
  | error h => exact .error h
  | @ok segments segments' h =>
    obtain rfl : segments = segments' := h
    exact aligned_ite (fun _ => .ok rfl) fun _ => .error ⟨rfl, hstart, hf.stop⟩

end Segment

end

end QueryTemplate
