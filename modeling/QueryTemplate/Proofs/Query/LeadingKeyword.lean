import QueryTemplate.Proofs.File.Composition
import QueryTemplate.Proofs.Query.Binding
import QueryTemplate.Proofs.Token.Division

/-! # The keyword of a query

Classifying a statement and reading the shape of a query both pass over the placeholders and
directives in front, and both stop at the same token. A query is read from there as if its text
began there.
-/

namespace QueryTemplate

/-- From a token on, a text is read as if it began with that token. -/
theorem Lexicon.read_of_suffix {lexicon : Lexicon} {f : Fragment} {t : Token} {rest : List Token}
    (h : t :: rest <:+ (lexicon.read f).tokens) : ∃ before after, f.text = before ++ after ∧
      t.span.start = f.offset + Text.size before ∧
      lexicon.read ⟨t.span.start, after⟩ = ⟨t :: rest, (lexicon.read f).fault⟩ := by
  induction hn : f.text.length using Nat.strongRecOn generalizing f with
  | ind n ih =>
    rw [read_eq] at h ⊢
    rcases hnext : lexicon.next? f with _ | ⟨e | first, later⟩
    · rw [hnext] at h
      cases List.suffix_nil.1 h
    · rw [hnext] at h
      cases List.suffix_nil.1 h
    · rw [hnext] at h
      obtain ⟨gap, c, tail, -, hc, htext, htoken⟩ := gap_of_next? hnext
      obtain ⟨-, hlexeme, hspan, hoffset⟩ := lexeme_of_tokenAt htoken
      rcases List.suffix_cons_iff.1 h with heq | hlater
      · cases heq
        refine ⟨gap, c :: tail, htext, by rw [hspan], ?_⟩
        rw [read_eq, next?, hc, if_neg Bool.false_ne_true, hspan, htoken]
        rfl
      · obtain ⟨before, after, hlaterText, hstart, hread⟩ :=
          ih _ (hn ▸ next?_length hnext) hlater rfl
        refine ⟨gap ++ (first.lexeme ++ before), after, ?_, ?_, hread⟩
        · rw [htext, ← hlexeme, hlaterText]
          simp
        · rw [hstart, hoffset]
          simp only [Text.size_append, Nat.add_assoc]

def QueryShape.shift (base : Nat) (shape : QueryShape) : QueryShape :=
  ⟨shape.fields.map (QueryField.shift base), shape.tables.map (QueryTable.shift base)⟩

theorem QueryShape.eq_shift {base : Nat} {shape shape' : QueryShape}
    (h : Aligned (.shift base) shape shape') : shape' = shape.shift base := by
  obtain ⟨fields, tables⟩ := shape'
  have hfields := eq_map_of_aligned (fun _ _ => QueryField.eq_shift) h.fields
  have htables := eq_map_of_aligned (fun _ _ => QueryTable.eq_shift) h.tables
  rw [QueryShape.shift, ← hfields, ← htables]

namespace Query

section

variable {q : Query} {ts : List Token} {k : Keyword} {span : Span}

/-- The keyword of a statement is what the placeholders and directives in front of it leave. -/
theorem statementKeyword_eq_ok_iff {inside : Bool} :
    q.statementKeyword inside ts = .ok ⟨k, span⟩ ↔ (k = .SELECT ∨ k.isMutation) ∧
      ∃ t rest, q.skipBraces (fun _ => true) inside ts = .ok (t :: rest) ∧
        t.kind = .keyword k ∧ t.span = span := by
  induction ts generalizing inside with
  | nil =>
    constructor
    · cases inside <;> exact nofun
    · rintro ⟨-, _, _, hskip, -⟩
      cases List.suffix_nil.1 (skipBraces_suffix hskip)
  | cons t ts ih =>
    cases inside with
    | true => exact ih
    | false =>
      rw [statementKeyword, skipBraces]
      cases hkind : t.kind with
      | symbol s =>
        dsimp only
        rw [Bool.and_true]
        split_ifs
        · exact ih
        · simp [hkind]
      | keyword k' =>
        dsimp only
        split_ifs <;> grind
      | _ => simp [hkind]

theorem leadingKeyword_eq_ok_iff {lexicon : Lexicon} {source : Fragment} :
    leadingKeyword lexicon source = .ok ⟨k, span⟩ ↔ (k = .SELECT ∨ k.isMutation) ∧
      ∃ t rest, skipAllBraces ⟨source, (lexicon.read source).fault⟩ (lexicon.read source).tokens =
        .ok (t :: rest) ∧ t.kind = .keyword k ∧ t.span = span :=
  statementKeyword_eq_ok_iff

theorem select_of_selectList {fields : List QueryField} {clauses : List Token}
    (h : q.selectList ts = .ok (fields, clauses)) :
    ∃ t rest, ts = t :: rest ∧ t.kind = .keyword .SELECT := by
  obtain ⟨⟨select, rest⟩, hnext, h⟩ := Checked.bind_eq_ok h
  dsimp only at h
  split_ifs at h with hselect
  · cases h
  · cases ts with
    | nil => cases hnext
    | cons t ts =>
      cases hnext
      exact ⟨_, _, rfl, by simpa [Token.isKeyword] using hselect⟩

end

variable {lexicon : Lexicon} {text : Text}

theorem leadingKeyword_of_shape {source : Fragment} {shape : QueryShape}
    (h : Query.shape lexicon source = .ok shape) :
    ∃ span, leadingKeyword lexicon source = .ok ⟨.SELECT, span⟩ := by
  obtain ⟨ts, fields, clauses, hskip, hselect, -⟩ := exists_of_shape h
  obtain ⟨t, rest, rfl, hkind⟩ := select_of_selectList hselect
  exact ⟨t.span, leadingKeyword_eq_ok_iff.2 ⟨.inl rfl, t, rest, hskip, hkind, rfl⟩⟩

/-- A query behind another text is the same query, at another place. -/
theorem aligned_behind (before after : Text) {fault fault' : Option LexicalFault}
    (hfault : Aligned (.shift (Text.size before)) fault fault') :
    Aligned (.shift (Text.size before)) (⟨.ofText after, fault⟩ : Query)
      ⟨.ofText (before ++ after), fault'⟩ := by
  refine ⟨?_, ?_, hfault⟩
  · change 0 + Text.size (before ++ after) = 0 + Text.size after + Text.size before
    rw [Text.size_append, Nat.add_assoc, Nat.add_comm (Text.size before)]
  · intro s s' hs
    rw [Span.eq_shift hs]
    exact (Text.slice_append_shift before after s).symm

/-- The query from its keyword on is the same query, at another place. -/
theorem aligned_shape_of_leadingKeyword {k : Keyword} {span : Span}
    (h : leadingKeyword lexicon (.ofText text) = .ok ⟨k, span⟩) :
    Aligned (.shift span.start) (shape lexicon (.ofText (Text.dropBytes span.start text)))
      (shape lexicon (.ofText text)) := by
  obtain ⟨-, t, rest, hskip, hkind, rfl⟩ := leadingKeyword_eq_ok_iff.1 h
  obtain ⟨before, after, rfl, hstart, hread⟩ := Lexicon.read_of_suffix (skipBraces_suffix hskip)
  have hsize : t.span.start = Text.size before := hstart.trans (Nat.zero_add _)
  rw [hsize] at hread ⊢
  rw [Text.dropBytes_size_append]
  have hstream := lexicon.aligned_read (Fragment.aligned_shift (Text.size before) 0 after)
  rw [Nat.zero_add, hread] at hstream
  have hq := aligned_behind before after hstream.fault
  -- The keyword opens no braces, so nothing more is passed over in front of it.
  have hkeyword (q : Query) : q.skipAllBraces (t :: rest) = .ok (t :: rest) := by
    rw [skipAllBraces, skipBraces, hkind]
  have hstart := aligned_skipBraces hq hstream.tokens (fun _ => true) false
  refine aligned_shape_of_start hq ?_
  rw [hskip, ← hkeyword]
  exact hstart

/-- **What a statement is classified by is what its shape is read from.** A text that has the shape
of a query is classified as a query, and a text that is classified as a query has the shape of the
text from its keyword on, moved to the place of the keyword, or is refused for the same reason. -/
theorem shape_eq_shape_of_leadingKeyword (lexicon : Lexicon) (text : Text) :
    (∀ shape, Query.shape lexicon (.ofText text) = .ok shape →
      ∃ span, leadingKeyword lexicon (.ofText text) = .ok ⟨.SELECT, span⟩) ∧
    ∀ span, leadingKeyword lexicon (.ofText text) = .ok ⟨.SELECT, span⟩ →
      Query.shape lexicon (.ofText text) =
        ((Query.shape lexicon (.ofText (Text.dropBytes span.start text))).map
          (QueryShape.shift span.start)).mapError (Located.shift span.start) := by
  refine ⟨fun _ => leadingKeyword_of_shape, fun span h => ?_⟩
  exact Except.eq_map_of_aligned (fun _ _ => QueryShape.eq_shift)
    (fun _ _ => Located.eq_shift fun _ _ => Eq.symm) (aligned_shape_of_leadingKeyword h)

/-- In front of the query are a directive and a placeholder that holds an opener and a quoted
brace. -/
theorem shape_eq_shape_behind_braces :
    let text : Text := "%\x7bif x\x7d $\x7ba #\x7b '\x7d' \x7d SELECT id FROM t".toList
    let query : Text := "SELECT id FROM t".toList
    let shape : QueryShape :=
      ⟨[⟨some ['t'], "id".toList, none, false, false, ⟨7, 9⟩⟩], [⟨['t'], none, false, ⟨15, 16⟩⟩]⟩
    leadingKeyword .sql (.ofText text) = .ok ⟨.SELECT, ⟨21, 27⟩⟩ ∧
      Query.shape .sql (.ofText query) = .ok shape ∧
      Query.shape .sql (.ofText text) = .ok (shape.shift 21) := by
  intro text query shape
  have hkeyword : leadingKeyword .sql (.ofText text) = .ok ⟨.SELECT, ⟨21, 27⟩⟩ := by
    decide +kernel
  have hquery : Query.shape .sql (.ofText query) = .ok shape := by decide +kernel
  have hdrop : Text.dropBytes 21 text = query := by decide
  refine ⟨hkeyword, hquery, ((shape_eq_shape_of_leadingKeyword .sql text).2 _ hkeyword).trans ?_⟩
  rw [hdrop, hquery]
  rfl

end Query

end QueryTemplate
