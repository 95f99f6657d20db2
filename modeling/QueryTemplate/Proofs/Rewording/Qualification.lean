import QueryTemplate.Proofs.Rewording.Reading
import QueryTemplate.Proofs.Rewording.Shape

/-! # Keywords behind a dot

Behind the dot of a qualifier any word is a name, whatever it spells. A keyword there is taken for
something else in three places only. In the rest of an item, behind its field and alias, `FROM` ends
the select list. A call that passes over the qualifier, as it does if that is quoted, looks at the
word as if no dot were in front of it. And behind a second dot the scan for tables takes `FROM` and
`JOIN` for the keywords that tables stand behind.
-/

namespace QueryTemplate

namespace Rewording

/-- A word in a query text, with a keyword in its place. -/
def respell (before word : Text) (k : Keyword) (word' behind : Text) : Rewording :=
  ⟨before, Lexicon.sql.wordKind word, word, .keyword k, word', behind⟩

/-- The word stands behind a dot, neither in a placeholder that names a field nor in the name of a
table, and no call takes it for the first word of its column. -/
structure IsBehindDot (R : Rewording) (s : QueryShape) : Prop where
  dot : R.IsDotted
  field : R.IsBraced → ∀ f ∈ s.fields, f.isVerbatim → ¬R.Holds f.span
  table : ∀ t ∈ s.tables, ¬R.Holds t.span
  reference : ∀ f ∈ s.fields, ¬R.Refers f

/-- The fields are the same, but for their places and the name of one that the word names. An alias
that repeats the old name counts as none, and shows up with the new one. -/
structure Respells (R : Rewording) (f f' : QueryField) : Prop where
  table : f.table = f'.table
  name : (R.Names f ∧ f.name = R.word ∧ f'.name = R.word') ∨ (¬R.Names f ∧ f.name = f'.name)
  aliasName : f.aliasName = f'.aliasName ∨
    (R.Names f ∧ f.aliasName = none ∧ f'.aliasName = some R.word)
  isAggregate : f.isAggregate = f'.isAggregate
  isVerbatim : f.isVerbatim = f'.isVerbatim
  span : Aligned R.places f.span f'.span

theorem label_old_respell (before word : Text) (k : Keyword) (word' behind : Text) :
    (respell before word k word' behind).old.label = word := label_old rfl

theorem label_new_respell (before word : Text) (k : Keyword) (word' behind : Text) :
    (respell before word k word' behind).new.label = word' := rfl

theorem not_keepsName_respell (before word : Text) (k : Keyword) (word' behind : Text) :
    ¬(respell before word k word' behind).KeepsName := by
  rintro ⟨⟨quote, hquote⟩, -⟩
  cases hquote

theorem isFit_respell {before word : Text} {k : Keyword} {word' behind : Text}
    (hR : (respell before word k word' behind).IsWritten) (hk : k.isSpelledBy word')
    (hdot : (respell before word k word' behind).IsDotted)
    (hplace : (respell before word k word' behind).EludesScan ∨
      Query.isQualified (respell before word k word' behind).lead) :
    (respell before word k word' behind).IsFit := by
  have hnew : Lexicon.sql.read ⟨(respell before word k word' behind).start, word'⟩ =
      ⟨[(respell before word k word' behind).new], none⟩ := by
    have hread := (Keyword.isWord_of_isSpelledBy hk).read
      (respell before word k word' behind).start
    rwa [Lexicon.wordKind, Keyword.keyword?_of_isSpelledBy hk] at hread
  refine ⟨hR.isRead hnew ?_ hR.ends, Lexicon.sql.wordKind_cases word, .inr ⟨k, rfl⟩,
    (absurd hdot ·), hplace⟩
  rintro last hlast -
  obtain ⟨dot, hdot, hsymbol⟩ := hdot
  obtain rfl : dot = last := Option.some.inj (hdot.symm.trans hlast)
  rw [show dot.kind = .symbol .dot from eq_of_beq hsymbol]
  trivial

theorem Renames.respells {before word : Text} {k : Keyword} {word' behind : Text}
    {f f' : QueryField} (h : (respell before word k word' behind).Renames f f')
    (halias : f.aliasName ≠ some word') : (respell before word k word' behind).Respells f f' := by
  have hname := h.name
  rw [label_old_respell, label_new_respell] at hname
  refine ⟨h.table, hname, ?_, h.isAggregate, h.isVerbatim, h.span⟩
  obtain ⟨written, hwritten, hwritten'⟩ := h.aliasName
  rcases hname with ⟨hnames, hold, hnew⟩ | ⟨-, hname⟩
  · rw [hold] at hwritten
    rw [hnew] at hwritten'
    rcases written with _ | w
    · exact .inl (hwritten.trans hwritten'.symm)
    · have hfilter (own : Text) : (some w).filter (· ≠ own) = if w = own then none else some w := by
        simp [Option.filter, ite_not]
      rw [hfilter] at hwritten hwritten'
      by_cases hown : w = word
      · rw [if_pos hown] at hwritten
        by_cases hown' : w = word'
        · exact .inl (by rw [hwritten, hwritten', if_pos hown'])
        · exact .inr ⟨hnames, hwritten, by rw [hwritten', if_neg hown', hown]; rfl⟩
      · rw [if_neg hown] at hwritten
        have hown' : w ≠ word' := fun heq => halias (heq ▸ hwritten)
        exact .inl (by rw [hwritten, hwritten', if_neg hown'])
  · exact .inl (by rw [hwritten, hwritten', hname])

/-- **Behind a dot a keyword is a name.** -/
theorem respells_shape (before word : Text) {k : Keyword} {word' : Text} (hk : k.isSpelledBy word')
    (behind : Text) (hR : (respell before word k word' behind).IsWritten) {s : QueryShape}
    (h : Query.shape .sql (.ofText (before ++ (word ++ behind))) = .ok s)
    (hs : (respell before word k word' behind).IsBehindDot s)
    (hplace : (respell before word k word' behind).EludesScan ∨
      Query.isQualified (respell before word k word' behind).lead)
    (halias : ∀ f ∈ s.fields, f.aliasName ≠ some word') :
    (∃ s', Query.shape .sql (.ofText (before ++ (word' ++ behind))) = .ok s' ∧
      List.Forall₂ (respell before word k word' behind).Respells s.fields s'.fields ∧
      Aligned (respell before word k word' behind).places s.tables s'.tables) ∨
    (respell before word k word' behind).EndsList s := by
  have hname := not_keepsName_respell before word k word' behind
  have hsuits : (respell before word k word' behind).Suits s :=
    ⟨fun f hf => ⟨fun hverbatim hholds => ⟨hs.dot, fun hbraced =>
        hs.field hbraced f hf hverbatim hholds⟩, (absurd · hname), hs.reference f hf⟩,
      fun t ht hdisturbs => hs.table t ht hdisturbs.1, (absurd · hname), .inl (.inr hs.dot)⟩
  refine (exists_shape (isFit_respell hR hk hs.dot hplace) h hsuits).imp ?_ id
  rintro ⟨s', hs', hrewrites⟩
  refine ⟨s', hs', ?_, hrewrites.tables⟩
  exact ((List.forall₂_and_left _ _).2 ⟨halias, hrewrites.fields⟩).imp
    fun _ _ hf => hf.2.respells hf.1

theorem respells_shape_from :
    let R := respell "SELECT LOWER(t.".toList "name".toList .FROM "From".toList
      ") name, id FROM users t".toList
    let s : QueryShape :=
      ⟨[⟨some "users".toList, "name".toList, none, false, false, ⟨7, 20⟩⟩,
          ⟨some "users".toList, "id".toList, none, false, false, ⟨27, 29⟩⟩],
        [⟨"users".toList, some ['t'], false, ⟨35, 40⟩⟩]⟩
    let s' : QueryShape :=
      ⟨[⟨some "users".toList, "From".toList, some "name".toList, false, false, ⟨7, 20⟩⟩,
          ⟨some "users".toList, "id".toList, none, false, false, ⟨27, 29⟩⟩],
        [⟨"users".toList, some ['t'], false, ⟨35, 40⟩⟩]⟩
    R.IsWritten ∧ Query.shape .sql (.ofText (R.write R.word)) = .ok s ∧ R.IsBehindDot s ∧
      Query.shape .sql (.ofText (R.write R.word')) = .ok s' ∧
      List.Forall₂ R.Respells s.fields s'.fields ∧ Aligned R.places s.tables s'.tables := by
  intro R s s'
  have hR : R.IsWritten := ⟨rfl, by decide +kernel⟩
  have hs : Query.shape .sql (.ofText (R.write R.word)) = .ok s := by decide +kernel
  have hs' : Query.shape .sql (.ofText (R.write R.word')) = .ok s' := by decide +kernel
  have hdot : R.IsBehindDot s :=
    { dot := by decide +kernel
      field := fun _ => by decide +kernel
      table := by decide +kernel
      reference := by decide +kernel }
  rcases respells_shape "SELECT LOWER(t.".toList "name".toList (by decide)
    ") name, id FROM users t".toList hR hs hdot (.inr (by decide +kernel)) (by decide +kernel) with
    ⟨s'', hs'', hfields, htables⟩ | hends
  · obtain rfl : s' = s'' := Except.ok.inj (hs'.symm.trans hs'')
    exact ⟨hR, hs, hdot, hs', hfields, htables⟩
  · exact absurd (by decide +kernel) (hends.fields _ (List.mem_cons_self ..))

end Rewording

end QueryTemplate
