import QueryTemplate.Proofs.Query.Extension
import QueryTemplate.Proofs.Query.Layout

/-! # Changing what a group holds

Two query texts that differ in what one pair of parentheses holds only have the same tokens in front
of the group and behind it. In front of the group the places are the same, and behind it they are
moved.
-/

namespace QueryTemplate

/-- A group in a query text, with two texts that it may hold. -/
structure Regrouping where
  before : Text
  inner : Text
  inner' : Text
  behind : Text

def Query.ofText (t : Text) : Query := ⟨.ofText t, (Lexicon.sql.read (.ofText t)).fault⟩

namespace Regrouping

def write (R : Regrouping) (t : Text) : Text :=
  R.before ++ (Symbol.openParen.text ++ (t ++ (Symbol.closeParen.text ++ R.behind)))

def innerStart (R : Regrouping) : Nat := Text.size R.before + Text.size Symbol.openParen.text

def innerStop (R : Regrouping) (t : Text) : Nat := R.innerStart + Text.size t

def stop (R : Regrouping) (t : Text) : Nat := R.innerStop t + Text.size Symbol.closeParen.text

/-- The tokens in front of the group. -/
def lead (R : Regrouping) : List Token := (Lexicon.sql.read (.ofText R.before)).tokens

def opening (R : Regrouping) : Token :=
  ⟨.symbol .openParen, Symbol.openParen.text, ⟨Text.size R.before, R.innerStart⟩⟩

def closing (R : Regrouping) (t : Text) : Token :=
  ⟨.symbol .closeParen, Symbol.closeParen.text, ⟨R.innerStop t, R.stop t⟩⟩

def tail (R : Regrouping) (t : Text) : List Token :=
  (Lexicon.sql.read ⟨R.stop t, R.behind⟩).tokens

def group (R : Regrouping) (t : Text) : List Token :=
  R.opening :: ((Lexicon.sql.read ⟨R.innerStart, t⟩).tokens ++ R.closing t :: R.tail t)

/-- A group is well formed if both texts that it may hold have tokens whose parentheses pair. In
front of it are tokens among which the select list ends, by a `FROM` or a fault, and every brace is
closed. The last one is not a dot, behind which a token is passed over whatever it is. -/
structure IsWellFormed (R : Regrouping) : Prop where
  before : (Lexicon.sql.read (.ofText R.before)).fault = none
  select : ∀ e, ((Query.ofText R.before).skipAllBraces R.lead >>=
    (Query.ofText R.before).selectList) = .error e → ¬e.value.IsEnd
  braces : ∀ opening later, opening :: later <:+ R.lead → ∀ s, opening.kind = .symbol s →
    s.opensBrace → ∃ t ∈ later, t.isSymbol .closeBrace
  dot : ∀ last ∈ R.lead.getLast?, ¬last.isSymbol .dot
  inner : IsArgument R.inner
  inner' : IsArgument R.inner'

variable {R : Regrouping}

/-! ## Matching places -/

def beyond (R : Regrouping) : Alignment where
  Matches a a' := ∃ n, a = n + R.stop R.inner ∧ a' = n + R.stop R.inner'
  min := by
    rintro _ _ _ _ ⟨m, rfl, rfl⟩ ⟨n, rfl, rfl⟩
    exact ⟨min m n, by omega, by omega⟩
  max := by
    rintro _ _ _ _ ⟨m, rfl, rfl⟩ ⟨n, rfl, rfl⟩
    exact ⟨max m n, by omega, by omega⟩

theorem size_before_lt_stop (R : Regrouping) (t : Text) : Text.size R.before < R.stop t := by
  have hpos := Text.size_pos Symbol.closeParen.text_ne_nil
  rw [stop, innerStop, innerStart]
  omega

/-- The places in front of the group, each matched with itself, and those behind it. -/
def places (R : Regrouping) : Alignment where
  Matches a a' := (a' = a ∧ a ≤ Text.size R.before) ∨ R.beyond.Matches a a'
  min := by
    have hlt := R.size_before_lt_stop
    rintro a b a' b' (⟨rfl, ha⟩ | ⟨m, rfl, rfl⟩) (⟨rfl, hb⟩ | ⟨n, rfl, rfl⟩)
    · exact .inl (by omega)
    · exact .inl (by have := hlt R.inner; have := hlt R.inner'; omega)
    · exact .inl (by have := hlt R.inner; have := hlt R.inner'; omega)
    · exact .inr ⟨min m n, by omega, by omega⟩
  max := by
    have hlt := R.size_before_lt_stop
    rintro a b a' b' (⟨rfl, ha⟩ | ⟨m, rfl, rfl⟩) (⟨rfl, hb⟩ | ⟨n, rfl, rfl⟩)
    · exact .inl (by omega)
    · exact .inr ⟨n, by have := hlt R.inner; omega, by have := hlt R.inner'; omega⟩
    · exact .inr ⟨m, by have := hlt R.inner; omega, by have := hlt R.inner'; omega⟩
    · exact .inr ⟨max m n, by omega, by omega⟩

theorem beyond_le_places (R : Regrouping) : R.beyond ≤ R.places := fun _ _ h => .inr h

theorem upTo_le_places (R : Regrouping) : .upTo (Text.size R.before) ≤ R.places :=
  fun _ _ h => .inl h

/-- Whatever lies in front of the group is at the same place in both texts. -/
theorem aligned_of_stop_le {s : Span} (hstart : s.start ≤ s.stop)
    (hstop : s.stop ≤ Text.size R.before) : Aligned (.upTo (Text.size R.before)) s s :=
  ⟨⟨rfl, Nat.le_trans hstart hstop⟩, ⟨rfl, hstop⟩⟩

theorem slice_write {s : Span} (h : s.stop ≤ Text.size R.before) (t : Text) :
    Fragment.slice (.ofText (R.write t)) s = Fragment.slice (.ofText R.before) s :=
  Text.slice_append_of_le h _

theorem slice_write_behind (R : Regrouping) (t : Text) (a b : Nat) :
    Fragment.slice (.ofText (R.write t)) ⟨a + R.stop t, b + R.stop t⟩ =
      Text.slice R.behind ⟨a, b⟩ := by
  have htext : R.write t = (R.before ++ Symbol.openParen.text ++ t ++ Symbol.closeParen.text) ++
      R.behind := by simp [write]
  have hsize : R.stop t =
      Text.size (R.before ++ Symbol.openParen.text ++ t ++ Symbol.closeParen.text) := by
    simp only [stop, innerStop, innerStart, Text.size_append]
  rw [htext, hsize]
  exact Text.slice_append_shift _ R.behind ⟨a, b⟩

/-! ## Tokens -/

theorem span_of_mem_lead {t : Token} (ht : t ∈ R.lead) :
    t.span.start < t.span.stop ∧ t.span.stop ≤ Text.size R.before := by
  have hspan := Lexicon.span_of_mem_read ht
  rw [Fragment.stop, Fragment.ofText, Nat.zero_add] at hspan
  exact hspan.2

theorem aligned_of_mem_lead {t : Token} (ht : t ∈ R.lead) :
    Aligned (.upTo (Text.size R.before)) t t :=
  have hspan := span_of_mem_lead ht
  ⟨rfl, rfl, aligned_of_stop_le (Nat.le_of_lt hspan.1) hspan.2⟩

/-- A text with a group is read part by part. -/
theorem read_write (hbefore : (Lexicon.sql.read (.ofText R.before)).fault = none) {t : Text}
    (ht : IsArgument t) :
    Lexicon.sql.read (.ofText (R.write t)) =
      ⟨R.lead ++ R.group t, (Lexicon.sql.read ⟨R.stop t, R.behind⟩).fault⟩ := by
  obtain ⟨ts, hts, -⟩ := ht.exists_read R.innerStart
  have hstream : Lexicon.sql.read (.ofText R.before) = ⟨R.lead, none⟩ := by rw [← hbefore]; rfl
  have htokens : ts = (Lexicon.sql.read ⟨R.innerStart, t⟩).tokens := by rw [hts]
  have hstart : Fragment.stop (.ofText R.before) = Text.size R.before := Nat.zero_add _
  have hbehind : Lexicon.sql.read ⟨R.innerStart, t ++ (Symbol.closeParen.text ++ R.behind)⟩ =
      ⟨ts ++ R.closing t :: R.tail t, (Lexicon.sql.read ⟨R.stop t, R.behind⟩).fault⟩ := by
    refine (Lexicon.read_append hts fun u hu => ?_).trans ?_
    · exact Lexicon.ends_symbol _ _ (htokens ▸ List.mem_of_getLast? hu)
    · rw [Symbol.read_append]
      rfl
  refine (Lexicon.read_append hstream fun u hu => ?_).trans ?_
  · exact Lexicon.ends_symbol _ _ (List.mem_of_getLast? hu)
  · rw [hstart, Symbol.read_append, group, hts]
    change _ = TokenStream.mk (R.lead ++ R.opening :: (ts ++ R.closing t :: R.tail t)) _
    rw [← innerStart, hbehind]
    rfl

theorem aligned_behind (R : Regrouping) : Aligned R.beyond (⟨R.stop R.inner, R.behind⟩ : Fragment)
    ⟨R.stop R.inner', R.behind⟩ :=
  ⟨rfl, fun before _ _ _ => ⟨Text.size before, Nat.add_comm .., Nat.add_comm ..⟩⟩

theorem aligned_tail (R : Regrouping) : Aligned R.beyond (R.tail R.inner) (R.tail R.inner') :=
  (Lexicon.sql.aligned_read R.aligned_behind).tokens

/-- Whatever the group holds, it is passed over. -/
theorem closingParen?_group {t : Text} (ht : IsArgument t) (depth : Nat) :
    Query.closingParen? depth (R.group t) = Query.closingParen? depth (R.tail t) := by
  obtain ⟨ts, hts, hbalanced⟩ := ht.exists_read R.innerStart
  have hinner := Query.closingParen?_append hbalanced (depth + 1) (R.closing t :: R.tail t)
  rw [group, hts]
  exact hinner

/-- A group that has been entered is passed over. -/
theorem skipGroup_inner (q : Query) {t : Text} (ht : IsArgument t) :
    q.skipGroup ((Lexicon.sql.read ⟨R.innerStart, t⟩).tokens ++ R.closing t :: R.tail t) =
      .ok (R.tail t) := by
  obtain ⟨ts, hts, hbalanced⟩ := ht.exists_read R.innerStart
  rw [Query.skipGroup, hts, Query.closingParen?_append hbalanced]
  rfl

namespace IsWellFormed

variable (hR : R.IsWellFormed)
include hR

/-- What is read behind the group is matched. -/
theorem aligned_query :
    Aligned R.beyond (Query.ofText (R.write R.inner)) (Query.ofText (R.write R.inner')) where
  stop := by
    refine ⟨Text.size R.behind, ?_, ?_⟩
    · simp only [Query.ofText, Fragment.stop, Fragment.ofText, write, stop, innerStop, innerStart,
        Text.size_append]
      omega
    · simp only [Query.ofText, Fragment.stop, Fragment.ofText, write, stop, innerStop, innerStart,
        Text.size_append]
      omega
  slice := by
    rintro ⟨_, _⟩ ⟨_, _⟩ ⟨⟨m, rfl, rfl⟩, ⟨n, rfl, rfl⟩⟩
    exact (R.slice_write_behind R.inner m n).trans (R.slice_write_behind R.inner' m n).symm
  fault := by
    rw [Query.ofText, Query.ofText, read_write hR.before hR.inner, read_write hR.before hR.inner']
    exact (Lexicon.sql.aligned_read R.aligned_behind).fault

/-- What is read in front of the group is at the same place in both texts. -/
theorem aligned_selected :
    Aligned (.upTo (Text.size R.before))
      ((Query.ofText R.before).skipAllBraces R.lead >>= (Query.ofText R.before).selectList)
      ((Query.ofText R.before).skipAllBraces R.lead >>= (Query.ofText R.before).selectList) := by
  have hstop : (Query.ofText R.before).source.stop = Text.size R.before := Nat.zero_add _
  have hq : Aligned (.upTo (Text.size R.before)) (Query.ofText R.before)
      (Query.ofText R.before) := by
    refine ⟨⟨rfl, Nat.le_of_eq hstop⟩, ?_, ?_⟩
    · rintro ⟨_, _⟩ ⟨_, _⟩ ⟨⟨rfl, -⟩, ⟨rfl, -⟩⟩
      rfl
    · rw [Query.ofText, hR.before]
      exact .none
  have hlead : Aligned (.upTo (Text.size R.before)) R.lead R.lead :=
    List.forall₂_same.2 fun _ => aligned_of_mem_lead
  exact aligned_bind (Query.aligned_skipBraces hq hlead _ _) fun _ _ h =>
    Query.aligned_selectList hq h

/-- The select list ends in front of the group, whatever the group holds. -/
theorem selected_write (t : Text) :
    ((Query.ofText (R.write t)).skipAllBraces (R.lead ++ R.group t) >>=
      (Query.ofText (R.write t)).selectList) =
    ((Query.ofText R.before).skipAllBraces R.lead >>= (Query.ofText R.before).selectList).map
      fun x => (x.1, x.2 ++ R.group t) := by
  have hstop : (Query.ofText R.before).source.stop = Text.size R.before := Nat.zero_add _
  have hbegins : (Query.ofText R.before).Begins (Query.ofText (R.write t)) R.lead := by
    refine ⟨hR.before, fun s hs => slice_write (hstop ▸ hs) t, fun u hu => ?_⟩
    rw [hstop]
    exact (span_of_mem_lead hu).2
  rcases Query.extends_selected hbegins (R.group t) with hout | heq
  · cases hselected : (Query.ofText R.before).skipAllBraces R.lead >>=
        (Query.ofText R.before).selectList with
    | error e =>
      rw [hselected] at hout
      exact absurd hout (hR.select e hselected)
    | ok x =>
      rcases Query.exists_of_selected (Query.holds_read (.ofText R.before)) hselected with
        ⟨keyword, later, hclauses, -⟩
      rw [hselected] at hout
      cases hclauses.symm.trans hout
  · exact heq

end IsWellFormed

end Regrouping

end QueryTemplate
