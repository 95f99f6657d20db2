import QueryTemplate.Method.Json
import QueryTemplate.Proofs.Json.Record

/-! # Methods that are read back

The JSON text of a method holds all of it: read back, it gives the method again, and so does the
text of each of its parts. An offset is read as a number of 64 bits, and what is kept for later
reading must not lie deeper than its limit, which the parts of a method are far from.
-/

namespace QueryTemplate

open JsonValue JsonRecord

/-- Whether values are read back from what is written of them, be it without white space or on
several lines. Then different values are written differently. -/
structure IsLossless {α : Type} (write : α → JsonValue) (read : JsonValue → Option α)
    (P : α → Prop) : Prop where
  compact : ∀ x, P x → (parse? (write x).compact).bind read = some x
  pretty : ∀ x, P x → (parse? ((write x).pretty 0)).bind read = some x
  eq_of_compact : ∀ x y, P x → P y → (write x).compact = (write y).compact → x = y
  eq_of_pretty : ∀ x y, P x → P y → (write x).pretty 0 = (write y).pretty 0 → x = y

theorem isLossless_of_read {α : Type} {write : α → JsonValue} {read : JsonValue → Option α}
    {P : α → Prop} (h : ∀ x, P x → read (write x) = some x) : IsLossless write read P where
  compact x hx := by rw [parse?_compact, Option.bind_some, h x hx]
  pretty x hx := by rw [parse?_pretty, Option.bind_some, h x hx]
  eq_of_compact x y hx hy heq := by
    have hvalue : write x = write y := by
      rw [← Option.some_inj, ← parse?_compact, heq, parse?_compact]
    rw [← Option.some_inj, ← h x hx, hvalue, h y hy]
  eq_of_pretty x y hx hy heq := by
    have hvalue : write x = write y := by
      rw [← Option.some_inj, ← parse?_pretty 0, heq, parse?_pretty]
    rw [← Option.some_inj, ← h x hx, hvalue, h y hy]

/-! ## Spans and queries -/

/-- Whether the offsets are numbers of 64 bits. -/
def Span.InWord (s : Span) : Prop := s.start < UInt64.size ∧ s.stop < UInt64.size

theorem Span.ofJson?_toJson {s : Span} (h : s.InWord) : ofJson? s.toJson = some s := by
  rw [ofJson?, toJson, ofValue?_bind (by decide) (by rfl), get?_ofPairs rfl, get?_ofPairs rfl,
    nat?_ofNat h.1, nat?_ofNat h.2]
  rfl

theorem QueryField.ofJson?_toJson {f : QueryField} (h : f.span.InWord) :
    ofJson? f.toJson = some f := by
  rw [ofJson?, toJson, ofValue?_bind (by decide) (by rfl), getOption?_text rfl, get?_ofPairs rfl,
    getOption?_text rfl, get?_ofPairs rfl, getD?_ofPairs rfl, get?_ofPairs rfl,
    Span.ofJson?_toJson h]
  rfl

theorem QueryTable.ofJson?_toJson {t : QueryTable} (h : t.span.InWord) :
    ofJson? t.toJson = some t := by
  rw [ofJson?, toJson, ofValue?_bind (by decide) (by rfl), get?_ofPairs rfl, getOption?_text rfl,
    getD?_ofPairs rfl, get?_ofPairs rfl, Span.ofJson?_toJson h]
  rfl

structure QueryShape.InWord (s : QueryShape) : Prop where
  fields : ∀ f ∈ s.fields, f.span.InWord
  tables : ∀ t ∈ s.tables, t.span.InWord

theorem QueryShape.ofJson?_toJson {s : QueryShape} (h : s.InWord) :
    ofJson? s.toJson = some s := by
  rw [ofJson?, toJson, ofValue?_bind (by decide) (by rfl), get?_ofPairs rfl, get?_ofPairs rfl,
    list?_ofList fun f hf => QueryField.ofJson?_toJson (h.fields f hf),
    list?_ofList fun t ht => QueryTable.ofJson?_toJson (h.tables t ht)]
  rfl

/-! ## Statements and segments -/

theorem Statement.ofJson?_toJson (s : Statement) : ofJson? s.toJson = some s := by
  rw [ofJson?, toJson, ofValue?_bind (by decide) (by rfl), get?_ofPairs rfl, get?_ofPairs rfl,
    get?_ofPairs rfl, text?_ofText, list?_text?_ofList, list?_text?_ofList]
  rfl

/-- A text, or a list of texts, is a value that can be kept if it is not at the limit. -/
theorem Statement.isKeepable_of_mem_jsonMembers {outer : Nat} (h : outer < depthLimit)
    {s : Statement} {member : String × JsonValue} (hmember : member ∈ s.jsonMembers) :
    member.2.isKeepable outer = true := by
  have htexts (ts : List Text) : (ofList ofText ts).isKeepable outer = true :=
    isKeepable_ofList h fun t _ => isKeepable_ofText h t
  simp only [jsonMembers, List.mem_cons, List.not_mem_nil, or_false] at hmember
  rcases hmember with rfl | rfl | rfl
  · exact isKeepable_ofText (Nat.le_of_lt h) s.text
  · exact htexts s.bindParams
  · exact htexts s.substituteParams

theorem Statement.isKeepable_toJson {outer : Nat} (h : outer + 1 < depthLimit) (s : Statement) :
    s.toJson.isKeepable outer = true :=
  isKeepable_ofPairs (by omega) fun _ => isKeepable_of_mem_jsonMembers h

theorem Segment.ofJson?_toJson {outer : Nat} (h : outer + 2 < depthLimit) (isKept : Bool)
    (s : Segment) : ofJson? isKept outer s.toJson = some s := by
  have htext (t : Text) : (ofText t).isKeepable (outer + 1) = true :=
    isKeepable_ofText (by omega) t
  have hbody (body : Statement) : body.toJson.isKeepable (outer + 1) = true :=
    Statement.isKeepable_toJson (by omega) body
  cases s with
  | constant body =>
    rw [toJson]
    -- Only that the name is this text counts below, not the letters it is made of.
    generalize hname : "constant".toList = name
    rw [ofJson?, JsonVariant.ofInline?_ofPairs (by simp [Statement.jsonMembers])
      fun _ => Statement.isKeepable_of_mem_jsonMembers (by omega), if_pos hname.symm,
      JsonVariant.get?_content, ← Statement.toJson, Statement.ofJson?_toJson]
    rfl
  | conditional condition body =>
    have hfields : ∀ field ∈ [("condition", ofText condition), ("body", body.toJson)],
        field.2.isKeepable (outer + 1) = true := by
      simp [htext, hbody]
    rw [toJson]
    generalize hname : "if".toList = name
    have hconstant : name ≠ "constant".toList := by rw [← hname]; decide
    rw [ofJson?, JsonVariant.ofInline?_ofPairs (by simp) hfields, if_neg hconstant,
      if_pos hname.symm, JsonVariant.get?_content, ofValue?_bind (by decide) (by rfl),
      get?_ofPairs rfl, get?_ofPairs rfl, text?_ofText, Statement.ofJson?_toJson]
    rfl
  | loop element collection separator body =>
    have hseparator : (ofOption ofText separator).isKeepable (outer + 1) = true :=
      isKeepable_ofOption (by omega) fun t _ => htext t
    have hfields : ∀ field ∈ [("element", ofText element), ("collection", ofText collection),
        ("join_separator", ofOption ofText separator), ("body", body.toJson)],
        field.2.isKeepable (outer + 1) = true := by
      simp [htext, hbody, hseparator]
    rw [toJson]
    generalize hname : "for".toList = name
    have hconstant : name ≠ "constant".toList := by rw [← hname]; decide
    have hif : name ≠ "if".toList := by rw [← hname]; decide
    rw [ofJson?, JsonVariant.ofInline?_ofPairs (by simp) hfields, if_neg hconstant,
      if_neg hif, if_pos hname.symm, JsonVariant.get?_content,
      ofValue?_bind (by decide) (by rfl), get?_ofPairs rfl, get?_ofPairs rfl,
      getOption?_text rfl, get?_ofPairs rfl, text?_ofText, text?_ofText,
      Statement.ofJson?_toJson]
    rfl

theorem MethodBody.ofJson?_toJson {outer : Nat} (h : outer + 4 < depthLimit) (b : MethodBody) :
    ofJson? outer b.toJson = some b := by
  cases b with
  | static statement =>
    rw [toJson]
    generalize hname : "static".toList = name
    rw [ofJson?, JsonVariant.ofValue?_content (by decide), if_pos hname.symm,
      JsonVariant.get?_content, Statement.ofJson?_toJson]
    rfl
  | dynamic segments =>
    rw [toJson]
    generalize hname : "dynamic".toList = name
    have hstatic : name ≠ "static".toList := by rw [← hname]; decide
    rw [ofJson?, JsonVariant.ofValue?_content (by decide), if_neg hstatic, if_pos hname.symm,
      JsonVariant.get?_content, list?_ofList fun s _ => Segment.ofJson?_toJson (by omega) false s]
    rfl

/-! ## Kinds and types -/

theorem ExecKind.ofJson?_toJson (isKept : Bool) (e : ExecKind) :
    ofJson? isKept e.toJson = some e := by
  have hfind : [lastId, affect, result].find? (·.jsonName == e.jsonName) = some e := by
    cases e <;> decide
  exact hfind

theorem StatementKind.ofJson?_toJson (outer : Nat) (k : StatementKind) :
    ofJson? outer k.toJson = some k := by
  cases k with
  | singleRow =>
    rw [toJson]
    generalize hname : "single_row".toList = name
    rw [ofJson?, JsonVariant.ofValue?_name (by decide), if_pos hname.symm]
    rfl
  | multiRow =>
    rw [toJson]
    generalize hname : "multi_row".toList = name
    have hsingle : name ≠ "single_row".toList := by rw [← hname]; decide
    rw [ofJson?, JsonVariant.ofValue?_name (by decide), if_neg hsingle, if_pos hname.symm]
    rfl
  | mutation exec =>
    rw [toJson]
    generalize hname : "mutation".toList = name
    have hsingle : name ≠ "single_row".toList := by rw [← hname]; decide
    have hmulti : name ≠ "multi_row".toList := by rw [← hname]; decide
    rw [ofJson?, JsonVariant.ofValue?_content (by decide), if_neg hsingle, if_neg hmulti,
      if_pos hname.symm, JsonVariant.get?_content, ExecKind.ofJson?_toJson]
    rfl

theorem ElementType.ofJson?_toJson (outer : Nat) (e : ElementType) :
    ofJson? outer e.toJson = some e := by
  cases e with
  | int64 =>
    rw [toJson]
    generalize hname : "int64".toList = name
    rw [ofJson?, JsonVariant.ofValue?_name (by decide), if_pos hname.symm]
    rfl
  | execResult =>
    rw [toJson]
    generalize hname : "exec_result".toList = name
    have hint : name ≠ "int64".toList := by rw [← hname]; decide
    rw [ofJson?, JsonVariant.ofValue?_name (by decide), if_neg hint, if_pos hname.symm]
    rfl
  | named type =>
    rw [toJson]
    generalize hname : "named".toList = name
    have hint : name ≠ "int64".toList := by rw [← hname]; decide
    have hexec : name ≠ "exec_result".toList := by rw [← hname]; decide
    rw [ofJson?, JsonVariant.ofValue?_content (by decide), if_neg hint, if_neg hexec,
      if_pos hname.symm, JsonVariant.get?_content, text?_ofText]
    rfl

theorem ReturnType.ofJson?_toJson (outer : Nat) (r : ReturnType) :
    ofJson? outer r.toJson = some r := by
  rw [ofJson?, toJson, ofValue?_bind (by decide) (by rfl), get?_ofPairs rfl, get?_ofPairs rfl,
    ElementType.ofJson?_toJson, bool?_bool]
  rfl

/-! ## Result records and methods -/

theorem ResultColumn.ofJson?_toJson (c : ResultColumn) : ofJson? c.toJson = some c := by
  rw [ofJson?, toJson, ofValue?_bind (by decide) (by rfl), get?_ofPairs rfl, get?_ofPairs rfl,
    get?_ofPairs rfl, get?_ofPairs rfl]
  rfl

theorem ResultRecord.ofJson?_toJson (r : ResultRecord) : ofJson? r.toJson = some r := by
  rw [ofJson?, toJson, ofValue?_bind (by decide) (by rfl), get?_ofPairs rfl, get?_ofPairs rfl,
    text?_ofText, list?_ofList fun c _ => ResultColumn.ofJson?_toJson c]
  rfl

structure Method.InWord (m : Method) : Prop where
  span : m.span.InWord
  fields : ∀ f ∈ m.fields, f.span.InWord
  tables : ∀ t ∈ m.tables, t.span.InWord

theorem Method.ofJson?_toJson {m : Method} (h : m.InWord) : ofJson? m.toJson = some m := by
  have hreturns : ∀ r ∈ m.returns, r.toJson ≠ .null ∧ ReturnType.ofJson? 1 r.toJson = some r :=
    fun r _ => ⟨nofun, ReturnType.ofJson?_toJson 1 r⟩
  have hrecord : ∀ r ∈ m.resultRecord, r.toJson ≠ .null ∧ ResultRecord.ofJson? r.toJson = some r :=
    fun r _ => ⟨nofun, ResultRecord.ofJson?_toJson r⟩
  rw [ofJson?, toJson, ofValue?_bind (by decide) (by rfl)]
  rw [getOption?_text rfl, get?_ofPairs rfl, get?_ofPairs rfl, get?_ofPairs rfl,
    get?_ofPairs rfl, get?_ofPairs rfl, get?_ofPairs rfl, getOption?_text rfl,
    getOption?_ofPairs rfl hreturns, getOption?_ofPairs rfl hrecord, get?_ofPairs rfl,
    StatementKind.ofJson?_toJson, MethodBody.ofJson?_toJson (by decide),
    list?_ofList fun f hf => QueryField.ofJson?_toJson (h.fields f hf),
    list?_ofList fun t ht => QueryTable.ofJson?_toJson (h.tables t ht),
    Span.ofJson?_toJson h.span]
  rfl

/-- **The JSON form of what is compiled loses nothing.** Every method whose offsets are numbers of
64 bits is read back from its text, and so are statements, segments, bodies, shapes of queries,
kinds of statements, return types and result records by themselves. Hence two of a kind never have
the same text. -/
theorem Method.isLossless_json :
    IsLossless Method.toJson Method.ofJson? Method.InWord ∧
      IsLossless Statement.toJson Statement.ofJson? (fun _ => True) ∧
      IsLossless Segment.toJson (Segment.ofJson? false 0) (fun _ => True) ∧
      IsLossless MethodBody.toJson (MethodBody.ofJson? 0) (fun _ => True) ∧
      IsLossless QueryShape.toJson QueryShape.ofJson? QueryShape.InWord ∧
      IsLossless StatementKind.toJson (StatementKind.ofJson? 0) (fun _ => True) ∧
      IsLossless ReturnType.toJson (ReturnType.ofJson? 0) (fun _ => True) ∧
      IsLossless ResultRecord.toJson ResultRecord.ofJson? (fun _ => True) := by
  refine ⟨?_, ?_, ?_, ?_, ?_, ?_, ?_, ?_⟩ <;> refine isLossless_of_read fun x hx => ?_
  · exact Method.ofJson?_toJson hx
  · exact Statement.ofJson?_toJson x
  · exact Segment.ofJson?_toJson (by decide) false x
  · exact MethodBody.ofJson?_toJson (by decide) x
  · exact QueryShape.ofJson?_toJson hx
  · exact StatementKind.ofJson?_toJson 0 x
  · exact ReturnType.ofJson?_toJson 0 x
  · exact ResultRecord.ofJson?_toJson x

/-- A method whose body has every kind of segment, and quotes, line breaks and control characters
in its texts. -/
theorem Method.isLossless_json_segments :
    let body : Statement := ⟨"a \\ \"b\" \n ?".toList, [['p'], []], []⟩
    let m : Method := {
      name := ⟨some "Users".toList, "énd\x00".toList⟩
      isMutation := false
      kind := .multiRow
      body := .dynamic [.constant body, .conditional ['c'] body, .loop ['e'] ['f'] none body,
        .loop ['e'] ['f'] (some [',']) body]
      fields := [⟨none, ['*'], some ['x'], false, true, ⟨0, 1⟩⟩]
      tables := [⟨['t'], none, false, ⟨8, 9⟩⟩]
      execTag := none
      returns := some ⟨.named ['U'], true⟩
      resultRecord := some ⟨['U'], [⟨['x'], ['T'], [], "t.x".toList⟩]⟩
      span := ⟨0, UInt64.size - 1⟩ }
    m.InWord ∧ (parse? m.toJson.compact).bind Method.ofJson? = some m ∧
      (parse? (m.toJson.pretty 0)).bind Method.ofJson? = some m := by
  intro body m
  have hword : m.InWord := by
    refine ⟨⟨by decide, by decide⟩, ?_, ?_⟩ <;> intro x hx <;>
      rw [List.mem_singleton.1 hx] <;> exact ⟨by decide, by decide⟩
  have hmethods := Method.isLossless_json.1
  exact ⟨hword, hmethods.compact m hword, hmethods.pretty m hword⟩

end QueryTemplate
