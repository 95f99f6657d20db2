import QueryTemplate.Proofs.Alignment.Token
import QueryTemplate.Token.Cursor

/-! # Cursors and token lists

A cursor reads its tokens only when they are asked for, and remembers a fault once it has met it.
None of that shows: asked for anything in any order, it replies like an index into the list of all
tokens of the text.
-/

namespace QueryTemplate

inductive CursorRequest where
  | next
  | peek (k : Nat)
  | previous (k : Nat)
  | reset
  | atEnd
  | atKeyword (k : Keyword)
  | eatKeyword (k : Keyword)
  | atSymbol (s : Symbol)
  | eatSymbol (s : Symbol)
deriving DecidableEq, Repr

inductive CursorReply where
  | found (token : Option Token)
  | answer (b : Bool)
  | fault (fault : LexicalFault)
  | done
deriving DecidableEq, Repr

/-- The reply that an outcome amounts to. -/
def CursorReply.ofOutcome {α : Type} (reply : α → CursorReply) : Except LexicalFault α → CursorReply
  | .ok x => reply x
  | .error e => .fault e

namespace Cursor

def serve (cursor : Cursor) : CursorRequest → CursorReply × Cursor
  | .next => (next cursor).map (.ofOutcome .found) id
  | .peek k => (peek k cursor).map (.ofOutcome .found) id
  | .previous k => (.found (cursor.previous k), cursor)
  | .reset => (.done, cursor.reset)
  | .atEnd => (atEnd cursor).map (.ofOutcome .answer) id
  | .atKeyword k => (isAt (·.isKeyword k) cursor).map (.ofOutcome .answer) id
  | .eatKeyword k => (eat (·.isKeyword k) cursor).map (.ofOutcome .answer) id
  | .atSymbol s => (isAt (·.isSymbol s) cursor).map (.ofOutcome .answer) id
  | .eatSymbol s => (eat (·.isSymbol s) cursor).map (.ofOutcome .answer) id

/-- The replies to a sequence of requests, each with the position behind it. -/
def run (cursor : Cursor) : List CursorRequest → List (CursorReply × Nat)
  | [] => []
  | request :: later =>
    let served := cursor.serve request
    (served.1, served.2.position) :: run served.2 later

end Cursor

namespace TokenStream

/-- What an index into the tokens shows: a token, or behind the last one the fault, if there is
one. -/
def look (stream : TokenStream) (j : Nat) : Except LexicalFault (Option Token) :=
  match stream.tokens[j]?, stream.fault with
  | some t, _ => .ok (some t)
  | none, some fault => .error fault
  | none, none => .ok none

def isAt (stream : TokenStream) (p : Token → Bool) (i : Nat) : CursorReply :=
  .ofOutcome .answer ((stream.look i).map (·.any p))

/-- The index behind a token at `i` that satisfies `p`, or else `i` itself. -/
def behind (stream : TokenStream) (p : Token → Bool) (i : Nat) : Nat :=
  match stream.look i with
  | .ok (some t) => if p t then i + 1 else i
  | .ok none | .error _ => i

def serve (stream : TokenStream) (i : Nat) : CursorRequest → CursorReply × Nat
  | .next => (.ofOutcome .found (stream.look i), stream.behind (fun _ => true) i)
  | .peek k => (.ofOutcome .found (stream.look (i + k)), i)
  | .previous k => (.found (if 1 ≤ k ∧ k ≤ i then stream.tokens[i - k]? else none), i)
  | .reset => (.done, 0)
  | .atEnd => (.ofOutcome .answer ((stream.look i).map Option.isNone), i)
  | .atKeyword k => (stream.isAt (·.kind = .keyword k) i, i)
  | .eatKeyword k => (stream.isAt (·.kind = .keyword k) i, stream.behind (·.kind = .keyword k) i)
  | .atSymbol s => (stream.isAt (·.kind = .symbol s) i, i)
  | .eatSymbol s => (stream.isAt (·.kind = .symbol s) i, stream.behind (·.kind = .symbol s) i)

/-- The replies to a sequence of requests from an index on, each with the index behind it. -/
def run (stream : TokenStream) (i : Nat) : List CursorRequest → List (CursorReply × Nat)
  | [] => []
  | request :: later =>
    let served := stream.serve i request
    served :: run stream served.2 later

end TokenStream

namespace Cursor

/-- The cursor has read the first tokens of a stream and can still read the others. -/
structure Buffers (cursor : Cursor) (stream : TokenStream) : Prop where
  position : cursor.position ≤ cursor.buffer.length
  unread : cursor.fault = none → stream =
    ⟨cursor.buffer ++ (cursor.lexicon.read cursor.unread).tokens,
      (cursor.lexicon.read cursor.unread).fault⟩
  ended : ∀ fault, cursor.fault = some fault → stream = ⟨cursor.buffer, some fault⟩

/-- The outcome of reading `n` tokens behind the first `read` ones of a stream, and all tokens
read then. -/
inductive Pulled (stream : TokenStream) (read n : Nat) :
    Except LexicalFault Unit → List Token → Prop where
  | enough {buffer : List Token} : read + n ≤ buffer.length → Pulled stream read n (.ok ()) buffer
  | all {buffer : List Token} : stream = ⟨buffer, none⟩ → Pulled stream read n (.ok ()) buffer
  | fault {buffer : List Token} {e : LexicalFault} : stream = ⟨buffer, some e⟩ → 0 < n →
    buffer.length < read + n → Pulled stream read n (.error e) buffer

variable {cursor : Cursor} {stream : TokenStream}

theorem Pulled.later {read n : Nat} {outcome : Except LexicalFault Unit} {buffer : List Token}
    (h : Pulled stream (read + 1) n outcome buffer) :
    Pulled stream read (n + 1) outcome buffer := by
  cases h with
  | enough hlength => exact .enough (by omega)
  | all hstream => exact .all hstream
  | fault hstream _ hlength => exact .fault hstream n.succ_pos (by omega)

theorem buffers_start (lexicon : Lexicon) (text : Text) :
    (start lexicon text).Buffers (lexicon.read (.ofText text)) :=
  ⟨Nat.le_refl _, fun _ => rfl, fun _ h => nomatch h⟩

namespace Buffers

theorem isPrefix (h : cursor.Buffers stream) : cursor.buffer <+: stream.tokens := by
  cases hfault : cursor.fault with
  | none => exact h.unread hfault ▸ List.prefix_append ..
  | some fault => exact h.ended fault hfault ▸ List.prefix_rfl

theorem getElem? (h : cursor.Buffers stream) {j : Nat} (hj : j < cursor.buffer.length) :
    cursor.buffer[j]? = stream.tokens[j]? := by
  obtain ⟨later, hlater⟩ := h.isPrefix
  rw [← hlater, List.getElem?_append_left hj]

theorem pull (h : cursor.Buffers stream) (n : Nat) :
    (cursor.pull n).2.Buffers stream ∧ (cursor.pull n).2.position = cursor.position ∧
      Pulled stream cursor.buffer.length n (cursor.pull n).1 (cursor.pull n).2.buffer := by
  induction n generalizing cursor with
  | zero => exact ⟨h, rfl, .enough (Nat.le_refl _)⟩
  | succ n ih =>
    obtain ⟨lexicon, unread, buffer, fault, position⟩ := cursor
    rw [Cursor.pull]
    cases fault with
    | some fault => exact ⟨h, rfl, .fault (h.ended fault rfl) n.succ_pos (by simp)⟩
    | none =>
      have hread := h.unread rfl
      rw [Lexicon.read_eq] at hread
      dsimp only at hread ⊢
      cases hnext : lexicon.next? unread with
      | none =>
        rw [hnext] at hread
        exact ⟨h, rfl, .all (by simpa using hread)⟩
      | some first =>
        obtain ⟨_ | token, after⟩ := first
        · rw [hnext, List.append_nil] at hread
          refine ⟨⟨h.position, fun hnone => (nomatch hnone), fun fault hsome => ?_⟩, rfl,
            .fault hread n.succ_pos (by simp)⟩
          rw [hread, Option.some.inj hsome]
        · rw [hnext] at hread
          have hbuffers : Buffers ⟨lexicon, after, buffer ++ [token], none, position⟩ stream := by
            refine ⟨?_, fun _ => ?_, fun _ hsome => nomatch hsome⟩
            · rw [List.length_append]
              exact Nat.le_add_right_of_le h.position
            · simpa [TokenStream.push] using hread
          obtain ⟨hfinal, hposition, hpulled⟩ := ih hbuffers
          rw [List.length_append] at hpulled
          exact ⟨hfinal, hposition, hpulled.later⟩

/-- Looking ahead shows what the index shows, and does not move. -/
theorem peek (h : cursor.Buffers stream) (k : Nat) :
    (Cursor.peek k cursor).1 = stream.look (cursor.position + k) ∧
      (Cursor.peek k cursor).2.Buffers stream ∧
      (Cursor.peek k cursor).2.position = cursor.position := by
  obtain ⟨hbuffers, hposition, hpulled⟩ := h.pull (cursor.position + k + 1 - cursor.buffer.length)
  refine ⟨?_, hbuffers, hposition⟩
  simp only [Cursor.peek]
  generalize cursor.pull (cursor.position + k + 1 - cursor.buffer.length) = run at *
  obtain ⟨outcome, filled⟩ := run
  dsimp only at hbuffers hpulled ⊢
  cases hpulled with
  | enough hlength =>
    have hlt : cursor.position + k < filled.buffer.length := by omega
    simp only [Except.map, TokenStream.look, ← hbuffers.getElem? hlt,
      List.getElem?_eq_getElem hlt]
  | all hstream =>
    rw [hstream]
    simp only [Except.map, TokenStream.look]
    cases filled.buffer[cursor.position + k]? <;> rfl
  | fault hstream hpos hlength =>
    have hnone : filled.buffer[cursor.position + k]? = none :=
      List.getElem?_eq_none_iff.2 (by omega)
    simp only [Except.map, TokenStream.look, hstream, hnone]

end Buffers

/-! ## Requests -/

theorem lt_of_peek {k : Nat} {t : Token} (h : (peek k cursor).1 = .ok (some t)) :
    cursor.position + k < (peek k cursor).2.buffer.length := by
  simp only [peek] at h ⊢
  generalize cursor.pull (cursor.position + k + 1 - cursor.buffer.length) = run at *
  obtain ⟨_ | _, filled⟩ := run
  · cases h
  · exact (List.getElem?_eq_some_iff.1 (Except.ok.inj h)).1

/-- A step goes on from the cursor that its first part leaves, unless that part meets a fault. -/
theorem step_bind {α β : Type} (x : Step α) (f : α → Step β) (cursor : Cursor) :
    (x >>= f) cursor = match (x cursor).1 with
      | .ok a => f a (x cursor).2
      | .error e => (.error e, (x cursor).2) := by
  rcases h : x cursor with ⟨_ | _, filled⟩ <;>
    simp only [Bind.bind, ExceptT.bind, ExceptT.mk, StateT.bind, h] <;> rfl

theorem step_pure {α : Type} (a : α) (cursor : Cursor) :
    (pure a : Step α) cursor = (.ok a, cursor) := rfl

theorem isAt_run (p : Token → Bool) (cursor : Cursor) :
    isAt p cursor = ((peek 0 cursor).1.map (·.any p), (peek 0 cursor).2) := by
  rw [isAt, step_bind]
  cases (peek 0 cursor).1 <;> rfl

namespace Buffers

/-- Passing the current token shows what the index shows, and moves only if that is a token. -/
theorem next (h : cursor.Buffers stream) :
    (Cursor.next cursor).1 = stream.look cursor.position ∧
      (Cursor.next cursor).2.Buffers stream ∧
      (Cursor.next cursor).2.position = stream.behind (fun _ => true) cursor.position := by
  obtain ⟨hlook, hbuffers, hposition⟩ := h.peek 0
  rw [Nat.add_zero] at hlook
  rw [Cursor.next, step_bind, TokenStream.behind, ← hlook]
  cases hfound : (Cursor.peek 0 cursor).1 with
  | error e => exact ⟨rfl, hbuffers, hposition⟩
  | ok found =>
    cases found with
    | none => exact ⟨rfl, hbuffers, hposition⟩
    | some t =>
      have hlt := lt_of_peek hfound
      rw [Nat.add_zero, ← hposition] at hlt
      exact ⟨rfl, ⟨hlt, hbuffers.unread, hbuffers.ended⟩, congrArg (· + 1) hposition⟩

/-- Passing a token that satisfies `p` moves exactly if the index shows one. -/
theorem eat (h : cursor.Buffers stream) (p : Token → Bool) :
    (Cursor.eat p cursor).1 = (stream.look cursor.position).map (·.any p) ∧
      (Cursor.eat p cursor).2.Buffers stream ∧
      (Cursor.eat p cursor).2.position = stream.behind p cursor.position := by
  obtain ⟨hlook, hbuffers, hposition⟩ := h.peek 0
  rw [Nat.add_zero] at hlook
  rw [Cursor.eat, step_bind, isAt_run, TokenStream.behind, ← hlook]
  have hnext := hbuffers.next
  rw [hposition, ← hlook, TokenStream.behind, ← hlook] at hnext
  generalize (Cursor.peek 0 cursor).2 = filled at *
  rcases hfound : (Cursor.peek 0 cursor).1 with e | _ | t
  · exact ⟨rfl, hbuffers, hposition⟩
  · exact ⟨rfl, hbuffers, hposition⟩
  · rw [hfound] at hnext
    cases hp : p t with
    | false => simp [Except.map, hp, hbuffers, hposition, step_pure]
    | true => simp [Except.map, hp, hnext, step_bind, step_pure]

theorem atEnd (h : cursor.Buffers stream) :
    (Cursor.atEnd cursor).1 = (stream.look cursor.position).map Option.isNone ∧
      (Cursor.atEnd cursor).2.Buffers stream ∧
      (Cursor.atEnd cursor).2.position = cursor.position := by
  obtain ⟨hlook, hbuffers, hposition⟩ := h.peek 0
  rw [Nat.add_zero] at hlook
  rw [Cursor.atEnd, step_bind, ← hlook]
  cases (Cursor.peek 0 cursor).1 <;> exact ⟨rfl, hbuffers, hposition⟩

theorem isAt (h : cursor.Buffers stream) (p : Token → Bool) :
    (Cursor.isAt p cursor).1 = (stream.look cursor.position).map (·.any p) ∧
      (Cursor.isAt p cursor).2.Buffers stream ∧
      (Cursor.isAt p cursor).2.position = cursor.position := by
  obtain ⟨hlook, hbuffers, hposition⟩ := h.peek 0
  rw [Nat.add_zero] at hlook
  rw [isAt_run, ← hlook]
  exact ⟨rfl, hbuffers, hposition⟩

theorem previous (h : cursor.Buffers stream) (k : Nat) :
    cursor.previous k =
      if 1 ≤ k ∧ k ≤ cursor.position then stream.tokens[cursor.position - k]? else none := by
  have hposition := h.position
  unfold Cursor.previous
  by_cases hk : 1 ≤ k ∧ k ≤ cursor.position
  · rw [if_neg (by omega), if_pos hk, h.getElem? (by omega)]
  · rw [if_pos (by omega), if_neg hk]

theorem position_le (h : cursor.Buffers stream) : cursor.position ≤ stream.tokens.length :=
  Nat.le_trans h.position h.isPrefix.length_le

/-- One request is replied to as by the index, and leaves the cursor where the index is. -/
theorem serve (h : cursor.Buffers stream) (request : CursorRequest) :
    (cursor.serve request).1 = (stream.serve cursor.position request).1 ∧
      (cursor.serve request).2.Buffers stream ∧
      (cursor.serve request).2.position = (stream.serve cursor.position request).2 := by
  cases request with
  | next =>
    obtain ⟨hlook, hrest⟩ := h.next
    exact ⟨congrArg (CursorReply.ofOutcome .found) hlook, hrest⟩
  | peek k =>
    obtain ⟨hlook, hrest⟩ := h.peek k
    exact ⟨congrArg (CursorReply.ofOutcome .found) hlook, hrest⟩
  | previous k => exact ⟨congrArg CursorReply.found (h.previous k), h, rfl⟩
  | reset => exact ⟨rfl, ⟨Nat.zero_le _, h.unread, h.ended⟩, rfl⟩
  | atEnd =>
    obtain ⟨hlook, hrest⟩ := h.atEnd
    exact ⟨congrArg (CursorReply.ofOutcome .answer) hlook, hrest⟩
  | atKeyword k =>
    obtain ⟨hlook, hrest⟩ := h.isAt (·.isKeyword k)
    exact ⟨congrArg (CursorReply.ofOutcome .answer) hlook, hrest⟩
  | eatKeyword k =>
    obtain ⟨hlook, hrest⟩ := h.eat (·.isKeyword k)
    exact ⟨congrArg (CursorReply.ofOutcome .answer) hlook, hrest⟩
  | atSymbol s =>
    obtain ⟨hlook, hrest⟩ := h.isAt (·.isSymbol s)
    exact ⟨congrArg (CursorReply.ofOutcome .answer) hlook, hrest⟩
  | eatSymbol s =>
    obtain ⟨hlook, hrest⟩ := h.eat (·.isSymbol s)
    exact ⟨congrArg (CursorReply.ofOutcome .answer) hlook, hrest⟩

theorem run (h : cursor.Buffers stream) (requests : List CursorRequest) :
    cursor.run requests = stream.run cursor.position requests ∧
      ∀ reply ∈ cursor.run requests, reply.2 ≤ stream.tokens.length := by
  induction requests generalizing cursor with
  | nil => exact ⟨rfl, by simp [Cursor.run]⟩
  | cons request later ih =>
    obtain ⟨hreply, hbuffers, hposition⟩ := h.serve request
    obtain ⟨hlater, hwithin⟩ := ih hbuffers
    have hserved : ((cursor.serve request).1, (cursor.serve request).2.position) =
        stream.serve cursor.position request := Prod.ext hreply hposition
    rw [hposition] at hlater
    exact ⟨congrArg₂ List.cons hserved hlater,
      List.forall_mem_cons.2 ⟨hbuffers.position_le, hwithin⟩⟩

end Buffers

/-- **A cursor replies like an index into the list of tokens**, whatever it is asked for, and never
passes the last one. -/
theorem run_start (lexicon : Lexicon) (text : Text) (requests : List CursorRequest) :
    let stream := lexicon.read (.ofText text)
    (start lexicon text).run requests = stream.run 0 requests ∧
      ∀ reply ∈ (start lexicon text).run requests, reply.2 ≤ stream.tokens.length :=
  (buffers_start lexicon text).run requests

end Cursor

end QueryTemplate
