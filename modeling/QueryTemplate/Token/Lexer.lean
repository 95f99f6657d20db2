import QueryTemplate.Fault.Lexical
import QueryTemplate.Token.Lexicon

/-! # Reading tokens from text

White space separates tokens. A quote character opens a quoted text that runs to the next quote
of its kind that is not doubled; otherwise a symbol that fits is a token; all else up to white
space, a quote or a symbol is a word. Text is read token by token, and reading ends for good at
a quoted text that is never closed.
-/

namespace QueryTemplate

/-- The end of a quoted text whose opening quote has been read, and the text behind it. -/
def Text.splitQuoted? (quote : Char) : Text → Option (Text × Text)
  | [] => none
  | [c] => if c = quote then some ([c], []) else none
  | c :: d :: rest =>
    if c = quote then
      if d = quote then
        (splitQuoted? quote rest).map fun (inner, after) => (c :: d :: inner, after)
      else some ([c], d :: rest)
    else (splitQuoted? quote (d :: rest)).map fun (inner, after) => (c :: inner, after)

theorem Text.splitQuoted?_append {quote : Char} {t inner after : Text}
    (h : splitQuoted? quote t = some (inner, after)) : t = inner ++ after := by
  fun_induction splitQuoted? quote t generalizing inner after with
  | case1 => simp at h
  | case2 => simp_all
  | case3 => simp at h
  | case4 rest ih =>
    obtain ⟨⟨u, v⟩, hs, huv⟩ := Option.map_eq_some_iff.1 h
    simp only [Prod.mk.injEq] at huv
    obtain ⟨rfl, rfl⟩ := huv
    simp [ih hs]
  | case5 =>
    simp only [Option.some.injEq, Prod.mk.injEq] at h
    obtain ⟨rfl, rfl⟩ := h
    simp
  | case6 c d rest _ ih =>
    obtain ⟨⟨u, v⟩, hs, huv⟩ := Option.map_eq_some_iff.1 h
    simp only [Prod.mk.injEq] at huv
    obtain ⟨rfl, rfl⟩ := huv
    simp [ih hs]

/-- The longest beginning of a text that can go on a word, and the text behind it. -/
def Lexicon.splitWord (lexicon : Lexicon) : Text → Text × Text
  | [] => ([], [])
  | c :: rest =>
    if lexicon.endsWord (c :: rest) then ([], c :: rest)
    else
      let (word, after) := splitWord lexicon rest
      (c :: word, after)

theorem Lexicon.splitWord_append (lexicon : Lexicon) (t : Text) :
    (lexicon.splitWord t).1 ++ (lexicon.splitWord t).2 = t := by
  induction t with
  | nil => rfl
  | cons c rest ih =>
    by_cases h : lexicon.endsWord (c :: rest) <;> simp [splitWord, h, ih]

/-- The kind of a token that is neither quoted nor a symbol. -/
def Lexicon.wordKind (lexicon : Lexicon) (word : Text) : TokenKind :=
  match lexicon.keyword? word with
  | some k => .keyword k
  | none => .word

namespace Lexicon

def token (kind : TokenKind) (lexeme : Text) (offset : Nat) (after : Text) :
    Except LexicalFault Token × Fragment :=
  (.ok ⟨kind, lexeme, ⟨offset, offset + Text.size lexeme⟩⟩, ⟨offset + Text.size lexeme, after⟩)

/-- The token or fault at the beginning of `c :: rest`, where `c` is not white space. -/
def tokenAt (lexicon : Lexicon) (offset : Nat) (c : Char) (rest : Text) :
    Except LexicalFault Token × Fragment :=
  if lexicon.isQuote c then
    match Text.splitQuoted? c rest with
    | some (inner, after) => token (.quoted c) (c :: inner) offset after
    | none =>
      let stop := offset + Text.size (c :: rest)
      (.error ⟨.unterminatedQuote c, ⟨offset, stop⟩⟩, ⟨stop, []⟩)
  else
    match lexicon.symbol? (c :: rest) with
    | some s => token (.symbol s) s.text offset ((c :: rest).drop s.text.length)
    | none =>
      let (word, after) := lexicon.splitWord rest
      token (lexicon.wordKind (c :: word)) (c :: word) offset after

theorem tokenAt_length (lexicon : Lexicon) (offset : Nat) (c : Char) (rest : Text) :
    (tokenAt lexicon offset c rest).2.text.length < (c :: rest).length := by
  unfold tokenAt
  split
  · split
    · rename_i inner after h
      have := congrArg List.length (Text.splitQuoted?_append h)
      simp only [List.length_append] at this
      simp only [token, List.length_cons]
      omega
    · simp
  · split
    · rename_i s _
      have : 0 < s.text.length := by cases s <;> decide
      simp [token]
      omega
    · have := congrArg List.length (lexicon.splitWord_append rest)
      simp [token] at this ⊢
      omega

/-- The next token or fault, if anything but white space is left, and what is behind it. -/
def next? (lexicon : Lexicon) : Fragment → Option (Except LexicalFault Token × Fragment)
  | ⟨_, []⟩ => none
  | ⟨offset, c :: rest⟩ =>
    if Text.isSpace c then next? lexicon ⟨offset + c.utf8Size, rest⟩
    else some (tokenAt lexicon offset c rest)
termination_by source => source.text.length

theorem next?_length {lexicon : Lexicon} {source after : Fragment}
    {item : Except LexicalFault Token} (h : next? lexicon source = some (item, after)) :
    after.text.length < source.text.length := by
  fun_induction next? lexicon source with
  | case1 => simp at h
  | case2 offset c rest _ ih => exact Nat.lt_succ_of_lt (ih h)
  | case3 offset c rest _ =>
    have := tokenAt_length lexicon offset c rest
    simp only [Option.some.injEq] at h
    simpa [h] using this

end Lexicon

/-- What a text holds: its tokens in order, and the fault that ended reading, if there is one. -/
structure TokenStream where
  tokens : List Token
  fault : Option LexicalFault
deriving DecidableEq, Repr

namespace TokenStream

def push (t : Token) (stream : TokenStream) : TokenStream :=
  { stream with tokens := t :: stream.tokens }

def items (stream : TokenStream) : List (Except LexicalFault Token) :=
  stream.tokens.map .ok ++ stream.fault.toList.map .error

def complete (stream : TokenStream) : Except LexicalFault (List Token) :=
  match stream.fault with
  | some fault => .error fault
  | none => .ok stream.tokens

end TokenStream

namespace Lexicon

def read (lexicon : Lexicon) (source : Fragment) : TokenStream :=
  match _ : lexicon.next? source with
  | none => ⟨[], none⟩
  | some (.error fault, _) => ⟨[], some fault⟩
  | some (.ok token, after) => (read lexicon after).push token
termination_by source.text.length
decreasing_by exact next?_length (by assumption)

/-- The tokens of `text`, or the fault that prevents dividing it. -/
def tokenize (lexicon : Lexicon) (text : Text) : Except LexicalFault (List Token) :=
  (lexicon.read (.ofText text)).complete

end Lexicon

end QueryTemplate
