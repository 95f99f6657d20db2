import QueryTemplate.Directive.Header
import QueryTemplate.Fault.Lexical

/-! # Directives

The directives of a template are found from left to right. A directive ends at the first closing
brace that is outside quotes.
-/

namespace QueryTemplate

/-- A directive: the text between its opener and its closing brace, and the place of all of it. -/
structure Directive where
  header : Text
  span : Span
deriving DecidableEq, Repr

namespace Directive

def opener : Text := ['%', '\x7b']

def find? (text : Text) : Option Nat :=
  (Text.splitMark? opener text).map fun (before, _) => Text.size before

/-- The header at the beginning of a text, read inside quotes of the given sort or outside quotes,
and the text behind the closing brace. -/
def splitHeader? : Option Char → Text → Option (Text × Text)
  | _, [] => none
  | none, c :: rest =>
    if c = '\x7d' then some ([], rest)
    else
      (splitHeader? (if HeaderToken.isQuote c then some c else none) rest).map
        fun (header, after) => (c :: header, after)
  | some quote, c :: rest =>
    (splitHeader? (if c = quote then none else some quote) rest).map
      fun (header, after) => (c :: header, after)

theorem splitHeader?_append {quote : Option Char} {t header after : Text}
    (h : splitHeader? quote t = some (header, after)) : t = header ++ '\x7d' :: after := by
  fun_induction splitHeader? quote t generalizing header after with
  | case1 => simp at h
  | case2 rest =>
    simp only [Option.some.injEq, Prod.mk.injEq] at h
    obtain ⟨rfl, rfl⟩ := h
    rfl
  | case3 c rest _ ih =>
    obtain ⟨⟨u, v⟩, hs, huv⟩ := Option.map_eq_some_iff.1 h
    simp only [Prod.mk.injEq] at huv
    obtain ⟨rfl, rfl⟩ := huv
    simp [ih hs]
  | case4 quote c rest ih =>
    obtain ⟨⟨u, v⟩, hs, huv⟩ := Option.map_eq_some_iff.1 h
    simp only [Prod.mk.injEq] at huv
    obtain ⟨rfl, rfl⟩ := huv
    simp [ih hs]

/-- The directive whose opener stands at `offset` with `text` behind it, and what is behind the
directive. -/
def read (offset : Nat) (text : Text) : Except LexicalFault (Directive × Fragment) :=
  let start := offset + Text.size opener
  match splitHeader? none text with
  | none => .error ⟨.unterminatedDirective, ⟨offset, start + Text.size text⟩⟩
  | some (header, after) =>
    let stop := start + Text.size header + 1
    .ok (⟨header, ⟨offset, stop⟩⟩, ⟨stop, after⟩)

/-- If a directive is opened in `source`: the fragment before it, and the directive with the
fragment behind it. -/
def first? (source : Fragment) :
    Option (Fragment × Except LexicalFault (Directive × Fragment)) :=
  (Text.splitMark? opener source.text).map fun (before, after) =>
    (⟨source.offset, before⟩, read (source.offset + Text.size before) after)

theorem first?_length {source before after : Fragment} {directive : Directive}
    (h : first? source = some (before, .ok (directive, after))) :
    after.text.length < source.text.length := by
  obtain ⟨⟨u, v⟩, hs, huv⟩ := Option.map_eq_some_iff.1 h
  simp only [Prod.mk.injEq, read] at huv
  obtain ⟨-, hv⟩ := huv
  split at hv
  · simp at hv
  · rename_i header rest hr
    simp only [Except.ok.injEq, Prod.mk.injEq] at hv
    obtain ⟨-, rfl⟩ := hv
    have hsource := congrArg List.length (Text.splitMark?_append hs)
    have hv := congrArg List.length (splitHeader?_append hr)
    simp at hsource hv ⊢
    omega

/-- The tokens of the header, located in the template. -/
def tokens (directive : Directive) : List HeaderToken :=
  HeaderToken.scan (directive.span.start + Text.size opener) directive.header

end Directive

end QueryTemplate
