import QueryTemplate.Directive.Basic
import QueryTemplate.Fault.Template
import QueryTemplate.Segment.Basic
import QueryTemplate.Statement.Resolution

/-! # Dividing a template into segments

A dynamic template is constant text and blocks in turn. A block is a directive that opens it, a
body without directives, and the directive that closes it. Constant text that resolves to nothing
is left out.
-/

namespace QueryTemplate

/-- What the directive that opens a block says. -/
inductive BlockOpening where
  | conditional (condition : Text)
  | loop (element collection : Text) (separator : Option Text)
deriving DecidableEq, Repr

namespace BlockOpening

def kind : BlockOpening → BlockKind
  | conditional _ => .conditional
  | loop _ _ _ => .loop

def segment (body : Statement) : BlockOpening → Segment
  | conditional condition => .conditional condition body
  | loop element collection separator => .loop element collection separator body

/-- The next token of the clause of a loop, which has to be of the given kind, and the tokens
behind it. -/
def loopPart (directive : Directive) (part : LoopPart) (kind : HeaderKind) :
    List HeaderToken → Checked (Text × List HeaderToken)
  | [] => .error ⟨.malformedLoop (.missing part), directive.span⟩
  | t :: rest =>
    if t.kind = kind then .ok (t.text, rest)
    else .error ⟨.malformedLoop (.mistaken part t.kind), t.span⟩

/-- The clause of a loop, from the tokens behind its opening word. -/
def ofLoopClause (directive : Directive) (clause : List HeaderToken) :
    Checked BlockOpening := do
  let (element, rest) ← loopPart directive .element .name clause
  let (_, rest) ← loopPart directive .inWord .inWord rest
  let (collection, rest) ← loopPart directive .collection .name rest
  if rest.isEmpty then return loop element collection none
  let (_, rest) ← loopPart directive .joinWord .joinWord rest
  let (quoted, rest) ← loopPart directive .separator .quoted rest
  match rest with
  | [] => return loop element collection (some quoted.tail.dropLast)
  | extra :: _ => throw ⟨.malformedLoop (.surplus extra.kind), extra.span⟩

def ofDirective (directive : Directive) : Checked BlockOpening :=
  match directive.tokens with
  | [] => .error ⟨.unknownDirective (Text.trim directive.header), directive.span⟩
  | t :: clause =>
    match t.kind with
    | .opening .conditional =>
      let read := t.span.stop - (directive.span.start + Text.size Directive.opener)
      let condition := Text.trim (Text.dropBytes read directive.header)
      if condition.isEmpty then .error ⟨.emptyCondition, directive.span⟩
      else .ok (conditional condition)
    | .opening .loop => ofLoopClause directive clause
    | .closing block => .error ⟨.strayBlockEnd block, directive.span⟩
    | _ => .error ⟨.unknownDirective (Text.trim directive.header), directive.span⟩

end BlockOpening

namespace Segment

/-- Whether `directive` closes a block of the given kind, and with what fault if not. -/
def checkClosing (block : BlockKind) (directive : Directive) : Checked Unit :=
  match directive.tokens with
  | [] => .error ⟨.unknownDirective (Text.trim directive.header), directive.span⟩
  | t :: surplus =>
    match t.kind with
    | .closing found =>
      if found ≠ block then .error ⟨.mismatchedBlockEnd block found, directive.span⟩
      else
        match surplus with
        | [] => .ok ()
        | extra :: _ =>
          .error ⟨.unexpectedToken (.symbol .closeBrace) (.headerToken extra.kind), extra.span⟩
    | .opening _ => .error ⟨.nestedDirective, directive.span⟩
    | _ => .error ⟨.unknownDirective (Text.trim directive.header), directive.span⟩

/-- The body of the block that `directive` has opened, and the fragment behind the block. -/
def blockBody (block : BlockKind) (directive : Directive) (source : Fragment) :
    Checked (Fragment × Fragment) :=
  match Directive.first? source with
  | none => .error ⟨.unclosedBlock block, directive.span⟩
  | some (_, .error fault) => .error fault.inTemplate
  | some (body, .ok (closing, after)) => (checkClosing block closing).map fun _ => (body, after)

theorem blockBody_length {block : BlockKind} {directive : Directive}
    {source body after : Fragment} (h : blockBody block directive source = .ok (body, after)) :
    after.text.length < source.text.length := by
  unfold blockBody at h
  split at h
  · simp at h
  · simp at h
  · rename_i hf
    cases hc : checkClosing block _ <;> rw [hc] at h <;> simp [Except.map] at h
    obtain ⟨rfl, rfl⟩ := h
    exact Directive.first?_length hf

/-- A fragment without directives, resolved. -/
def resolve (markers : Markers) (source : Fragment) : Checked Statement :=
  (Statement.resolve markers source).mapError LexicalFault.inTemplate

/-- The segment of constant text, unless the text resolves to nothing. -/
def constants (markers : Markers) (source : Fragment) : Checked (List Segment) :=
  (resolve markers source).map fun s => if s.isEmpty then [] else [constant s]

/-- The block that `directive` opens, and the fragment behind it. -/
def block (markers : Markers) (directive : Directive) (source : Fragment) :
    Checked (Segment × Fragment) :=
  match BlockOpening.ofDirective directive with
  | .error fault => .error fault
  | .ok opening =>
    match blockBody opening.kind directive source with
    | .error fault => .error fault
    | .ok (body, after) => (resolve markers body).map fun s => (opening.segment s, after)

theorem block_length {markers : Markers} {directive : Directive} {source after : Fragment}
    {segment : Segment} (h : block markers directive source = .ok (segment, after)) :
    after.text.length < source.text.length := by
  unfold block at h
  split at h
  · simp at h
  · split at h
    · simp at h
    · rename_i hb
      cases hr : resolve markers _ <;> rw [hr] at h <;> simp [Except.map] at h
      obtain ⟨-, rfl⟩ := h
      exact blockBody_length hb

/-- The segments of a fragment: constant text, then the first block, then the segments of the
fragment behind it. -/
def parts (markers : Markers) (source : Fragment) : Checked (List Segment) :=
  match _ : Directive.first? source with
  | none => constants markers source
  | some (before, found) =>
    match constants markers before with
    | .error fault => .error fault
    | .ok lead =>
      match _ : found with
      | .error fault => .error fault.inTemplate
      | .ok (directive, inside) =>
        match _ : block markers directive inside with
        | .error fault => .error fault
        | .ok (segment, after) => (parts markers after).map fun later => lead ++ segment :: later
termination_by source.text.length
decreasing_by
  rename_i hf _ _ hb
  subst_vars
  exact Nat.lt_trans (block_length hb) (Directive.first?_length hf)

/-- The segments of a dynamic template, of which at least one is not constant. -/
def divide (markers : Markers) (source : Fragment) : Checked (List Segment) :=
  match parts markers source with
  | .error fault => .error fault
  | .ok segments =>
    if segments.any isDynamic then .ok segments else .error ⟨.noDynamicSegment, source.span⟩

end Segment

end QueryTemplate
