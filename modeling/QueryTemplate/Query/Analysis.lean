import QueryTemplate.Query.Binding
import QueryTemplate.Query.SelectList
import QueryTemplate.Query.TableList

/-! # The analysis of a query

A query is analysed by reading its select list, then the tables its clauses name, and then
binding every field to one of these tables. Placeholders and directives in front of the query
are passed over.
-/

namespace QueryTemplate

namespace Query

def shape (lexicon : Lexicon) (source : Fragment) : Checked QueryShape := do
  let stream := lexicon.read source
  let q : Query := ⟨source, stream.fault⟩
  let (fields, clauses) ← q.selectList (← q.skipAllBraces stream.tokens)
  let tables ← q.tableList clauses
  match QueryField.bindAll tables fields with
  | (_, some fault) => throw fault
  | (bound, none) => return ⟨bound, tables⟩

/-- The first token outside braces, which has to be a keyword that starts a statement; `inside`
tells whether a stretch of braces has been entered. -/
def statementKeyword (q : Query) : (inside : Bool) → List Token → Checked (Located Keyword)
  | _, [] => .error (q.endFault .statement)
  | true, t :: rest => statementKeyword q (!t.isSymbol .closeBrace) rest
  | false, t :: rest =>
    match t.kind with
    | .keyword k =>
      if k = .SELECT ∨ k.isMutation then .ok ⟨k, t.span⟩
      else .error ⟨.unsupportedStatement t.kind, t.span⟩
    | .symbol s =>
      if s.opensBrace then statementKeyword q true rest
      else .error ⟨.unsupportedStatement t.kind, t.span⟩
    | _ => .error ⟨.unsupportedStatement t.kind, t.span⟩

/-- The keyword that says what kind of statement a fragment holds. Placeholders and directives in
front of it are passed over, even when one is left open. -/
def leadingKeyword (lexicon : Lexicon) (source : Fragment) : Checked (Located Keyword) :=
  let stream := lexicon.read source
  statementKeyword ⟨source, stream.fault⟩ false stream.tokens

end Query

end QueryTemplate
