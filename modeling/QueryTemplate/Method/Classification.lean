import QueryTemplate.Method.Options
import QueryTemplate.Token.Basic

/-! # Classifying statements

The leading keyword of a statement and the options of its method decide what the method yields
and returns. A mutation returns what its kind of execution asks for, whether or not that is
declared. A query has to declare what it returns, and a collection makes it a query of many rows.
-/

namespace QueryTemplate

namespace MethodOptions

def classifyMutation (options : MethodOptions) :
    Except MethodFault (StatementKind × ReturnType) :=
  match options.auto with
  | some span => .error ⟨.autoOnMutation, span⟩
  | none =>
    let exec := (options.exec.map Located.value).getD .result
    let demanded : ReturnType := ⟨exec.element, false⟩
    match options.returns with
    | none => .ok (.mutation exec, demanded)
    | some declared =>
      if declared.value = demanded then .ok (.mutation exec, demanded)
      else .error ⟨.returnTypeMismatch (.ofMutation exec) declared.value, declared.span⟩

def classifyQuery (options : MethodOptions) (keyword : Span) :
    Except MethodFault (StatementKind × ReturnType) :=
  match options.returns with
  | none => .error ⟨.missingReturnType, keyword⟩
  | some ⟨declared, span⟩ =>
    let classified : StatementKind × ReturnType :=
      (if declared.isCollection then .multiRow else .singleRow, declared)
    match declared.element with
    | .execResult => .error ⟨.returnTypeMismatch .ofQuery declared, span⟩
    | .int64 =>
      if options.auto.isSome then .error ⟨.autoNeedsRecord declared, span⟩ else .ok classified
    | .named _ => .ok classified

/-- What a method yields and returns, given the keyword its statement starts with. -/
def classify (options : MethodOptions) (keyword : Located Keyword) :
    Except MethodFault (StatementKind × ReturnType) :=
  if keyword.value.isMutation then options.classifyMutation
  else options.classifyQuery keyword.span

end MethodOptions

end QueryTemplate
