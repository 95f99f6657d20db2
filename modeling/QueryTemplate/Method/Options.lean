import QueryTemplate.Fault.Method
import QueryTemplate.Method.ReturnType

/-! # Method options

The header of a method lists options, words of the form `key` or `key=value`. They are decoded
from left to right, and the first one that is unknown, repeated or ill-valued is refused.
-/

namespace QueryTemplate

structure WrittenOption where
  key : Text
  value : Option Text
  span : Span
deriving DecidableEq, Repr

/-- The option that a word of a header writes; the first equals sign ends the key. -/
def WrittenOption.ofWord (word : Located Text) : WrittenOption :=
  match Text.splitFirst? '=' word.value with
  | some (key, value) => ⟨key, some value, word.span⟩
  | none => ⟨word.value, none, word.span⟩

/-- The options of a method, each with the place where it is written. -/
structure MethodOptions where
  exec : Option (Located ExecKind)
  returns : Option (Located ReturnType)
  dynamic : Option Span
  auto : Option Span
deriving DecidableEq, Repr

namespace MethodOptions

def empty : MethodOptions := ⟨none, none, none, none⟩

def spanOf (options : MethodOptions) : OptionKey → Option Span
  | .exec => options.exec.map Located.span
  | .returns => options.returns.map Located.span
  | .dynamic => options.dynamic
  | .auto => options.auto

def set (options : MethodOptions) (key : OptionKey) (written : WrittenOption) :
    Except OptionFlaw MethodOptions :=
  match key, written.value with
  | .exec, none => .error .execMissing
  | .exec, some tag =>
    match ExecKind.ofTag? tag with
    | some kind => .ok { options with exec := some ⟨kind, written.span⟩ }
    | none => .error (.execUnknown tag)
  | .returns, none => .error .returnsMissing
  | .returns, some text =>
    match ReturnType.parse? text with
    | some type => .ok { options with returns := some ⟨type, written.span⟩ }
    | none => .error (.returnsMalformed text)
  | .dynamic, none => .ok { options with dynamic := some written.span }
  | .auto, none => .ok { options with auto := some written.span }
  | .dynamic, some _ | .auto, some _ => .error .valueOnFlag

def add (options : MethodOptions) (written : WrittenOption) : Except MethodFault MethodOptions :=
  match OptionKey.ofText? written.key with
  | none => .error ⟨.unknownOption written.key, written.span⟩
  | some key =>
    if (options.spanOf key).isSome then .error ⟨.invalidOption key .repeated, written.span⟩
    else (options.set key written).mapError fun flaw => ⟨.invalidOption key flaw, written.span⟩

def decode (written : List WrittenOption) : Except MethodFault MethodOptions :=
  written.foldlM add empty

end MethodOptions

end QueryTemplate
