import QueryTemplate.Text.Path

/-! # Files

A program sees files by their paths: a path gives the bytes of a file, or the system refuses to
read it. A refusal has a number and a text.
-/

namespace QueryTemplate

/-- Why the system does not give the bytes of a file. -/
inductive Refusal where
  | absent
  | denied
  | notDirectory
  | isDirectory
  | tooLong
  | other (number : Nat) (text : Text)
deriving DecidableEq, Repr

namespace Refusal

def number : Refusal → Nat
  | absent => 2
  | denied => 13
  | notDirectory => 20
  | isDirectory => 21
  | tooLong => 36
  | other number _ => number

def text : Refusal → Text
  | absent => "No such file or directory".toList
  | denied => "Permission denied".toList
  | notDirectory => "Not a directory".toList
  | isDirectory => "Is a directory".toList
  | tooLong => "File name too long".toList
  | other _ text => text

def message (r : Refusal) : Text :=
  r.text ++ " (os error ".toList ++ Nat.toDigits 10 r.number ++ [')']

/-- The refusal with the given number; its text counts only if there is no other. -/
def ofNumber (number : Nat) (text : Text) : Refusal :=
  ([absent, denied, notDirectory, isDirectory, tooLong].find? (·.number == number)).getD
    (other number text)

theorem number_ofNumber (number : Nat) (text : Text) : (ofNumber number text).number = number := by
  unfold ofNumber
  cases h : [absent, denied, notDirectory, isDirectory, tooLong].find? (·.number == number) with
  | none => rfl
  | some r => simpa using List.find?_some h

end Refusal

/-- The bytes of the files at paths, as far as the system gives them. -/
abbrev Files := Path → Except Refusal ByteArray

/-- The files at those paths that are texts. -/
def Files.atTexts (read : Text → Except Refusal ByteArray) : Files := fun path =>
  match path.text? with
  | some t => read t
  | none => .error .absent

end QueryTemplate
