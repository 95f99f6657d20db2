import QueryTemplate.Json.Parser

/-! # Records in JSON

A record is written as an object with its fields as members, in any order and possibly among
others, or as an array of its values in order. A choice between variants is written as an object
with the name of the variant under one key and what it holds under another, or as an array of the
two. What comes before the name of its variant is kept until the name is known, and then read with
some freedom in how names are written.
-/

namespace QueryTemplate

namespace JsonValue

/-- A natural number of 64 bits. -/
def nat? : JsonValue → Option Nat
  | number (.whole n) => if n < UInt64.size then some n else none
  | _ => none

def bool? : JsonValue → Option Bool
  | bool b => some b
  | _ => none

def text? : JsonValue → Option Text
  | string s => s
  | _ => none

def list? {α : Type} (f : JsonValue → Option α) : JsonValue → Option (List α)
  | array items => items.mapM f
  | _ => none

/-- The members of an object if all keys are texts. -/
def keyed? (members : List (JsonText × JsonValue)) : Option (List (Text × JsonValue)) :=
  members.mapM fun (key, value) => key.map (·, value)

/-- The greatest number of arrays and objects that may lie around a value that is kept for later
reading. -/
def depthLimit : Nat := 127

/-- Whether the value, with `outer` arrays and objects around it, can be kept for later reading:
it has to be sound and must not lie too deep. -/
def isKeepable (outer : Nat) (value : JsonValue) : Bool :=
  value.isSound && outer + value.depth ≤ depthLimit

end JsonValue

/-- The values of the fields of a record, by name, and whether they were written in order, as an
array. -/
structure JsonRecord where
  values : List (Text × JsonValue)
  inOrder : Bool

namespace JsonRecord

/-- The values of a record with the given field names. No field may be given twice, and no value
may be left over in an array. -/
def ofValue? (names : List String) : JsonValue → Option JsonRecord
  | .object members => do
    let values := (← JsonValue.keyed? members).filter fun (key, _) =>
      names.any (·.toList == key)
    if (values.map (·.1)).Nodup then return ⟨values, false⟩ else none
  | .array items =>
    if items.length ≤ names.length then some ⟨(names.map String.toList).zip items, true⟩ else none
  | _ => none

def find? (r : JsonRecord) (name : String) : Option JsonValue :=
  (r.values.find? (·.1 == name.toList)).map (·.2)

/-- A field that has to be given. -/
def get? {α : Type} (r : JsonRecord) (name : String) (f : JsonValue → Option α) : Option α := do
  f (← r.find? name)

/-- A field that has a value of its own when it is not given. -/
def getD? {α : Type} (r : JsonRecord) (name : String) (default : α) (f : JsonValue → Option α) :
    Option α :=
  match r.find? name with
  | none => some default
  | some value => f value

/-- A field that may be null, and in an object may also be left out. -/
def getOption? {α : Type} (r : JsonRecord) (name : String) (f : JsonValue → Option α) :
    Option (Option α) :=
  match r.find? name with
  | none => if r.inOrder then none else some none
  | some .null => some none
  | some value => (f value).map some

end JsonRecord

/-- The name of a variant, what it holds, if anything is given, and whether that has been kept until
the name was known. -/
structure JsonVariant where
  name : Text
  content : Option JsonValue
  isKept : Bool

namespace JsonVariant

/-- Whether a variant that holds nothing may hold the value: null, or an empty object if the value
has been kept. -/
def isNothing (isKept : Bool) : JsonValue → Bool
  | .null => true
  | .object [] => isKept
  | _ => false

/-- The name of a variant that holds nothing: a text, or an object with nothing under that text. -/
def name? (isKept : Bool) : JsonValue → Option Text
  | .string s => s
  | .object [(key, value)] => if isNothing isKept value then key else none
  | _ => none

/-- The name of a variant among `names`: a text, or its number among them if it has been kept. -/
def choice? (names : List String) (isKept : Bool) : JsonValue → Option Text
  | .string s => s
  | .number (.whole n) => if isKept then names[n]?.map String.toList else none
  | _ => none

/-- The members from one with the key `first` on, if it comes before any with the key `second`. -/
def leads (first second : Text) : List (Text × JsonValue) → Bool
  | [] => false
  | (key, _) :: rest => key == first || (key != second && leads first second rest)

/-- The variant whose name is under the key `tag` and whose content is under the key `content`.
Content that is given before the name is kept until the name is known; `outer` arrays and objects
lie around the whole. In an array, the name is a text. -/
def ofValue? (tag content : String) (outer : Nat) : JsonValue → Option JsonVariant
  | .object members => do
    let members ← JsonValue.keyed? members
    match members.filter (·.1 == tag.toList), members.filter (·.1 == content.toList) with
    | [(_, name)], [] => return ⟨← name? false name, none, false⟩
    | [(_, name)], [(_, value)] =>
      let isKept := leads content.toList tag.toList members
      if isKept && !value.isKeepable (outer + 1) then none
      else return ⟨← name? false name, some value, isKept⟩
    | _, _ => none
  | .array [name, value] => do return ⟨← name.text?, some value, false⟩
  | _ => none

/-- Whether nothing is held, which may also be written as null. -/
def isEmpty (v : JsonVariant) : Bool :=
  match v.content with
  | none | some .null => true
  | some _ => false

/-- What the variant holds, which has to be given. -/
def get? {α : Type} (v : JsonVariant) (f : JsonValue → Option α) : Option α := do
  f (← v.content)

/-- The variant whose name, one of `names`, is under the key `tag` among the fields of what it
holds; all of these are kept until the name is known. In an array, the name comes in front of the
values. `isKept` tells whether the whole has been kept already. -/
def ofInline? (tag : String) (names : List String) (isKept : Bool) (outer : Nat) :
    JsonValue → Option JsonVariant
  | .object members => do
    let keyed ← JsonValue.keyed? members
    match keyed.filter (·.1 == tag.toList) with
    | [(_, name)] =>
      let fields := members.filter fun (key, _) => key != some tag.toList
      if fields.all fun (_, value) => value.isKeepable (outer + 1) then
        return ⟨← choice? names isKept name, some (.object fields), true⟩
      else none
    | _ => none
  | .array (name :: values) =>
    if values.all (JsonValue.isKeepable (outer + 1)) then do
      return ⟨← choice? names isKept name, some (.array values), true⟩
    else none
  | _ => none

end JsonVariant

end QueryTemplate
