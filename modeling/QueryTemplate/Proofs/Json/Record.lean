import QueryTemplate.Json.Record
import QueryTemplate.Proofs.Json.RoundTrip
import Mathlib.Data.List.Nodup

/-! # Records that are read back

A record is written as an object with its fields in order, so it is read field by field: a field
has the value that is written under its name. A variant is written with its name in front, so
nothing but the fields beside the name has to be kept for later reading.
-/

namespace QueryTemplate

namespace JsonValue

variable {α : Type}

@[simp] theorem text?_ofText (t : Text) : (ofText t).text? = some t := rfl

@[simp] theorem bool?_bool (b : Bool) : (bool b).bool? = some b := rfl

theorem nat?_ofNat {n : Nat} (h : n < UInt64.size) : (ofNat n).nat? = some n := if_pos h

theorem list?_ofList {read : JsonValue → Option α} {write : α → JsonValue} {xs : List α}
    (h : ∀ x ∈ xs, read (write x) = some x) : list? read (ofList write xs) = some xs := by
  change (xs.map write).mapM read = some xs
  induction xs with
  | nil => rfl
  | cons x xs ih =>
    rw [List.map_cons, List.mapM_cons, h x (List.mem_cons_self ..),
      ih fun y hy => h y (List.mem_cons_of_mem _ hy)]
    rfl

@[simp] theorem list?_text?_ofList (ts : List Text) : list? text? (ofList ofText ts) = some ts :=
  list?_ofList fun t _ => text?_ofText t

theorem keyed?_ofPairs (pairs : List (String × JsonValue)) :
    keyed? (pairs.map fun (key, value) => (some key.toList, value)) =
      some (pairs.map fun (key, value) => (key.toList, value)) := by
  induction pairs with
  | nil => rfl
  | cons pair pairs ih =>
    rw [keyed?] at ih ⊢
    rw [List.map_cons, List.mapM_cons, ih]
    rfl

/-! Values can be kept if their parts can be kept one level further in. -/

theorem isKeepable_iff {outer : Nat} {v : JsonValue} :
    v.isKeepable outer = true ↔ v.isSound = true ∧ outer + v.depth ≤ depthLimit := by
  simp [isKeepable]

theorem isKeepable_ofText {outer : Nat} (h : outer ≤ depthLimit) (t : Text) :
    (ofText t).isKeepable outer = true :=
  isKeepable_iff.2 ⟨rfl, h⟩

theorem isKeepable_ofOption {write : α → JsonValue} {outer : Nat} (h : outer ≤ depthLimit)
    {x : Option α} (hx : ∀ a ∈ x, (write a).isKeepable outer = true) :
    (ofOption write x).isKeepable outer = true := by
  cases x with
  | none => exact isKeepable_iff.2 ⟨rfl, h⟩
  | some a => exact hx a rfl

theorem isKeepable_ofList {write : α → JsonValue} {outer : Nat} (h : outer < depthLimit)
    {xs : List α} (hxs : ∀ x ∈ xs, (write x).isKeepable (outer + 1) = true) :
    (ofList write xs).isKeepable outer = true := by
  have hitems : itemsSound (xs.map write) = true ∧
      outer + itemsDepth (xs.map write) + 1 ≤ depthLimit := by
    induction xs with
    | nil => exact ⟨rfl, h⟩
    | cons x xs ih =>
      obtain ⟨hsound, hdepth⟩ := isKeepable_iff.1 (hxs x (List.mem_cons_self ..))
      obtain ⟨hlater, hlaterDepth⟩ := ih fun y hy => hxs y (List.mem_cons_of_mem _ hy)
      rw [List.map_cons, itemsSound, itemsDepth, hsound, hlater]
      exact ⟨rfl, by omega⟩
  rw [isKeepable_iff, ofList, isSound, depth]
  exact hitems

theorem isKeepable_ofPairs {outer : Nat} (h : outer < depthLimit)
    {pairs : List (String × JsonValue)}
    (hpairs : ∀ pair ∈ pairs, pair.2.isKeepable (outer + 1) = true) :
    (ofPairs pairs).isKeepable outer = true := by
  have hmembers : membersSound (pairs.map fun (key, value) => (some key.toList, value)) = true ∧
      outer + membersDepth (pairs.map fun (key, value) => (some key.toList, value)) + 1 ≤
        depthLimit := by
    induction pairs with
    | nil => exact ⟨rfl, h⟩
    | cons pair pairs ih =>
      obtain ⟨hsound, hdepth⟩ := isKeepable_iff.1 (hpairs pair (List.mem_cons_self ..))
      obtain ⟨hlater, hlaterDepth⟩ := ih fun other ho => hpairs other (List.mem_cons_of_mem _ ho)
      rw [List.map_cons, membersSound, membersDepth, hsound, hlater]
      exact ⟨rfl, by omega⟩
  rw [isKeepable_iff, ofPairs, isSound, depth]
  exact hmembers

end JsonValue

/-! ## Fields -/

namespace JsonRecord

variable {α : Type} {name : String} {value : JsonValue} {pairs : List (String × JsonValue)}

/-- The record with the given fields, not written as an array. -/
def ofPairs (pairs : List (String × JsonValue)) : JsonRecord :=
  ⟨pairs.map fun (key, value) => (key.toList, value), false⟩

/-- An object with the fields of a record is read as the record. -/
theorem ofValue?_ofPairs {names : List String} (hnodup : names.Nodup)
    (hnames : pairs.map (·.1) = names) :
    ofValue? names (JsonValue.ofPairs pairs) = some (ofPairs pairs) := by
  subst hnames
  have hfilter : (pairs.map fun (key, value) => (key.toList, value)).filter
      (fun (key, _) => (pairs.map (·.1)).any (·.toList == key)) =
        pairs.map fun (key, value) => (key.toList, value) := by
    refine List.filter_eq_self.2 fun field hfield => ?_
    obtain ⟨pair, hpair, rfl⟩ := List.mem_map.1 hfield
    exact List.any_eq_true.2 ⟨pair.1, List.mem_map_of_mem hpair, beq_self_eq_true _⟩
  have hkeys : ((pairs.map fun (key, value) => (key.toList, value)).map (·.1)).Nodup := by
    have hmap := List.Nodup.map (fun _ _ => String.toList_injective) hnodup
    rw [List.map_map] at hmap ⊢
    exact hmap
  rw [JsonValue.ofPairs, ofValue?, JsonValue.keyed?_ofPairs, Option.bind_eq_bind,
    Option.bind_some]
  dsimp only
  rw [hfilter, if_pos hkeys]
  rfl

theorem ofValue?_bind {names : List String} (hnodup : names.Nodup)
    (hnames : pairs.map (·.1) = names) (read : JsonRecord → Option α) :
    ofValue? names (JsonValue.ofPairs pairs) >>= read = read (ofPairs pairs) := by
  rw [ofValue?_ofPairs hnodup hnames, Option.bind_eq_bind, Option.bind_some]

theorem find?_ofPairs (pairs : List (String × JsonValue)) (name : String) :
    (ofPairs pairs).find? name = pairs.lookup name := by
  induction pairs with
  | nil => rfl
  | cons pair pairs ih =>
    rw [find?, ofPairs] at ih ⊢
    rw [List.map_cons, List.find?_cons, List.lookup_cons]
    by_cases h : name = pair.1
    · simp [h]
    · have hlist : pair.1.toList ≠ name.toList := fun heq => h (String.toList_injective heq).symm
      rw [beq_false_of_ne hlist, beq_false_of_ne h]
      exact ih

theorem get?_ofPairs (h : pairs.lookup name = some value) (read : JsonValue → Option α) :
    (ofPairs pairs).get? name read = read value := by
  rw [get?, find?_ofPairs, h]
  rfl

theorem getD?_ofPairs (h : pairs.lookup name = some value) (default : α)
    (read : JsonValue → Option α) : (ofPairs pairs).getD? name default read = read value := by
  rw [getD?, find?_ofPairs, h]

/-- An optional field is read back if what is written for a value is not null. -/
theorem getOption?_ofPairs {read : JsonValue → Option α} {write : α → JsonValue} {x : Option α}
    (h : pairs.lookup name = some (.ofOption write x))
    (hread : ∀ a ∈ x, write a ≠ .null ∧ read (write a) = some a) :
    (ofPairs pairs).getOption? name read = some x := by
  rw [getOption?, find?_ofPairs, h]
  cases x with
  | none => rfl
  | some a =>
    obtain ⟨hnull, ha⟩ := hread a rfl
    rw [JsonValue.ofOption]
    split
    · rename_i heq
      cases heq
    · rename_i heq
      exact absurd (Option.some.inj heq) hnull
    · rename_i heq
      rw [← Option.some.inj heq, ha, Option.map_some]

theorem getOption?_text {x : Option Text}
    (h : pairs.lookup name = some (.ofOption JsonValue.ofText x)) :
    (ofPairs pairs).getOption? name JsonValue.text? = some x :=
  getOption?_ofPairs h fun _ _ => ⟨nofun, rfl⟩

end JsonRecord

/-! ## Variants -/

namespace JsonVariant

variable {α : Type} {tag content : String}

theorem ofValue?_name (h : content ≠ tag) (outer : Nat) (name : Text)
    (read : JsonVariant → Option α) :
    ofValue? tag content outer (.ofPairs [(tag, .ofText name)]) >>= read =
      read ⟨name, none, false⟩ := by
  have hcontent : content.toList ≠ tag.toList := fun heq => h (String.toList_injective heq)
  rw [JsonValue.ofPairs, ofValue?, JsonValue.keyed?_ofPairs]
  simp [hcontent.symm, JsonValue.ofText, name?]

theorem ofValue?_content (h : content ≠ tag) (outer : Nat) (name : Text) (value : JsonValue)
    (read : JsonVariant → Option α) :
    ofValue? tag content outer (.ofPairs [(tag, .ofText name), (content, value)]) >>= read =
      read ⟨name, some value, false⟩ := by
  have hcontent : content.toList ≠ tag.toList := fun heq => h (String.toList_injective heq)
  rw [JsonValue.ofPairs, ofValue?, JsonValue.keyed?_ofPairs]
  simp [hcontent, beq_false_of_ne hcontent.symm, JsonValue.ofText, name?, leads]

theorem get?_content (name : Text) (value : JsonValue) (isKept : Bool)
    (read : JsonValue → Option α) : JsonVariant.get? ⟨name, some value, isKept⟩ read = read value :=
  rfl

/-- Fields behind the name of a variant are kept, if none of them lies too deep. -/
theorem ofInline?_ofPairs {fields : List (String × JsonValue)} {outer : Nat}
    (htag : tag ∉ fields.map (·.1))
    (hfields : ∀ field ∈ fields, field.2.isKeepable (outer + 1) = true) (names : List String)
    (isKept : Bool) (name : Text) (read : JsonVariant → Option α) :
    ofInline? tag names isKept outer (.ofPairs ((tag, .ofText name) :: fields)) >>= read =
      read ⟨name, some (.ofPairs fields), true⟩ := by
  have hother : ∀ field ∈ fields, field.1.toList ≠ tag.toList := fun field hfield heq =>
    htag (String.toList_injective heq ▸ List.mem_map_of_mem hfield)
  have hname : (((tag, .ofText name) :: fields).map fun (key, value) =>
      (key.toList, value)).filter (·.1 == tag.toList) =
        [(tag.toList, JsonValue.ofText name)] := by
    have hnone : (fields.map fun (key, value) => (key.toList, value)).filter
        (·.1 == tag.toList) = [] := by
      refine List.filter_eq_nil_iff.2 fun field hfield => ?_
      obtain ⟨pair, hpair, rfl⟩ := List.mem_map.1 hfield
      simpa using hother pair hpair
    rw [List.map_cons, List.filter_cons_of_pos (by simp), hnone]
  have hrest : (((tag, JsonValue.ofText name) :: fields).map fun (key, value) =>
      (some key.toList, value)).filter (fun (key, _) => key != some tag.toList) =
        fields.map fun (key, value) => (some key.toList, value) := by
    rw [List.map_cons, List.filter_cons_of_neg (by simp)]
    refine List.filter_eq_self.2 fun field hfield => ?_
    obtain ⟨pair, hpair, rfl⟩ := List.mem_map.1 hfield
    simpa using hother pair hpair
  have hkept : (fields.map fun (key, value) => (some key.toList, value)).all
      (fun (_, value) => value.isKeepable (outer + 1)) = true := by
    refine List.all_eq_true.2 fun field hfield => ?_
    obtain ⟨pair, hpair, rfl⟩ := List.mem_map.1 hfield
    exact hfields pair hpair
  rw [JsonValue.ofPairs, ofInline?, JsonValue.keyed?_ofPairs]
  simp only [Option.bind_eq_bind, Option.bind_some, hname, hrest, hkept, if_true]
  rfl

end JsonVariant

end QueryTemplate
