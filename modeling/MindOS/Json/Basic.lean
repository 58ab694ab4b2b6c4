import MindOS.Text.Basic

/-!
# JSON

## JSON values

The value type of `serde_json` with the accessors the daemon uses. Indexing is
total, as it is there: a missing key, or an index into something that is not an
object, reads as `null`. An object is its list of fields in key order, each key
once.
-/

/-- A JSON value. A float is kept by its printed form, which nothing computes with. -/
inductive Json where
  | null
  | bool (b : Bool)
  | int (n : Int)
  | float (printed : Text)
  | str (s : Text)
  | arr (items : List Json)
  | obj (fields : List (Text × Json))

namespace Json

/-- `value["key"]`. -/
def get (v : Json) (key : Text) : Json :=
  match v with
  | obj fields => (fields.lookup key).getD null
  | _ => null

def asStr : Json → Option Text
  | str s => some s
  | _ => none

def asBool : Json → Option Bool
  | bool b => some b
  | _ => none

def asArray : Json → Option (List Json)
  | arr items => some items
  | _ => none

/-- `as_u64`. -/
def asU64 : Json → Option Nat
  | int n => if 0 ≤ n ∧ n < 2 ^ 64 then some n.toNat else none
  | _ => none

/-- `value["key"].as_str()`. -/
def getStr (v : Json) (key : Text) : Option Text := (v.get key).asStr

/-- A field set in an object, in key order. -/
def setField (key : Text) (v : Json) : List (Text × Json) → List (Text × Json)
  | [] => [(key, v)]
  | (k, w) :: rest =>
      if k = key then (key, v) :: rest
      else if key < k then (key, v) :: (k, w) :: rest
      else (k, w) :: setField key v rest

/-- The strings of an array, other items left out. -/
def strings (items : List Json) : List Text := items.filterMap asStr

/-!
## Objects with named fields

A record is written as an object of its named fields, together with all other fields that it was
read with, and read back from it: a field that is not there has its default.
-/

/-- A field of an object, or its default. -/
def optional {α : Type} (fields : List (Text × Json)) (key : Text) (default : α)
    (read : Json → Option α) : Option α :=
  match fields.lookup key with
  | none => some default
  | some v => read v

/-- The fields of an object with some of them set. -/
def withFields (named extra : List (Text × Json)) : List (Text × Json) :=
  named.foldr (fun field fields => setField field.1 field.2 fields) extra

/-- What a record has been read with apart from its named fields. -/
structure Extra (names : List Text) where
  fields : List (Text × Json) := []
  other : ∀ field ∈ fields, field.1 ∉ names := by simp

variable {names : List Text}

/-- All fields of an object but the named ones. -/
def Extra.ofFields (fields : List (Text × Json)) : Extra names where
  fields := fields.filter fun field => decide (field.1 ∉ names)
  other _ h := of_decide_eq_true (List.mem_filter.mp h).2

theorem Extra.ext {e e' : Extra names} (h : e.fields = e'.fields) : e = e' := by
  cases e
  cases e'
  cases h
  rfl

theorem lookup_cons (key : Text) (v : Json) (fields : List (Text × Json)) (k : Text) :
    ((key, v) :: fields).lookup k = if k = key then some v else fields.lookup k := by
  rw [List.lookup_cons]
  by_cases hk : k = key
  · rw [beq_iff_eq.mpr hk, if_pos hk]
  · rw [beq_false_of_ne hk, if_neg hk]

theorem lookup_setField (key : Text) (v : Json) (fields : List (Text × Json)) (k : Text) :
    (setField key v fields).lookup k = if k = key then some v else fields.lookup k := by
  induction fields with
  | nil => exact lookup_cons key v [] k
  | cons field fields ih =>
      obtain ⟨key', w⟩ := field
      rw [setField]
      split
      case isTrue hkey =>
        subst hkey
        rw [lookup_cons, lookup_cons]
        split <;> rfl
      case isFalse hkey =>
        split
        case isTrue => exact lookup_cons key v _ k
        case isFalse =>
          rw [lookup_cons, lookup_cons, ih]
          by_cases hk : k = key'
          · rw [if_pos hk, if_pos hk, if_neg fun h => hkey (hk.symm.trans h)]
          · rw [if_neg hk, if_neg hk]

theorem lookup_withFields (named extra : List (Text × Json)) (k : Text) :
    (withFields named extra).lookup k = (named.lookup k).or (extra.lookup k) := by
  induction named with
  | nil => rfl
  | cons field named ih =>
      obtain ⟨key, v⟩ := field
      rw [withFields, List.foldr_cons, lookup_setField, ← withFields, ih, lookup_cons]
      split <;> rfl

theorem optional_withFields {α : Type} {named extra : List (Text × Json)} {key : Text} {v : Json}
    (h : named.lookup key = some v) (default : α) (read : Json → Option α) :
    optional (withFields named extra) key default read = read v := by
  rw [optional, lookup_withFields, h, Option.some_or]

theorem filter_setField {key : Text} (hkey : key ∈ names) (v : Json) (fields : List (Text × Json)) :
    (setField key v fields).filter (fun field => decide (field.1 ∉ names)) =
      fields.filter fun field => decide (field.1 ∉ names) := by
  induction fields with
  | nil => simp [setField, hkey]
  | cons field fields ih =>
      obtain ⟨key', w⟩ := field
      rw [setField]
      split
      case isTrue h =>
        subst h
        simp [hkey]
      case isFalse =>
        split
        case isTrue => simp [hkey]
        case isFalse => rw [List.filter_cons, List.filter_cons, ih]

theorem ofFields_withFields {named : List (Text × Json)}
    (h : (named.all fun field => decide (field.1 ∈ names)) = true) (extra : Extra names) :
    Extra.ofFields (withFields named extra.fields) = extra := by
  refine Extra.ext ?_
  change List.filter _ _ = _
  induction named with
  | nil => exact List.filter_eq_self.mpr fun field hfield =>
    decide_eq_true (extra.other field hfield)
  | cons field named ih =>
      rw [List.all_cons, Bool.and_eq_true, decide_eq_true_iff] at h
      rw [withFields, List.foldr_cons, filter_setField h.1, ← withFields, ih h.2]

theorem mapM_read {α : Type} {write : α → Json} {read : Json → Option α} {items : List α}
    (h : ∀ a ∈ items, read (write a) = some a) : (items.map write).mapM read = some items := by
  induction items with
  | nil => rfl
  | cons a items ih =>
      obtain ⟨ha, hitems⟩ := List.forall_mem_cons.mp h
      rw [List.map_cons, List.mapM_cons, ha, ih hitems]
      rfl

end Json
