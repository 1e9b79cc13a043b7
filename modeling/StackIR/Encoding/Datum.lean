/-! Trees of data, the form in which nodes are exchanged.

A record is read field by field: fields that no one asks for do not matter, and some
fields may be left out. The readers of nested data say that what they find is smaller than
what they search, so that decoders may recurse on it.
-/

namespace StackIR

inductive Datum where
  | null
  | bool (value : Bool)
  | number (value : Int)
  /-- A number that is not written as a whole number. -/
  | fraction (text : String)
  | string (text : String)
  | list (items : List Datum)
  | record (fields : List (String × Datum))

namespace Datum

instance : Inhabited Datum := ⟨null⟩

/-- A record with one field, which tells a variant by its name. -/
def variant (tag : String) (content : Datum) : Datum := .record [(tag, content)]

def ofNat (n : Nat) : Datum := .number n

/-- `null` stands for nothing. -/
def ofOption {α : Type} (encode : α → Datum) : Option α → Datum
  | none => .null
  | some value => encode value

def ofList {α : Type} (encode : α → Datum) (values : List α) : Datum :=
  .list (values.map encode)

def string? : Datum → Option String
  | .string text => some text
  | _ => none

def bool? : Datum → Option Bool
  | .bool value => some value
  | _ => none

/-- A whole number from `low` to below `bound`. -/
def intWithin? (low bound : Int) : Datum → Option Int
  | .number value => if low ≤ value ∧ value < bound then some value else none
  | _ => none

/-- A whole number from zero to below `bound`. -/
def natBelow? (bound : Nat) : Datum → Option Nat
  | .number (.ofNat n) => if n < bound then some n else none
  | _ => none

def word64? (datum : Datum) : Option UInt64 :=
  (datum.natBelow? UInt64.size).map UInt64.ofNat

def word32? (datum : Datum) : Option UInt32 :=
  (datum.natBelow? UInt32.size).map UInt32.ofNat

theorem word64?_ofNat (n : UInt64) : (ofNat n.toNat).word64? = some n := by
  simp [ofNat, word64?, natBelow?, n.toNat_lt]

theorem word32?_ofNat (n : UInt32) : (ofNat n.toNat).word32? = some n := by
  simp [ofNat, word32?, natBelow?, n.toNat_lt]

abbrev Fields := List (String × Datum)

def items? : Datum → Option (List Datum)
  | .list items => some items
  | _ => none

def fields? : Datum → Option Fields
  | .record fields => some fields
  | _ => none

/-- A list all of whose items can be decoded. -/
def listOf? {α : Type} (decode : Datum → Option α) (datum : Datum) : Option (List α) := do
  (← datum.items?).mapM decode

/-- `null` stands for nothing. -/
def optionOf? {α : Type} (decode : Datum → Option α) : Datum → Option (Option α)
  | .null => some none
  | datum => (decode datum).map some

theorem mapM_map_eq_some {α : Type} {encode : α → Datum} {decode : Datum → Option α}
    (inverse : ∀ value, decode (encode value) = some value) (values : List α)
    : (values.map encode).mapM decode = some values := by
  induction values with
  | nil => rfl
  | cons value rest ih => simp [inverse, ih]

theorem listOf?_ofList {α : Type} {encode : α → Datum} {decode : Datum → Option α}
    (inverse : ∀ value, decode (encode value) = some value) (values : List α)
    : (ofList encode values).listOf? decode = some values := by
  simp [listOf?, ofList, items?, mapM_map_eq_some inverse]

/-- An encoding that never gives `null` may be made optional. -/
theorem optionOf?_ofOption {α : Type} {encode : α → Datum} {decode : Datum → Option α}
    (inverse : ∀ value, decode (encode value) = some value)
    (notNull : ∀ value, encode value ≠ .null) (value? : Option α)
    : (ofOption encode value?).optionOf? decode = some value? := by
  cases value? with
  | none => rfl
  | some value =>
      rw [ofOption, optionOf?]
      · rw [inverse, Option.map_some]
      · exact notNull value

namespace Fields

/-- The content of a field that has to be there. -/
def read {α : Type} (key : String) (decode : Datum → Option α) (fields : Fields) : Option α :=
  (fields.lookup key).bind decode

/-- The content of a field that may be left out or hold `null`. -/
def readOption {α : Type} (key : String) (decode : Datum → Option α) (fields : Fields)
    : Option (Option α) :=
  match fields.lookup key with
  | none => some none
  | some datum => datum.optionOf? decode

/-- The content of a field that has a default value if it is left out. -/
def readOr {α : Type} (key : String) (default : α) (decode : Datum → Option α)
    (fields : Fields) : Option α :=
  match fields.lookup key with
  | none => some default
  | some datum => decode datum

theorem sizeOf_lt_of_lookup {key : String} {fields : Fields} {datum : Datum}
    (found : fields.lookup key = some datum)
    : sizeOf datum < sizeOf fields := by
  induction fields with
  | nil => simp at found
  | cons field rest ih =>
      rcases field with ⟨key', datum'⟩
      rw [List.lookup_cons] at found
      split at found
      · simp only [Option.some.injEq] at found
        subst found
        simp only [List.cons.sizeOf_spec, Prod.mk.sizeOf_spec]
        omega
      · have := ih found
        simp only [List.cons.sizeOf_spec]
        omega

/-- The fields of a record in a field, which are smaller than the fields around it. -/
def subrecord? (key : String) (fields : Fields)
    : Option { inner : Fields // sizeOf inner < sizeOf fields } :=
  match found : fields.lookup key with
  | some (.record inner) =>
      some ⟨inner, by
        have smaller := sizeOf_lt_of_lookup found
        simp only [Datum.record.sizeOf_spec] at smaller
        omega⟩
  | _ => none

/-- The items of a list in a field, which are smaller than the fields around it. -/
def sublist? (key : String) (fields : Fields)
    : Option { items : List Datum // sizeOf items < sizeOf fields } :=
  match found : fields.lookup key with
  | some (.list items) =>
      some ⟨items, by
        have smaller := sizeOf_lt_of_lookup found
        simp only [Datum.list.sizeOf_spec] at smaller
        omega⟩
  | _ => none

end Fields
end Datum
end StackIR
