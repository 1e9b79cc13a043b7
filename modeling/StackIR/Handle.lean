import StackIR.Name
import StackIR.Text.Front

/-! Handles of the functions that the target machine provides.

A builtin is known by its place in a table; a verbatim function is known by how many stack
items it takes and leaves, and its name spells the two counts. Reading a name inverts
writing it: `VerbatimHandle.ofName?_name`.
-/

namespace StackIR

/-- The place of a builtin in the table of its dialect. -/
structure BuiltinHandle where
  index : UInt64
deriving DecidableEq, Repr

instance : Ord BuiltinHandle := ⟨fun a b => compare a.index b.index⟩

/-- A function of raw code that takes `inputs` items from the stack and leaves `outputs`.
-/
structure VerbatimHandle where
  inputs : UInt64
  outputs : UInt64
deriving DecidableEq, Repr

/-- Handles are ordered by inputs, and by outputs among equal inputs. -/
instance : Ord VerbatimHandle :=
  ⟨fun a b => (compare a.inputs b.inputs).then (compare a.outputs b.outputs)⟩

namespace VerbatimHandle

/-- The word with which the name of every verbatim function starts. -/
def leadingWord : List Char := ['v', 'e', 'r', 'b', 'a', 't', 'i', 'm', '_']

/-- The characters of `verbatim_<inputs>i_<outputs>o`. -/
def nameChars (handle : VerbatimHandle) : List Char :=
  leadingWord ++ (Decimal.digits handle.inputs.toNat
    ++ 'i' :: '_' :: (Decimal.digits handle.outputs.toNat ++ ['o']))

/-- The name `verbatim_<inputs>i_<outputs>o`. -/
def name (handle : VerbatimHandle) : Name := String.ofList handle.nameChars

/-- The handle whose name the characters spell, leading zeros allowed. -/
def ofChars? (chars : List Char) : Option VerbatimHandle := do
  let inputs ← leadingCount? (← afterWord? leadingWord chars)
  let outputs ← leadingCount? (← afterWord? ['i', '_'] inputs.2)
  if outputs.2 = ['o'] then some ⟨inputs.1, outputs.1⟩ else none

/-- The handle that `name` spells, leading zeros allowed. -/
def ofName? (name : Name) : Option VerbatimHandle := ofChars? name.toList

/-- The characters spell the name of the handle, each count by any numeral of its value.
-/
def Spelled (chars : List Char) (handle : VerbatimHandle) : Prop :=
  ∃ inputs outputs : List Char,
    Decimal.isNumeral inputs = true ∧ Decimal.value inputs = handle.inputs.toNat
    ∧ Decimal.isNumeral outputs = true ∧ Decimal.value outputs = handle.outputs.toNat
    ∧ chars = leadingWord ++ (inputs ++ 'i' :: '_' :: (outputs ++ ['o']))

theorem ofChars?_eq_some_iff {chars : List Char} {handle : VerbatimHandle}
    : ofChars? chars = some handle ↔ Spelled chars handle := by
  constructor
  · intro found
    simp only [ofChars?, Option.bind_eq_bind, Option.bind_eq_some_iff, Prod.exists] at found
    rcases found with ⟨text, word, inputs, rest, first, rest', infixed, outputs, last, second, found⟩
    split at found
    · next atEnd =>
        cases atEnd
        obtain ⟨numeral, isNumeral, value, -, rfl⟩ := leadingCount?_eq_some_iff.mp first
        obtain ⟨numeral', isNumeral', value', -, rfl⟩ := leadingCount?_eq_some_iff.mp second
        cases afterWord?_eq_some_iff.mp word
        cases afterWord?_eq_some_iff.mp infixed
        cases found
        exact ⟨numeral, numeral', isNumeral, value, isNumeral', value', rfl⟩
    · contradiction
  · intro holds
    rcases holds with ⟨numeral, numeral', isNumeral, value, isNumeral', value', rfl⟩
    have first : leadingCount? (numeral ++ 'i' :: '_' :: (numeral' ++ ['o']))
        = some (handle.inputs, 'i' :: '_' :: (numeral' ++ ['o'])) :=
      leadingCount?_eq_some_iff.mpr ⟨numeral, isNumeral, value, by simp, rfl⟩
    have second : leadingCount? (numeral' ++ ['o']) = some (handle.outputs, ['o']) :=
      leadingCount?_eq_some_iff.mpr ⟨numeral', isNumeral', value', by simp, rfl⟩
    have infixed : afterWord? ['i', '_'] ('i' :: '_' :: (numeral' ++ ['o']))
        = some (numeral' ++ ['o']) := afterWord?_append ['i', '_'] _
    simp only [ofChars?, Option.bind_eq_bind, afterWord?_append, Option.bind_some, first,
      infixed, second, if_true]

theorem spelled_nameChars (handle : VerbatimHandle) : Spelled handle.nameChars handle :=
  ⟨_, _, Decimal.isNumeral_digits _, Decimal.value_digits _, Decimal.isNumeral_digits _,
    Decimal.value_digits _, rfl⟩

/-- Every handle is found again under its own name. -/
theorem ofName?_name (handle : VerbatimHandle) : ofName? handle.name = some handle := by
  rw [ofName?, name, String.toList_ofList]
  exact ofChars?_eq_some_iff.mpr (spelled_nameChars handle)

/-- The name of a verbatim function ends in a letter, so no numbered name is one. -/
theorem ofChars?_append_digits (chars : List Char) (n : Nat)
    : ofChars? (chars ++ Decimal.digits n) = none := by
  refine Option.eq_none_iff_forall_ne_some.mpr fun handle found => ?_
  obtain ⟨inputs, outputs, -, -, -, -, same⟩ := ofChars?_eq_some_iff.mp found
  have last := congrArg List.getLast? same
  obtain ⟨front, digit, split⟩ :=
    (Decimal.digits n).eq_nil_or_concat.resolve_left (Decimal.digits_ne_nil n)
  have isDigit : digit.isDigit = true :=
    Decimal.isDigit_of_mem_digits (n := n) (split ▸ by simp)
  simp only [split, List.getLast?_append, Option.some_or,
    List.getLast?_cons] at last
  simp_all

end VerbatimHandle
end StackIR
