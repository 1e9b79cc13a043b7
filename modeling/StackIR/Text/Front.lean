import StackIR.Text.Decimal

/-! What stands at the front of a text: a fixed word, or a numeral.

Reading a word cuts exactly that word off (`afterWord?_eq_some_iff`), and reading a count
cuts off the longest run of digits (`leadingCount?_eq_some_iff`).
-/

namespace StackIR

/-- The text that follows `word`, if the text starts with `word`. -/
def afterWord? (word text : List Char) : Option (List Char) :=
  if word.isPrefixOf text then some (text.drop word.length) else none

/-- The numeral below `2 ^ 64` at the front of a text, and the text behind its last digit.
-/
def leadingCount? (text : List Char) : Option (UInt64 × List Char) :=
  let numeral := text.takeWhile Char.isDigit
  if Decimal.isNumeral numeral ∧ Decimal.value numeral < UInt64.size then
    some (.ofNat (Decimal.value numeral), text.dropWhile Char.isDigit)
  else
    none

theorem afterWord?_eq_some_iff {word text rest : List Char}
    : afterWord? word text = some rest ↔ text = word ++ rest := by
  simp only [afterWord?, List.isPrefixOf_iff_prefix]
  constructor
  · intro found
    split at found
    · next starts =>
        rcases starts with ⟨behind, rfl⟩
        simpa using found
    · contradiction
  · intro same
    subst same
    simp

theorem afterWord?_append (word rest : List Char) : afterWord? word (word ++ rest) = some rest :=
  afterWord?_eq_some_iff.mpr rfl

/-- A run of digits that no digit follows is cut off whole. -/
theorem takeWhile_dropWhile_digits {numeral rest : List Char}
    (digits : ∀ c ∈ numeral, c.isDigit = true) (stop : ∀ c ∈ rest.head?, c.isDigit = false)
    : (numeral ++ rest).takeWhile Char.isDigit = numeral
      ∧ (numeral ++ rest).dropWhile Char.isDigit = rest := by
  rw [List.takeWhile_append_of_pos digits, List.dropWhile_append_of_pos digits]
  cases rest with
  | nil => simp
  | cons c rest => simp [stop c rfl]

theorem leadingCount?_eq_some_iff {text rest : List Char} {count : UInt64}
    : leadingCount? text = some (count, rest)
      ↔ ∃ numeral,
          Decimal.isNumeral numeral = true
          ∧ Decimal.value numeral = count.toNat
          ∧ (∀ c ∈ rest.head?, c.isDigit = false)
          ∧ text = numeral ++ rest := by
  constructor
  · intro found
    simp only [leadingCount?] at found
    split at found
    · next fits =>
        rcases fits with ⟨isNumeral, bound⟩
        simp only [Option.some.injEq, Prod.mk.injEq] at found
        rcases found with ⟨rfl, rfl⟩
        refine ⟨_, isNumeral, ?_, ?_, (List.takeWhile_append_dropWhile).symm⟩
        · exact (Nat.mod_eq_of_lt bound).symm
        · intro c first
          have stops := List.head?_dropWhile_not Char.isDigit text
          rwa [Option.mem_def.mp first] at stops
    · contradiction
  · intro holds
    rcases holds with ⟨numeral, isNumeral, value, stop, rfl⟩
    have digits : ∀ c ∈ numeral, c.isDigit = true := by
      simp only [Decimal.isNumeral, Bool.and_eq_true, List.all_eq_true] at isNumeral
      exact isNumeral.2
    obtain ⟨taken, left⟩ := takeWhile_dropWhile_digits digits stop
    simp only [leadingCount?, taken, left, isNumeral, true_and]
    rw [if_pos (by rw [value]; exact count.toNat_lt), value, UInt64.ofNat_toNat]

end StackIR
