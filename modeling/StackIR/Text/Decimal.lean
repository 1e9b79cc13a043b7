/-! Decimal numerals: the shortest text of a number, and the value of any run of digits.
-/

namespace StackIR.Decimal

/-- The digits of `n`, most significant first, with no leading zero unless `n` is zero. -/
def digits (n : Nat) : List Char := Nat.toDigits 10 n

/-- The text of `n` in decimal. -/
def text (n : Nat) : String := String.ofList (digits n)

/-- A numeral is a non-empty run of the ASCII digits; leading zeros are allowed. -/
def isNumeral (chars : List Char) : Bool := !chars.isEmpty && chars.all Char.isDigit

/-- The value of a numeral. -/
def value (chars : List Char) : Nat := Nat.ofDigitChars 10 chars 0

theorem toList_text (n : Nat) : (text n).toList = digits n := String.toList_ofList

theorem isDigit_of_mem_digits {n : Nat} {c : Char} (h : c ∈ digits n) : c.isDigit = true :=
  Nat.isDigit_of_mem_toDigits (by decide) (by decide) h

theorem digits_ne_nil (n : Nat) : digits n ≠ [] := Nat.toDigits_ne_nil

/-- A number is written in one line. -/
theorem newline_not_mem_digits (n : Nat) : '\n' ∉ digits n := by
  intro member
  cases isDigit_of_mem_digits member

/-- The digits of a number are a numeral. -/
theorem isNumeral_digits (n : Nat) : isNumeral (digits n) = true := by
  simpa [isNumeral, digits_ne_nil] using fun c => isDigit_of_mem_digits (n := n) (c := c)

/-- Reading the digits of a number gives the number back. -/
theorem value_digits (n : Nat) : value (digits n) = n :=
  Nat.ofDigitChars_toDigits (by decide) (by decide)

theorem digits_inj {m n : Nat} : digits m = digits n ↔ m = n :=
  ⟨fun h => by rw [← value_digits m, h, value_digits], fun h => h ▸ rfl⟩

end StackIR.Decimal
