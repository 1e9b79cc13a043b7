import Mathlib.Data.List.Basic
import StackIR.Dialect

/-! Names of verbatim functions, read by cutting at their fixed parts.

The first word and the last letter are cut off, and what is left is cut where `i_` first occurs;
both parts must be digits, and each is the text of a number below `2 ^ 64`. A cut cannot go wrong,
because a run of digits holds no letter: the cuts read exactly the spellings of handles, as does
reading from the front (`ofName?_reads_spellings`).
-/

namespace StackIR

-----------------------------------------------------------------------------------------
-- Counts
-----------------------------------------------------------------------------------------

namespace Decimal

/-- A count followed by one more digit, as long as it stays below `2 ^ 64`. -/
def pushDigit? (count : UInt64) (c : Char) : Option UInt64 :=
  if c.isDigit && 10 * count.toNat + (c.toNat - '0'.toNat) < UInt64.size then
    some (.ofNat (10 * count.toNat + (c.toNat - '0'.toNat)))
  else
    none

/-- The number below `2 ^ 64` that a text spells. A plus sign may stand in front of the digits. -/
def count? (text : List Char) : Option UInt64 :=
  let digits := if text.head? = some '+' then text.tail else text
  if digits.isEmpty then none else digits.foldlM pushDigit? 0

theorem le_ofDigitChars (digits : List Char) (start : Nat)
    : start ≤ Nat.ofDigitChars 10 digits start := by
  induction digits generalizing start with
  | nil => simp
  | cons c digits ih =>
      rw [Nat.ofDigitChars_cons]
      exact Nat.le_trans (by omega) (ih _)

/-- Digits are read one after the other. No number on the way is larger than the last one, so the
bound is kept at each step if it is kept at the end.
-/
theorem foldlM_pushDigit?_eq_some_iff {digits : List Char} {start count : UInt64}
    (areDigits : ∀ c ∈ digits, c.isDigit = true)
    : digits.foldlM pushDigit? start = some count
      ↔ Nat.ofDigitChars 10 digits start.toNat = count.toNat := by
  induction digits generalizing start with
  | nil => simp [UInt64.toNat_inj]
  | cons c digits ih =>
      have isDigit := areDigits c List.mem_cons_self
      have laterDigits : ∀ d ∈ digits, d.isDigit = true := fun d member =>
        areDigits d (List.mem_cons_of_mem _ member)
      rw [List.foldlM_cons, Nat.ofDigitChars_cons, pushDigit?, isDigit, Bool.true_and]
      generalize 10 * start.toNat + (c.toNat - '0'.toNat) = next
      by_cases fits : next < UInt64.size
      · have read : (UInt64.ofNat next).toNat = next := Nat.mod_eq_of_lt fits
        rw [if_pos (decide_eq_true fits), Option.bind_eq_bind, Option.bind_some,
          ih laterDigits, read]
      · rw [if_neg (by simpa using fits)]
        refine iff_of_false (by simp) fun same => ?_
        have grown := le_ofDigitChars digits next
        have bound : count.toNat < UInt64.size := count.toNat_lt
        omega

/-- A numeral spells its value, if that is below `2 ^ 64`. -/
theorem count?_eq_some_iff {numeral : List Char} {count : UInt64}
    (isNumeral : isNumeral numeral = true)
    : count? numeral = some count ↔ value numeral = count.toNat := by
  simp only [Decimal.isNumeral, Bool.and_eq_true, Bool.not_eq_true', List.isEmpty_eq_false_iff,
    List.all_eq_true] at isNumeral
  obtain ⟨filled, areDigits⟩ := isNumeral
  have noSign : numeral.head? ≠ some '+' := by
    intro sign
    cases areDigits '+' (List.mem_of_head? sign)
  simp only [count?, if_neg noSign, List.isEmpty_eq_false_iff.mpr filled, value]
  exact foldlM_pushDigit?_eq_some_iff areDigits

end Decimal

-----------------------------------------------------------------------------------------
-- Cuts
-----------------------------------------------------------------------------------------

namespace VerbatimHandle

/-- The handle whose name the characters spell, found by cutting off the first word and the last
letter, and cutting what is left where `i_` first occurs.
-/
def ofCuts? (chars : List Char) : Option VerbatimHandle := do
  let behindWord ← chars.dropPrefix? leadingWord
  let inside ← behindWord.dropSuffix? ['o']
  let (inputs, outputs) ← inside.dropInfix? ['i', '_']
  if Decimal.isNumeral inputs && Decimal.isNumeral outputs then
    return ⟨← Decimal.count? inputs, ← Decimal.count? outputs⟩
  else
    none

/-- The separator first occurs behind the digits that stand in front of it, because they hold no
letter.
-/
theorem dropInfix?_of_isNumeral {inputs : List Char} (isNumeral : Decimal.isNumeral inputs = true)
    (outputs : List Char)
    : (inputs ++ 'i' :: '_' :: outputs).dropInfix? ['i', '_'] = some (inputs, outputs) := by
  simp only [Decimal.isNumeral, Bool.and_eq_true, List.all_eq_true] at isNumeral
  rw [List.dropInfix?_eq_some_iff]
  refine ⟨⟨['i', '_'], by simp, by simp⟩, fun front separator back split isSeparator => ?_⟩
  cases eq_of_beq isSeparator
  by_contra shorter
  have letter : inputs[front.length]? = some 'i' := by
    have both := congrArg (·[front.length]?) split
    simpa [List.getElem?_append_left (Nat.lt_of_not_le shorter)] using both
  cases isNumeral.2 'i' (List.mem_of_getElem? letter)

theorem ofCuts?_eq_some_iff {chars : List Char} {handle : VerbatimHandle}
    : ofCuts? chars = some handle ↔ Spelled chars handle := by
  constructor
  · intro found
    simp only [ofCuts?, Option.bind_eq_bind, Option.bind_eq_some_iff, Prod.exists] at found
    obtain ⟨behindWord, word, inside, letter, inputs, outputs, cut, found⟩ := found
    split at found
    · next areNumerals =>
        obtain ⟨isNumeral, isNumeral'⟩ := Bool.and_eq_true_iff.mp areNumerals
        simp only [Option.bind_eq_some_iff, Option.pure_def, Option.some.injEq] at found
        obtain ⟨first, firstCount, second, secondCount, rfl⟩ := found
        obtain ⟨start, rfl, isWord⟩ := List.dropPrefix?_eq_some_iff.mp word
        obtain ⟨last, rfl, isLetter⟩ := List.dropSuffix?_eq_some_iff.mp letter
        obtain ⟨⟨separator, rfl, isSeparator⟩, -⟩ := List.dropInfix?_eq_some_iff.mp cut
        cases eq_of_beq isWord
        cases eq_of_beq isLetter
        cases eq_of_beq isSeparator
        exact ⟨inputs, outputs, isNumeral, (Decimal.count?_eq_some_iff isNumeral).mp firstCount,
          isNumeral', (Decimal.count?_eq_some_iff isNumeral').mp secondCount, by simp⟩
    · contradiction
  · intro spelled
    obtain ⟨inputs, outputs, isNumeral, value, isNumeral', value', rfl⟩ := spelled
    have word : (leadingWord ++ (inputs ++ 'i' :: '_' :: (outputs ++ ['o']))).dropPrefix?
          leadingWord = some (inputs ++ 'i' :: '_' :: (outputs ++ ['o'])) :=
      List.dropPrefix?_append_of_beq _ (beq_self_eq_true _)
    have letter : (inputs ++ 'i' :: '_' :: (outputs ++ ['o'])).dropSuffix? ['o']
        = some (inputs ++ 'i' :: '_' :: outputs) :=
      List.dropSuffix?_eq_some_iff.mpr ⟨['o'], by simp, beq_self_eq_true _⟩
    have first := (Decimal.count?_eq_some_iff isNumeral).mpr value
    have second := (Decimal.count?_eq_some_iff isNumeral').mpr value'
    simp only [ofCuts?, word, letter, dropInfix?_of_isNumeral isNumeral, isNumeral, isNumeral',
      first, second, Option.bind_eq_bind, Option.bind_some, Bool.and_self, if_true,
      Option.pure_def]

/-- Reading from the front finds what the cuts find. -/
theorem ofCuts?_eq_ofChars? (chars : List Char) : ofCuts? chars = ofChars? chars :=
  Option.ext fun _ => ofCuts?_eq_some_iff.trans ofChars?_eq_some_iff.symm

theorem ofChars?_eq_none_iff {chars : List Char}
    : ofChars? chars = none
      ↔ ∀ inputs outputs : List Char,
        Decimal.isNumeral inputs = true → Decimal.isNumeral outputs = true
        → chars = leadingWord ++ (inputs ++ 'i' :: '_' :: (outputs ++ ['o']))
        → UInt64.size ≤ Decimal.value inputs ∨ UInt64.size ≤ Decimal.value outputs := by
  simp only [Option.eq_none_iff_forall_ne_some, ne_eq, ofChars?_eq_some_iff]
  constructor
  · intro unspelled inputs outputs isNumeral isNumeral' same
    by_contra small
    rw [not_or, Nat.not_le, Nat.not_le] at small
    exact unspelled ⟨.ofNat (Decimal.value inputs), .ofNat (Decimal.value outputs)⟩
      ⟨inputs, outputs, isNumeral, (Nat.mod_eq_of_lt small.1).symm, isNumeral',
        (Nat.mod_eq_of_lt small.2).symm, same⟩
  · intro large handle spelled
    obtain ⟨inputs, outputs, isNumeral, value, isNumeral', value', same⟩ := spelled
    have boundInputs : handle.inputs.toNat < UInt64.size := handle.inputs.toNat_lt
    have boundOutputs : handle.outputs.toNat < UInt64.size := handle.outputs.toNat_lt
    rcases large inputs outputs isNumeral isNumeral' same with large | large <;> omega

/-- A name is read as a handle exactly if it is `verbatim_`, a numeral of the inputs, `i_`, a
numeral of the outputs, and `o`. Any other name is read as none: one of another form, and one in
which a numeral is `2 ^ 64` or more. Cutting the name at its fixed parts reads the same. So every
handle is read off its own name, and different handles have different names.
-/
theorem ofName?_reads_spellings
    : (∀ (name : Name) (handle : VerbatimHandle),
        ofName? name = some handle ↔ Spelled name.toList handle)
      ∧ (∀ name : Name,
        ofName? name = none
        ↔ ∀ inputs outputs : List Char,
          Decimal.isNumeral inputs = true → Decimal.isNumeral outputs = true
          → name.toList = leadingWord ++ (inputs ++ 'i' :: '_' :: (outputs ++ ['o']))
          → UInt64.size ≤ Decimal.value inputs ∨ UInt64.size ≤ Decimal.value outputs)
      ∧ (∀ name : Name, ofCuts? name.toList = ofName? name)
      ∧ (∀ handle : VerbatimHandle, ofName? handle.name = some handle)
      ∧ Function.Injective VerbatimHandle.name := by
  refine ⟨fun _ _ => ofChars?_eq_some_iff, fun _ => ofChars?_eq_none_iff,
    fun _ => ofCuts?_eq_ofChars? _, ofName?_name, fun handle handle' same => ?_⟩
  have found := ofName?_name handle
  rw [same, ofName?_name handle'] at found
  exact (Option.some.inj found).symm

/-- The digits of `2 ^ 64 - 1`. -/
def largestCount : List Char := Decimal.digits (UInt64.size - 1)

/-- The digits of `2 ^ 64`. -/
def firstTooLarge : List Char := Decimal.digits UInt64.size

/-- Leading zeros are allowed, and a count may be `2 ^ 64 - 1` but not `2 ^ 64`. -/
theorem ofName?_reads_spellings_largest
    : ofName? "verbatim_007i_18446744073709551615o" = some ⟨7, .ofNat (UInt64.size - 1)⟩
      ∧ ofName? "verbatim_007i_18446744073709551616o" = none
      ∧ (UInt64.size ≤ Decimal.value ['0', '0', '7']
        ∨ UInt64.size ≤ Decimal.value firstTooLarge) := by
  have tooLarge : ofName? "verbatim_007i_18446744073709551616o" = none := by decide
  refine ⟨?_, tooLarge, ?_⟩
  · exact (ofName?_reads_spellings.1 _ _).mpr
      ⟨['0', '0', '7'], largestCount, by decide, by decide, by decide, by decide, by decide⟩
  · exact (ofName?_reads_spellings.2.1 _).mp tooLarge ['0', '0', '7'] firstTooLarge
      (by decide) (by decide) (by decide)

end VerbatimHandle
end StackIR
