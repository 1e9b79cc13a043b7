/-! Bounded search for the least number that passes a test. -/

namespace StackIR

/-- The least number that passes `test`, of the first `tries` numbers from `start` on. -/
def leastFrom? (test : Nat → Bool) : (tries start : Nat) → Option Nat
  | 0, _ => none
  | tries + 1, start => if test start then some start else leastFrom? test tries (start + 1)

/-- The search finds the number that passes the test when all smaller ones fail it. -/
theorem leastFrom?_eq_some_iff {test : Nat → Bool} {tries start n : Nat}
    : leastFrom? test tries start = some n
      ↔ start ≤ n ∧ n < start + tries ∧ test n = true
        ∧ ∀ m, start ≤ m → m < n → test m = false := by
  induction tries generalizing start with
  | zero =>
      simp only [leastFrom?, reduceCtorEq, false_iff]
      omega
  | succ tries ih =>
      rw [leastFrom?]
      split
      · next passes =>
          constructor
          · intro holds
            cases holds
            exact ⟨Nat.le_refl _, by omega, passes, by omega⟩
          · intro holds
            rcases holds with ⟨le, -, -, least⟩
            rcases Nat.eq_or_lt_of_le le with rfl | later
            · rfl
            · exact absurd passes (by simp [least start (Nat.le_refl _) later])
      · next fails =>
          rw [ih]
          constructor
          · intro holds
            rcases holds with ⟨le, lt, passes, least⟩
            refine ⟨by omega, by omega, passes, fun m from_ below => ?_⟩
            rcases Nat.eq_or_lt_of_le from_ with rfl | later
            · exact Bool.eq_false_iff.mpr fails
            · exact least m later below
          · intro holds
            rcases holds with ⟨le, lt, passes, least⟩
            have passed : start ≠ n := fun same => fails (same ▸ passes)
            exact ⟨by omega, by omega, passes, fun m from_ => least m (by omega)⟩

/-- The search succeeds if some number within reach passes the test. -/
theorem leastFrom?_isSome {test : Nat → Bool} {tries start n : Nat}
    (le : start ≤ n) (lt : n < start + tries) (passes : test n = true)
    : (leastFrom? test tries start).isSome = true := by
  induction tries generalizing start with
  | zero => omega
  | succ tries ih =>
      rw [leastFrom?]
      split
      · rfl
      · next fails =>
          have passed : start ≠ n := fun same => fails (same ▸ passes)
          exact ih (by omega) (by omega)

/-- A search that finds a number leaves one number less to find: behind the one that it finds
there are all others that pass the test.
-/
theorem countP_range'_of_leastFrom? {test : Nat → Bool} {tries start n : Nat}
    (found : leastFrom? test tries start = some n)
    : (List.range' start tries).countP test
      = (List.range' (n + 1) (start + tries - (n + 1))).countP test + 1 := by
  induction tries generalizing start with
  | zero => cases found
  | succ tries ih =>
      rw [leastFrom?] at found
      rw [List.range'_succ]
      split at found
      · next passes =>
          cases found
          have left : n + (tries + 1) - (n + 1) = tries := by omega
          rw [List.countP_cons_of_pos passes, left]
      · next fails =>
          have below := ih found
          have left : start + 1 + tries - (n + 1) = start + (tries + 1) - (n + 1) := by omega
          rw [List.countP_cons_of_neg fails, below, left]

end StackIR
