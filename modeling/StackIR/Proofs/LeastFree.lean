import Mathlib.Logic.Basic
import StackIR.Dialect.Stack
import StackIR.NameSupply

/-! Which name a supply hands out.

A wanted name that is free is handed out itself, and otherwise its least free candidate behind
the counter: `NameSupply.freshFor?_hands_out_least`. A dialect may reserve every verbatim name.
No candidate is one of them, so only used and listed names stand in the way of candidates.
-/

namespace StackIR.NameSupply

/-- For `hint` the supply hands out `name`. Then its counter stands at `counter`, and `name` has
joined the used names, and nothing else has.
-/
def HandsOut (dialect : Dialect) (supply : NameSupply) (hint name : Name) (counter : Nat)
    : Prop :=
  ∃ next,
    supply.freshFor? dialect hint = some (name, next)
    ∧ next.counter = counter
    ∧ ∀ other, other ∈ next.used ↔ other = name ∨ other ∈ supply.used

variable {dialect : Dialect} {supply : NameSupply} {hint : Name} {n : Nat}

/-- A candidate is never empty, so only users and the dialect can take it. -/
theorem isFree_candidate_iff
    : supply.isFree dialect (candidate hint n) = true
      ↔ candidate hint n ∉ supply.used ∧ dialect.isReserved (candidate hint n) = false := by
  rw [isFree_iff, and_iff_right (candidate_ne_empty hint n)]

theorem isFree_candidate_eq_false_iff
    : supply.isFree dialect (candidate hint n) = false
      ↔ candidate hint n ∈ supply.used ∨ dialect.isReserved (candidate hint n) = true := by
  rw [← Bool.not_eq_true, isFree_candidate_iff, not_and_or, Classical.not_not,
    Bool.not_eq_false]

/-- The number of the least free candidate, which is within reach of the search as far as it is
below `2 ^ 64`.
-/
theorem nextFree?_eq_some_iff
    : supply.nextFree? dialect hint = some n
      ↔ supply.counter < n ∧ n < UInt64.size ∧ supply.isFree dialect (candidate hint n) = true
        ∧ ∀ m, supply.counter < m → m < n → supply.isFree dialect (candidate hint m) = false := by
  have reach : supply.counter < n
      → (n < supply.counter + 1 + supply.numbersLeft ↔ n < UInt64.size) := by
    intro behind
    simp only [numbersLeft, UInt64.size]
    omega
  rw [nextFree?, leastFrom?_eq_some_iff, Nat.succ_le_iff]
  exact and_congr_right fun behind => and_congr_left fun _ => reach behind

/-- Some candidate behind the counter is free and the least such. The bound is the number of
names that can stand in the way.
-/
theorem exists_least_candidate {listed : List Name} (reserves : dialect.ReservesOnly listed)
    (supply : NameSupply) (hint : Name)
    : ∃ n, supply.counter < n
        ∧ n ≤ supply.counter + 1 + (supply.blocked listed).size
        ∧ supply.isFree dialect (candidate hint n) = true
        ∧ ∀ m, supply.counter < m → m < n
          → supply.isFree dialect (candidate hint m) = false := by
  obtain ⟨reached, le, bound, free⟩ :=
    exists_isFree_candidate reserves supply hint (supply.counter + 1)
  have succeeds : (leastFrom? (fun n => supply.isFree dialect (candidate hint n))
      ((supply.blocked listed).size + 1) (supply.counter + 1)).isSome = true :=
    leastFrom?_isSome le (by omega) free
  obtain ⟨n, found⟩ := Option.isSome_iff_exists.mp succeeds
  obtain ⟨from_, below, isFree, least⟩ := leastFrom?_eq_some_iff.mp found
  exact ⟨n, from_, by omega, isFree, least⟩

/-- A free name is handed out as it is wanted. -/
theorem handsOut_self (free : supply.isFree dialect hint = true)
    : supply.HandsOut dialect hint hint supply.counter :=
  ⟨supply.markUsed hint, freshFor?_eq_some_iff.mpr (.inl ⟨free, rfl, rfl⟩), rfl,
    fun _ => mem_used_markUsed⟩

/-- A name that is not free is handed out as the candidate that the search finds. -/
theorem handsOut_candidate (taken : supply.isFree dialect hint = false)
    (found : supply.nextFree? dialect hint = some n)
    : supply.HandsOut dialect hint (candidate hint n) n :=
  ⟨{ supply with counter := n }.markUsed (candidate hint n),
    freshFor?_eq_some_iff.mpr (.inr ⟨taken, n, found, rfl, rfl⟩), rfl,
    fun _ => mem_used_markUsed⟩

/-- With a dialect that reserves the listed names and verbatim names alone, a wanted name is
handed out itself if it is not empty, not used and not reserved, and the counter stays. Otherwise
it is the least candidate behind the counter that is neither used nor reserved, and the counter
goes there. One number more than there are used and listed names is always enough, and the name is
handed out as long as that number is below `2 ^ 64`.
-/
theorem freshFor?_hands_out_least {listed : List Name} (reserves : dialect.ReservesOnly listed)
    (supply : NameSupply) (hint : Name)
    : (hint ≠ "" ∧ hint ∉ supply.used ∧ dialect.isReserved hint = false
        → supply.HandsOut dialect hint hint supply.counter)
      ∧ (hint = "" ∨ hint ∈ supply.used ∨ dialect.isReserved hint = true
        → ∃ n, supply.counter < n
            ∧ n ≤ supply.counter + 1 + (supply.blocked listed).size
            ∧ candidate hint n ∉ supply.used
            ∧ dialect.isReserved (candidate hint n) = false
            ∧ (∀ m, supply.counter < m → m < n
              → candidate hint m ∈ supply.used ∨ dialect.isReserved (candidate hint m) = true)
            ∧ (n < UInt64.size → supply.HandsOut dialect hint (candidate hint n) n)) := by
  constructor
  · intro available
    exact handsOut_self (isFree_iff.mpr available)
  · intro unavailable
    have taken : supply.isFree dialect hint = false := by
      rw [Bool.eq_false_iff, ne_eq, isFree_iff]
      grind
    obtain ⟨n, behind, bound, free, least⟩ := exists_least_candidate reserves supply hint
    obtain ⟨unused, unreserved⟩ := isFree_candidate_iff.mp free
    refine ⟨n, behind, bound, unused, unreserved, ?_, ?_⟩
    · intro m after before
      exact isFree_candidate_eq_false_iff.mp (least m after before)
    · intro inReach
      exact handsOut_candidate taken
        (nextFree?_eq_some_iff.mpr ⟨behind, inReach, free, least⟩)

/-- The stack machine, with a name of its own that it reserves besides those of its builtins. -/
def reservingSecond : Dialect :=
  .ofTable "stack" Dialect.stackBuiltins .ofHandle ["verbatim_2i_1o_2"]

/-- A supply for a program that uses the first candidate for a verbatim name. -/
def usingFirst : NameSupply := .ofNames ["f", "verbatim_2i_1o_1"]

/-- The verbatim name is reserved, its first candidate is used, and the dialect reserves its second
one. The third is handed out.
-/
theorem freshFor?_hands_out_least_verbatim
    : usingFirst.HandsOut reservingSecond "verbatim_2i_1o" "verbatim_2i_1o_3" 3 := by
  have reserves := Dialect.ofTable_reservesOnly "stack" Dialect.stackBuiltins .ofHandle
    ["verbatim_2i_1o_2"]
  have isReserved : reservingSecond.isReserved "verbatim_2i_1o" = true := by decide
  obtain ⟨n, behind, -, unused, unreserved, least, hands⟩ :=
    (freshFor?_hands_out_least reserves usingFirst "verbatim_2i_1o").2 (.inr (.inr isReserved))
  have third : n = 3 := by
    rcases Nat.lt_trichotomy n 3 with before | same | after
    · have positive : 0 < n := behind
      have early : n = 1 ∨ n = 2 := by omega
      rcases early with rfl | rfl
      · exact absurd (mem_used_ofNames.mpr (by decide)) unused
      · exact absurd unreserved (by decide)
    · exact same
    · have free : usingFirst.isFree reservingSecond (candidate "verbatim_2i_1o" 3) = true := by
        decide
      have taken := isFree_candidate_eq_false_iff.mpr (least 3 (by decide) after)
      cases free.symm.trans taken
  subst third
  exact hands (by decide)

end StackIR.NameSupply
