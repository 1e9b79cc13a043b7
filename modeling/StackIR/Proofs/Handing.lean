import StackIR.Proofs.Minting

/-! Names that a supply hands out one after the other.

The names are distinct and were free before, and they are all that becomes used. A supply can
hand out as many names as it has free candidates left: `NameSupply.exists_hands`. With a
dialect that reserves finitely many names besides verbatim names, that is all of its numbers
but one for each used and listed name: `NameSupply.numbersLeft_le`.
-/

namespace StackIR.NameSupply

/-- From `start`, the supply hands out the names in this order, and is left as `finish`. -/
inductive Hands (dialect : Dialect) : NameSupply → List Name → NameSupply → Prop
  | nil {start} : Hands dialect start [] start
  | cons {start name middle names finish} (first : start.fresh? dialect = some (name, middle))
    (rest : Hands dialect middle names finish)
    : Hands dialect start (name :: names) finish

/-- How many names the supply can still hand out: one for each free candidate among the
numbers that are left.
-/
def freeLeft (dialect : Dialect) (supply : NameSupply) : Nat :=
  (List.range' (supply.counter + 1) supply.numbersLeft).countP fun n =>
    supply.isFree dialect (candidate "" n)

variable {dialect : Dialect} {supply start middle finish next : NameSupply}
  {name : Name} {names front back : List Name}

-----------------------------------------------------------------------------------------
-- What is handed out
-----------------------------------------------------------------------------------------

theorem hands_singleton (handed : start.fresh? dialect = some (name, finish))
    : Hands dialect start [name] finish :=
  .cons handed .nil

/-- A concatenation is handed out part by part. -/
theorem hands_append_iff
    : Hands dialect start (front ++ back) finish
      ↔ ∃ middle, Hands dialect start front middle ∧ Hands dialect middle back finish := by
  induction front generalizing start with
  | nil =>
      constructor
      · intro handed
        exact ⟨start, .nil, handed⟩
      · intro holds
        rcases holds with ⟨middle, first, rest⟩
        cases first
        exact rest
  | cons name front ih =>
      constructor
      · intro handed
        obtain - | ⟨first, rest⟩ := handed
        obtain ⟨middle, inFront, inBack⟩ := ih.mp rest
        exact ⟨middle, .cons first inFront, inBack⟩
      · intro holds
        rcases holds with ⟨middle, inFront, inBack⟩
        obtain - | ⟨first, rest⟩ := inFront
        exact .cons first (ih.mpr ⟨middle, rest, inBack⟩)

theorem Hands.append (first : Hands dialect start front middle)
    (second : Hands dialect middle back finish)
    : Hands dialect start (front ++ back) finish :=
  hands_append_iff.mpr ⟨middle, first, second⟩

/-- The names that are handed out are those that become used. -/
theorem Hands.mem_used_iff (handed : Hands dialect start names finish)
    : name ∈ finish.used ↔ name ∈ names ∨ name ∈ start.used := by
  induction handed with
  | nil => simp
  | cons first rest ih =>
      rw [ih, mem_used_of_freshFor? first, List.mem_cons, or_left_comm, or_assoc]

theorem Hands.grows (handed : Hands dialect start names finish) : Grows start finish :=
  fun _ used => handed.mem_used_iff.mpr (.inr used)

/-- No name is handed out twice. Witness: the first of them is used when the others are. -/
theorem Hands.nodup (handed : Hands dialect start names finish)
    : names.Nodup ∧ ∀ name ∈ names, name ∉ start.used := by
  induction handed with
  | nil => simp
  | @cons start name middle names finish first rest ih =>
      obtain ⟨distinct, unused⟩ := ih
      have usedNow : name ∈ middle.used := (mem_used_of_freshFor? first).mpr (.inl rfl)
      have free := isFree_iff.mp (isFree_of_freshFor? first)
      refine ⟨List.nodup_cons.mpr ⟨fun again => unused name again usedNow, distinct⟩, ?_⟩
      refine List.forall_mem_cons.mpr ⟨free.2.1, fun other member used => ?_⟩
      exact unused other member (grows_of_fresh? first other used)

/-- A name that is handed out is neither empty nor reserved. -/
theorem Hands.legal (handed : Hands dialect start names finish)
    : ∀ name ∈ names, name ≠ "" ∧ dialect.isReserved name = false := by
  induction handed with
  | nil => simp
  | cons first rest ih =>
      have free := isFree_iff.mp (isFree_of_freshFor? first)
      exact List.forall_mem_cons.mpr ⟨⟨free.1, free.2.2⟩, ih⟩

/-- The names that are handed out are those that are minted meanwhile. -/
theorem Hands.minted_iff (handed : Hands dialect start names finish)
    : minted start finish name = true ↔ name ∈ names := by
  rw [NameSupply.minted_iff, handed.mem_used_iff]
  have unused := handed.nodup.2 name
  grind

-----------------------------------------------------------------------------------------
-- How much can be handed out
-----------------------------------------------------------------------------------------

/-- Without a wanted name, the next free candidate is handed out. -/
theorem fresh?_eq_some_iff
    : supply.fresh? dialect = some (name, next)
      ↔ ∃ n, supply.nextFree? dialect "" = some n ∧ name = candidate "" n
        ∧ next = { supply with counter := n }.markUsed name := by
  have empty : supply.isFree dialect "" = false := rfl
  simp [fresh?, freshFor?_eq_some_iff, empty]

/-- The other candidates are as free as before. -/
theorem isFree_markUsed {n m : Nat} (other : m ≠ n)
    : ({ supply with counter := n }.markUsed (candidate "" n)).isFree dialect (candidate "" m)
      = supply.isFree dialect (candidate "" m) := by
  have differ : candidate "" m ≠ candidate "" n := fun same => other (candidate_inj.mp same)
  rw [Bool.eq_iff_iff, isFree_iff, isFree_iff, mem_used_markUsed, or_iff_right differ]

/-- Handing out a name costs one free candidate: those that are skipped were not free. -/
theorem freeLeft_of_fresh? (handed : supply.fresh? dialect = some (name, next))
    : supply.freeLeft dialect = next.freeLeft dialect + 1 := by
  obtain ⟨n, found, rfl, rfl⟩ := fresh?_eq_some_iff.mp handed
  have bounds := leastFrom?_eq_some_iff.mp found
  have left : supply.counter + 1 + supply.numbersLeft - (n + 1) = UInt64.size - 1 - n := by
    have below := bounds.2.1
    simp only [numbersLeft] at below ⊢
    omega
  rw [freeLeft, countP_range'_of_leastFrom? found, left, freeLeft]
  refine congrArg Nat.succ (List.countP_congr fun m inRange => ?_)
  have behind := (List.mem_range'_1.mp inRange).1
  rw [isFree_markUsed (by omega)]

/-- A supply with a free candidate left hands out a name. -/
theorem exists_fresh? (left : 0 < supply.freeLeft dialect)
    : ∃ name next, supply.fresh? dialect = some (name, next) := by
  obtain ⟨n, inRange, free⟩ := List.countP_pos_iff.mp left
  obtain ⟨from_, below⟩ := List.mem_range'_1.mp inRange
  have succeeds : (supply.nextFree? dialect "").isSome = true :=
    leastFrom?_isSome from_ below free
  obtain ⟨least, found⟩ := Option.isSome_iff_exists.mp succeeds
  exact ⟨_, _, fresh?_eq_some_iff.mpr ⟨least, found, rfl, rfl⟩⟩

/-- As many names can be handed out as there are free candidates left, by induction on their
number.
-/
theorem exists_hands {count : Nat} (enough : count ≤ supply.freeLeft dialect)
    : ∃ names finish, Hands dialect supply names finish ∧ names.length = count := by
  induction count generalizing supply with
  | zero => exact ⟨[], supply, .nil, rfl⟩
  | succ count ih =>
      obtain ⟨name, next, first⟩ := exists_fresh? (Nat.zero_lt_of_lt enough)
      have left := freeLeft_of_fresh? first
      have enoughNext : count ≤ next.freeLeft dialect := by omega
      obtain ⟨names, finish, rest, length⟩ := ih enoughNext
      exact ⟨name :: names, finish, .cons first rest, congrArg Nat.succ length⟩

/-- All numbers that are left give free candidates, but for one number for each name that is
used or listed as reserved.
-/
theorem numbersLeft_le {listed : List Name} (reserves : dialect.ReservesOnly listed)
    (supply : NameSupply)
    : supply.numbersLeft ≤ supply.freeLeft dialect + (supply.used.size + listed.length) := by
  let numbers := List.range' (supply.counter + 1) supply.numbersLeft
  let isFree := fun n => supply.isFree dialect (candidate "" n)
  have all : numbers.length = numbers.countP isFree + numbers.countP (fun n => !isFree n) := by
    simpa using List.length_eq_countP_add_countP isFree (l := numbers)
  have taken : numbers.countP (fun n => !isFree n) ≤ supply.used.size + listed.length := by
    rw [List.countP_eq_length_filter]
    have distinct := List.Pairwise.filter (fun n => !isFree n) (List.nodup_range' : numbers.Nodup)
    refine Nat.le_trans (length_le_of_not_free reserves supply "" distinct ?_)
      (size_blocked_le supply listed)
    intro n member
    simpa [isFree] using (List.mem_filter.mp member).2
  calc supply.numbersLeft
      = numbers.length := List.length_range'.symm
    _ = numbers.countP isFree + numbers.countP (fun n => !isFree n) := all
    _ ≤ supply.freeLeft dialect + (supply.used.size + listed.length) :=
        Nat.add_le_add_left taken _

/-- With such a dialect, names are left while there are more numbers than names that may be in
their way.
-/
theorem le_freeLeft {listed : List Name} {count : Nat} (reserves : dialect.ReservesOnly listed)
    (inReach : count + (supply.used.size + listed.length) ≤ supply.numbersLeft)
    : count ≤ supply.freeLeft dialect := by
  have bound := numbersLeft_le reserves supply
  omega

end StackIR.NameSupply
