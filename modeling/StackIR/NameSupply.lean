import StackIR.Dialect
import StackIR.Occurrence
import StackIR.Search

/-! A supply of names that no one has used yet.

The supply remembers every name that was ever used and the number of the last candidate it
tried. A wanted name that is not free is numbered: `x`, then `x_1`, `x_2`, and so on, with
one counter for all wanted names. Numbers are below `2 ^ 64`. As long as enough of them are
left, a dialect that reserves finitely many names besides verbatim names leaves a free
candidate: `freshFor?_isSome`.
-/

namespace StackIR

/-- All names used so far, and the number of the last candidate tried. -/
structure NameSupply where
  used : NameSet
  counter : Nat

namespace NameSupply

/-- The supply for a program in which `names` are used. -/
def ofNames (names : List Name) : NameSupply := ⟨.ofList names, 0⟩

/-- The supply for a program that consists of `block`. -/
def ofBlock (block : Block) : NameSupply := ⟨block.nameSet, 0⟩

def isUsed (supply : NameSupply) (name : Name) : Bool := supply.used.contains name

/-- Registers a name that came from elsewhere. -/
def markUsed (supply : NameSupply) (name : Name) : NameSupply :=
  { supply with used := supply.used.insert name }

/-- A free name is not empty, not used, and not reserved. -/
def isFree (dialect : Dialect) (supply : NameSupply) (name : Name) : Bool :=
  !name.isEmpty && !supply.isUsed name && !dialect.isReserved name

/-- The `n`-th stand-in for the name `hint`. -/
def candidate (hint : Name) (n : Nat) : Name :=
  String.ofList (hint.toList ++ '_' :: Decimal.digits n)

/-- How many numbers are left for candidates. -/
def numbersLeft (supply : NameSupply) : Nat := UInt64.size - 1 - supply.counter

/-- The number of the next free candidate for `hint`, unless the numbers run out. -/
def nextFree? (dialect : Dialect) (supply : NameSupply) (hint : Name) : Option Nat :=
  leastFrom? (fun n => supply.isFree dialect (candidate hint n)) supply.numbersLeft
    (supply.counter + 1)

/-- Hands out `hint` if it is free, else its next free candidate. -/
def freshFor? (dialect : Dialect) (hint : Name) (supply : NameSupply)
    : Option (Name × NameSupply) :=
  if supply.isFree dialect hint then
    some (hint, supply.markUsed hint)
  else
    (supply.nextFree? dialect hint).map fun n =>
      (candidate hint n, { supply with counter := n }.markUsed (candidate hint n))

/-- Hands out the next of `_1`, `_2`, … that is free. -/
def fresh? (dialect : Dialect) (supply : NameSupply) : Option (Name × NameSupply) :=
  supply.freshFor? dialect ""

theorem isUsed_iff {supply : NameSupply} {name : Name}
    : supply.isUsed name = true ↔ name ∈ supply.used :=
  Std.TreeSet.contains_iff_mem

theorem mem_used_markUsed {supply : NameSupply} {name other : Name}
    : other ∈ (supply.markUsed name).used ↔ other = name ∨ other ∈ supply.used := by
  rw [markUsed, Std.TreeSet.mem_insert, Std.LawfulEqCmp.compare_eq_iff_eq, eq_comm]

theorem mem_used_ofNames {names : List Name} {name : Name}
    : name ∈ (ofNames names).used ↔ name ∈ names := by
  simp [ofNames, Std.TreeSet.mem_ofList]

theorem mem_used_ofBlock {block : Block} {name : Name}
    : name ∈ (ofBlock block).used ↔ name ∈ block.names :=
  Block.mem_nameSet

theorem isFree_iff {dialect : Dialect} {supply : NameSupply} {name : Name}
    : supply.isFree dialect name = true
      ↔ name ≠ "" ∧ name ∉ supply.used ∧ dialect.isReserved name = false := by
  have unused : supply.isUsed name = false ↔ name ∉ supply.used := by
    rw [Bool.eq_false_iff, ne_eq, isUsed_iff]
  simp [isFree, unused, and_assoc]

/-- Either the wanted name is free and handed out, or its next free candidate is. -/
theorem freshFor?_eq_some_iff {dialect : Dialect} {hint name : Name} {supply next : NameSupply}
    : supply.freshFor? dialect hint = some (name, next)
      ↔ supply.isFree dialect hint = true ∧ name = hint ∧ next = supply.markUsed hint
        ∨ supply.isFree dialect hint = false
          ∧ ∃ n, supply.nextFree? dialect hint = some n ∧ name = candidate hint n
            ∧ next = { supply with counter := n }.markUsed name := by
  rw [freshFor?]
  split
  · next free => simp [free, eq_comm]
  · next taken =>
      simp only [taken, Option.map_eq_some_iff, Prod.mk.injEq, Bool.false_eq_true, false_and,
        false_or, true_and]
      constructor
      · intro holds
        rcases holds with ⟨n, found, rfl, rfl⟩
        exact ⟨n, found, rfl, rfl⟩
      · intro holds
        rcases holds with ⟨n, found, rfl, rfl⟩
        exact ⟨n, found, rfl, rfl⟩

/-- A name that is handed out was free before. -/
theorem isFree_of_freshFor? {dialect : Dialect} {hint name : Name} {supply next : NameSupply}
    (handed : supply.freshFor? dialect hint = some (name, next))
    : supply.isFree dialect name = true := by
  rcases freshFor?_eq_some_iff.mp handed with ⟨free, rfl, -⟩ | ⟨-, n, found, rfl, -⟩
  · exact free
  · exact (leastFrom?_eq_some_iff.mp found).2.2.1

/-- A name that is handed out is the one name that becomes used. -/
theorem mem_used_of_freshFor? {dialect : Dialect} {hint name other : Name}
    {supply next : NameSupply} (handed : supply.freshFor? dialect hint = some (name, next))
    : other ∈ next.used ↔ other = name ∨ other ∈ supply.used := by
  rcases freshFor?_eq_some_iff.mp handed with ⟨-, rfl, rfl⟩ | ⟨-, n, -, rfl, rfl⟩
  · exact mem_used_markUsed
  · exact mem_used_markUsed

theorem counter_le_of_freshFor? {dialect : Dialect} {hint name : Name}
    {supply next : NameSupply} (handed : supply.freshFor? dialect hint = some (name, next))
    : supply.counter ≤ next.counter := by
  rcases freshFor?_eq_some_iff.mp handed with ⟨-, -, rfl⟩ | ⟨-, n, found, -, rfl⟩
  · exact Nat.le_refl _
  · exact Nat.le_of_succ_le (leastFrom?_eq_some_iff.mp found).1

-----------------------------------------------------------------------------------------
-- A free candidate is within reach
-----------------------------------------------------------------------------------------

theorem candidate_inj {hint : Name} {m n : Nat}
    : candidate hint m = candidate hint n ↔ m = n := by
  simp [candidate, String.ofList_inj, Decimal.digits_inj]

theorem candidate_ne_empty (hint : Name) (n : Nat) : candidate hint n ≠ "" := by
  intro empty
  have chars := congrArg String.toList empty
  simp [candidate, String.toList_ofList] at chars

/-- A numbered name is reserved only if it is listed, because verbatim names end in a
letter.
-/
theorem mem_listed_of_isReserved_candidate {dialect : Dialect} {listed : List Name}
    {hint : Name} {n : Nat} (reserves : dialect.ReservesOnly listed)
    (isReserved : dialect.isReserved (candidate hint n) = true)
    : candidate hint n ∈ listed := by
  refine (reserves _ isReserved).resolve_right ?_
  have notVerbatim := VerbatimHandle.ofChars?_append_digits (hint.toList ++ ['_']) n
  simp_all [VerbatimHandle.ofName?, candidate, String.toList_ofList]

/-- The names that can stand in the way of a candidate: those in use and the listed ones. -/
def blocked (supply : NameSupply) (listed : List Name) : NameSet :=
  supply.used.insertMany listed

theorem mem_blocked {supply : NameSupply} {listed : List Name} {name : Name}
    : name ∈ supply.blocked listed ↔ name ∈ supply.used ∨ name ∈ listed := by
  rw [blocked, Std.TreeSet.mem_insertMany_list, List.contains_iff_mem]

theorem size_blocked_le (supply : NameSupply) (listed : List Name)
    : (supply.blocked listed).size ≤ supply.used.size + listed.length :=
  Std.TreeSet.size_insertMany_list_le

/-- No more candidates are taken than there are used and listed names: candidates of different
numbers are different names, and each that is taken is used or listed.
-/
theorem length_le_of_not_free {dialect : Dialect} {listed : List Name}
    (reserves : dialect.ReservesOnly listed) (supply : NameSupply) (hint : Name)
    {numbers : List Nat} (distinct : numbers.Nodup)
    (taken : ∀ n ∈ numbers, supply.isFree dialect (candidate hint n) = false)
    : numbers.length ≤ (supply.blocked listed).size := by
  have distinctNames : (numbers.map (candidate hint)).Nodup :=
    List.Pairwise.map _ (fun _ _ differ same => differ (candidate_inj.mp same)) distinct
  have usedOrListed : numbers.map (candidate hint) ⊆ (supply.blocked listed).toList := by
    intro name member
    obtain ⟨n, inNumbers, rfl⟩ := List.mem_map.mp member
    have notFree := Bool.eq_false_iff.mp (taken n inNumbers)
    rw [ne_eq, isFree_iff] at notFree
    rw [Std.TreeSet.mem_toList, mem_blocked]
    apply Classical.byContradiction
    intro neither
    refine notFree ⟨candidate_ne_empty hint n, fun used => neither (.inl used), ?_⟩
    exact Bool.eq_false_iff.mpr fun isReserved =>
      neither (.inr (mem_listed_of_isReserved_candidate reserves isReserved))
  have bound := distinctNames.length_le_of_subset usedOrListed
  simpa only [List.length_map, Std.TreeSet.length_toList] using bound

/-- One candidate more than there are used and listed names is enough, since not all of them
can be taken.
-/
theorem exists_isFree_candidate {dialect : Dialect} {listed : List Name}
    (reserves : dialect.ReservesOnly listed) (supply : NameSupply) (hint : Name)
    (start : Nat)
    : ∃ n, start ≤ n ∧ n ≤ start + (supply.blocked listed).size
        ∧ supply.isFree dialect (candidate hint n) = true := by
  apply Classical.byContradiction
  intro noneFree
  let numbers := List.range' start ((supply.blocked listed).size + 1)
  have taken : ∀ n ∈ numbers, supply.isFree dialect (candidate hint n) = false := by
    intro n inRange
    have bounds := List.mem_range'_1.mp inRange
    exact Bool.eq_false_iff.mpr fun free => noneFree ⟨n, bounds.1, by omega, free⟩
  have bound := length_le_of_not_free reserves supply hint List.nodup_range' taken
  rw [List.length_range'] at bound
  omega

/-- A name can be handed out while numbers are left for all names that may be taken. -/
theorem freshFor?_isSome {dialect : Dialect} {listed : List Name}
    (reserves : dialect.ReservesOnly listed) (hint : Name) {supply : NameSupply}
    (left : supply.used.size + listed.length < supply.numbersLeft)
    : (supply.freshFor? dialect hint).isSome = true := by
  have size := size_blocked_le supply listed
  rw [freshFor?]
  split
  · rfl
  · obtain ⟨n, le, bound, free⟩ :=
      exists_isFree_candidate reserves supply hint (supply.counter + 1)
    simpa only [Option.isSome_map, nextFree?] using leastFrom?_isSome le (by omega) free

end NameSupply
end StackIR
