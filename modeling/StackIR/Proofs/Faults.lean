import StackIR.Dialect.Stack
import StackIR.Pass
import StackIR.Proofs.Steps

/-! How a split fails.

A split fails exactly if one of the calls that it reaches is malformed, and then with the fault
of the first of them: `Work.split_fails_at_first_fault`. The fault is that of the call as it
stands in the block, whatever was rewritten around it before.
-/

namespace StackIR

variable {dialect : Dialect} {block : Block}

/-- Some reached call is malformed exactly if there is a first one. -/
theorem Block.exists_firstFault?_iff
    : (∃ fault, block.firstFault? dialect = some fault)
      ↔ ∃ call ∈ block.reachedCalls dialect,
          ∃ fault, dialect.slots call = .error fault := by
  simp only [firstFault?, ← Option.isSome_iff_exists, List.findSome?_isSome_iff,
    ← Call.fault?_eq_some_iff]

/-- The first fault is that of a reached call behind well-formed ones. -/
theorem Block.firstFault?_eq_some_iff {fault : CallFault}
    : block.firstFault? dialect = some fault
      ↔ ∃ earlier call later,
          block.reachedCalls dialect = earlier ++ call :: later
          ∧ dialect.slots call = .error fault
          ∧ ∀ other ∈ earlier, ∃ slots, dialect.slots other = .ok slots := by
  simp only [firstFault?, List.findSome?_eq_some_iff, Call.fault?_eq_some_iff,
    Call.fault?_eq_none_iff]

namespace Work

variable {program : Program}

/-- A split that reaches a malformed call reports the first fault and leaves the block. -/
theorem exists_split_eq_error {fault : CallFault}
    (enough : (program.block.boundValues dialect).length ≤ program.names.freeLeft dialect)
    (broken : program.block.firstFault? dialect = some fault)
    : ∃ finish names,
        Work.split dialect program = .error (.failed fault.toError) ⟨program.block, finish⟩
        ∧ program.names.Hands dialect names finish
        ∧ names.length = (program.block.boundValues dialect).length := by
  obtain ⟨finish, names, stops, handed, count⟩ := Block.exists_split_eq_error enough broken
  refine ⟨finish, names, ?_, handed, count⟩
  exact Work.split_eq_error_iff.mpr ⟨rfl, .failed fault, rfl, stops⟩

/-- A split that fails has reached a malformed call. -/
theorem exists_firstFault?_of_error {stop : Stop Error} {after : Program}
    (enough : (program.block.boundValues dialect).length ≤ program.names.freeLeft dialect)
    (fails : Work.split dialect program = .error stop after)
    : ∃ fault, program.block.firstFault? dialect = some fault := by
  cases broken : program.block.firstFault? dialect with
  | some fault => exact ⟨fault, rfl⟩
  | none =>
      obtain ⟨block', finish, names, split, -, -⟩ := Block.exists_split_eq_ok enough broken
      obtain ⟨-, cause, -, stops⟩ := Work.split_eq_error_iff.mp fails
      cases split.symm.trans stops

/-- While names are left for the values that it binds, a split fails exactly if a reached call is
malformed. It reports the fault of the first such call, as it stands in the block. The block
stays as it is, and the supply has handed out one name for each value that was bound before that
call was checked.
-/
theorem split_fails_at_first_fault
    (enough : (program.block.boundValues dialect).length ≤ program.names.freeLeft dialect)
    : ((∃ stop after, Work.split dialect program = .error stop after)
        ↔ ∃ call ∈ program.block.reachedCalls dialect,
            ∃ fault, dialect.slots call = .error fault)
      ∧ ∀ stop after, Work.split dialect program = .error stop after
        → (∃ earlier call later fault,
            program.block.reachedCalls dialect = earlier ++ call :: later
            ∧ (∀ other ∈ earlier, ∃ slots, dialect.slots other = .ok slots)
            ∧ dialect.slots call = .error fault
            ∧ stop = .failed fault.toError)
          ∧ after.block = program.block
          ∧ ∃ names,
              program.names.Hands dialect names after.names
              ∧ names.length = (program.block.boundValues dialect).length := by
  refine ⟨⟨?_, ?_⟩, ?_⟩
  · intro holds
    rcases holds with ⟨stop, after, fails⟩
    exact Block.exists_firstFault?_iff.mp (exists_firstFault?_of_error enough fails)
  · intro malformed
    obtain ⟨fault, broken⟩ := Block.exists_firstFault?_iff.mpr malformed
    obtain ⟨finish, names, fails, -, -⟩ := exists_split_eq_error enough broken
    exact ⟨_, _, fails⟩
  · intro stop after fails
    obtain ⟨fault, broken⟩ := exists_firstFault?_of_error enough fails
    obtain ⟨finish, names, expected, handed, count⟩ := exists_split_eq_error enough broken
    cases fails.symm.trans expected
    obtain ⟨earlier, call, later, reached, faulty, sound⟩ :=
      Block.firstFault?_eq_some_iff.mp broken
    exact ⟨⟨earlier, call, later, fault, reached, sound, faulty, rfl⟩, rfl, names, handed, count⟩

/-- The program `for { } add() { } { }`, `datasize(add())`, `let x := f(g(1), 2)`,
`if h() { pop(add(k(3), 4, 5)) }`, `pop()`. The first malformed call that a split reaches is that
of `add` with three arguments, at a place of its own here.
-/
def brokenAdd : Program :=
  let pop := Callee.builtin .null ⟨22⟩
  let add := Callee.builtin .null ⟨1⟩
  .ofBlock (.ofStmts [
    .loop .null .empty (.call .null add []) .empty .empty,
    .expr .null (.call .null (.builtin .null ⟨37⟩) [.call .null add []]),
    .declareName "x" (.call .null (.ofName "f") [
      .call .null (.ofName "g") [.literal (.number "1")],
      .literal (.number "2")
    ]),
    .branch .null (.call .null (.ofName "h") []) (.ofStmts [
      .expr .null (.call .null pop [
        .call ⟨0, 71, 86⟩ add [
          .call .null (.ofName "k") [.literal (.number "3")],
          .literal (.number "4"),
          .literal (.number "5")
        ]])
    ]),
    .expr .null (.call .null pop [])
  ])

/-- Four names are taken, for `2`, `1`, `g(1)` and `h()`, before the call of `add` is checked. -/
theorem split_fails_at_first_fault_brokenAdd
    : ∃ after,
        Work.split .stack brokenAdd
          = .error (.failed (CallFault.builtinArity ⟨0, 71, 86⟩ "add" 2 3).toError) after
        ∧ after.block = brokenAdd.block
        ∧ ∃ names, brokenAdd.names.Hands .stack names after.names ∧ names.length = 4 := by
  have reserves := Dialect.ofTable_reservesOnly "stack" Dialect.stackBuiltins .ofHandle []
  have enough : (brokenAdd.block.boundValues .stack).length
      ≤ brokenAdd.names.freeLeft .stack :=
    NameSupply.le_freeLeft reserves (by decide)
  have fails : Work.split .stack brokenAdd = .error _ _ := rfl
  obtain ⟨-, report⟩ := split_fails_at_first_fault enough
  obtain ⟨-, same, names, handed, count⟩ := report _ _ fails
  exact ⟨_, fails, same, names, handed, count⟩

end Work
end StackIR
