import StackIR.SplitForm
import StackIR.Splitting

/-! Passes: named transformations of a program, each with a check of the shape it leaves
behind.
-/

namespace StackIR

/-- A program in work: its block, and the supply of names for that block. -/
structure Program where
  block : Block
  names : NameSupply

theorem Program.mk_eq_iff {block : Block} {names : NameSupply} {program : Program}
    : Program.mk block names = program ↔ block = program.block ∧ names = program.names := by
  cases program
  simp

/-- The program that consists of `block` alone. -/
def Program.ofBlock (block : Block) : Program := ⟨block, .ofBlock block⟩

/-- Work on a program that may stop early. What it changed before stays changed. -/
abbrev Work := EStateM (Stop Error) Program

/-- Work that only looks at the block. -/
def Work.check (test : Block → Except Error Unit) : Work Unit :=
  fun program =>
    match test program.block with
    | .ok () => .ok () program
    | .error error => .error (.failed error) program

/-- Splits the block. If a call is malformed, the block stays as it is and only the names
that were taken are lost.
-/
def Work.split (dialect : Dialect) : Work Unit :=
  fun program =>
    match program.block.split dialect program.names with
    | .ok block names => .ok () ⟨block, names⟩
    | .error stop names => .error (stop.map CallFault.toError) ⟨program.block, names⟩

/-- A split of a program succeeds as the split of its block does. -/
theorem Work.split_eq_ok_iff {dialect : Dialect} {program after : Program}
    : Work.split dialect program = .ok () after
      ↔ program.block.split dialect program.names = .ok after.block after.names := by
  rw [Work.split]
  cases program.block.split dialect program.names with
  | ok block names => simp only [EStateM.Result.ok.injEq, true_and, Program.mk_eq_iff]
  | error stop names => simp only [reduceCtorEq]

/-- A split that stops leaves the block as it was, with what the names have become. -/
theorem Work.split_eq_error_iff {dialect : Dialect} {program after : Program} {stop : Stop Error}
    : Work.split dialect program = .error stop after
      ↔ after.block = program.block
        ∧ ∃ cause : Stop CallFault, stop = cause.map CallFault.toError
          ∧ program.block.split dialect program.names = .error cause after.names := by
  rw [Work.split]
  cases program.block.split dialect program.names with
  | ok block names => simp only [reduceCtorEq, and_false, exists_false]
  | error cause names =>
      simp only [EStateM.Result.error.injEq, Program.mk_eq_iff]
      constructor
      · intro holds
        rcases holds with ⟨rfl, same, rfl⟩
        exact ⟨same.symm, cause, rfl, rfl, rfl⟩
      · intro holds
        rcases holds with ⟨same, other, rfl, rfl, rfl⟩
        exact ⟨rfl, same.symm, rfl⟩

/-- A transformation of programs. `letter` stands for it in sequences, and `verify` checks
the shape that it promises to leave behind.
-/
structure Pass where
  name : String
  letter : Char
  run : Dialect → Work Unit
  verify : Dialect → Block → Except Error Unit

namespace Pass

/-- The pass that brings a program into split form. -/
def splitter : Pass where
  name := "ExpressionSplitter"
  letter := 'x'
  run := Work.split
  verify := fun dialect block => block.ensureSplitForm dialect

/-- All passes that there are. -/
def all : List Pass := [splitter]

/-- The pass with the given letter. -/
def find? (letter : Char) : Option Pass := all.find? (·.letter == letter)

end Pass
end StackIR
