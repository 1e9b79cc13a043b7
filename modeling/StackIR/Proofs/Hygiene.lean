import StackIR.Dialect.Stack
import StackIR.Proofs.Steps
import StackIR.Proofs.Verification

/-! Hygiene: no name of a program is ever handed out.

A program is seeded if its supply knows all names of its block. Whatever is done with a seeded
program leaves it seeded, also when it fails: `Program.hygiene`. The names of a split block are
those of the block and those that the split mints, and nothing was called by these before.
-/

namespace StackIR

-----------------------------------------------------------------------------------------
-- The names of a split block
-----------------------------------------------------------------------------------------

/-- The names that occur in hoists that stand in front of a statement. -/
def Hoist.listNames (hoists : List Hoist) : List Name :=
  Stmt.listNames (hoists.map Hoist.toStmt)

theorem Hoist.listNames_append (front back : List Hoist)
    : Hoist.listNames (front ++ back) = Hoist.listNames front ++ Hoist.listNames back := by
  simp [Hoist.listNames, Stmt.listNames_append]

theorem Hoist.listNames_singleton (hoist : Hoist)
    : Hoist.listNames [hoist] = hoist.name :: hoist.value.names := by
  simp [Hoist.listNames, Hoist.toStmt, Declaration.single, Declaration.toStmt,
    Stmt.listNames, Stmt.names]

open NameSupply

variable {dialect : Dialect} (name : Name)

mutual
/-- A name occurs in hoists or behind them exactly if it occurred before or is minted meanwhile,
by induction over the derivation.
-/
theorem Expr.Flattens.mem_names_iff {start expr hoists flat finish}
    : Expr.Flattens dialect start expr hoists flat finish
      → (name ∈ Hoist.listNames hoists ++ flat.names
        ↔ name ∈ expr.names ∨ minted start finish name = true)
  | .ident | .literal => by
      rw [minted_self]
      simp [Hoist.listNames, Stmt.listNames]
  | .call _ outlined => by
      have inArgs := outlined.mem_names_iff
      simp only [Expr.names, List.mem_append] at inArgs ⊢
      rw [or_left_comm, inArgs, or_assoc]
theorem Expr.ArgsOutline.mem_names_iff {start slots args hoists flat finish}
    : Expr.ArgsOutline dialect start slots args hoists flat finish
      → (name ∈ Hoist.listNames hoists ++ Expr.argNames flat
        ↔ name ∈ Expr.argNames args ∨ minted start finish name = true)
  | .nil => by
      rw [minted_self]
      simp [Hoist.listNames, Stmt.listNames]
  | .literalOnly rest => by
      have inRest := rest.mem_names_iff
      simp only [Expr.argNames, List.mem_append] at inRest ⊢
      rw [or_left_comm, inRest, or_assoc]
  | .outlinable rest first => by
      have inRest := rest.mem_names_iff
      have inFirst := first.mem_names_iff
      rw [rest.grows.minted_eq_or first.grows]
      simp only [Hoist.listNames_append, Expr.argNames, List.mem_append, Bool.or_eq_true]
        at inRest inFirst ⊢
      grind
theorem Expr.Outlines.mem_names_iff {start expr hoists ref finish}
    : Expr.Outlines dialect start expr hoists ref finish
      → (name ∈ Hoist.listNames hoists ++ ref.names
        ↔ name ∈ expr.names ∨ minted start finish name = true)
  | .ident => by
      rw [minted_self]
      simp [Hoist.listNames, Stmt.listNames]
  | .bind _ flattened handed => by
      have inValue := flattened.mem_names_iff
      rw [flattened.grows.minted_eq_or (grows_of_fresh? handed), minted_of_fresh? handed]
      simp only [Hoist.listNames_append, Hoist.listNames_singleton, Expr.names,
        List.mem_append, List.mem_cons, List.not_mem_nil, Bool.or_eq_true,
        decide_eq_true_iff] at inValue ⊢
      grind
end

mutual
theorem Stmt.Splits.mem_names_iff {start stmt hoists stmt' finish}
    : Stmt.Splits dialect start stmt hoists stmt' finish
      → (name ∈ Hoist.listNames hoists ++ stmt'.names
        ↔ name ∈ stmt.names ∨ minted start finish name = true)
  | .expr flattened => flattened.mem_names_iff name
  | .assign flattened | .declare flattened => by
      have inValue := flattened.mem_names_iff name
      simp only [Stmt.names, Option.map_some, Option.getD_some, List.mem_append]
        at inValue ⊢
      rw [or_left_comm, inValue, or_assoc]
  | .declareUnset | .breakLoop | .continueLoop | .leave => by
      rw [minted_self]
      simp [Hoist.listNames, Stmt.listNames]
  | .define inner => by
      have inBody := inner.mem_names_iff
      simp only [Stmt.names, List.mem_append]
      rw [inBody, or_left_comm, or_assoc]
      simp [Hoist.listNames, Stmt.listNames]
  | .block inner => inner.mem_names_iff
  | .branch outlined inner => by
      have inCondition := outlined.mem_names_iff name
      have inBody := inner.mem_names_iff
      rw [outlined.grows.minted_eq_or inner.grows]
      simp only [Stmt.names, List.mem_append, Bool.or_eq_true] at inCondition ⊢
      grind
  | .switch outlined inner => by
      have inSubject := outlined.mem_names_iff name
      have inCases := inner.mem_names_iff
      rw [outlined.grows.minted_eq_or inner.grows]
      simp only [Stmt.names, List.mem_append, Bool.or_eq_true] at inSubject ⊢
      grind
  | .loop first second third => by
      have inPre := first.mem_names_iff
      have inPost := second.mem_names_iff
      have inBody := third.mem_names_iff
      rw [(first.grows.trans second.grows).minted_eq_or third.grows,
        first.grows.minted_eq_or second.grows]
      simp only [Stmt.names, Hoist.listNames, Stmt.listNames, List.map_nil, List.nil_append,
        List.mem_append, Bool.or_eq_true]
      grind
/-- The names of a split block are those of the block and those that the split mints. -/
theorem Block.Splits.mem_names_iff {start block block' finish}
    : Block.Splits dialect start block block' finish
      → (name ∈ block'.names ↔ name ∈ block.names ∨ minted start finish name = true)
  | .mk inner => inner.mem_names_iff
theorem Stmt.ListSplits.mem_names_iff {start stmts stmts' finish}
    : Stmt.ListSplits dialect start stmts stmts' finish
      → (name ∈ Stmt.listNames stmts'
        ↔ name ∈ Stmt.listNames stmts ∨ minted start finish name = true)
  | .nil => by simp [minted_self]
  | .cons first rest => by
      have inFirst := first.mem_names_iff
      have inRest := rest.mem_names_iff
      rw [first.grows.minted_eq_or rest.grows]
      simp only [Stmt.listNames_append, Stmt.listNames, Hoist.listNames, List.mem_append,
        Bool.or_eq_true] at inFirst ⊢
      grind
theorem Stmt.CasesSplit.mem_names_iff {start cases cases' finish}
    : Stmt.CasesSplit dialect start cases cases' finish
      → (name ∈ Stmt.caseNames cases'
        ↔ name ∈ Stmt.caseNames cases ∨ minted start finish name = true)
  | .nil => by simp [minted_self]
  | .cons first rest => by
      have inFirst := first.mem_names_iff
      have inRest := rest.mem_names_iff
      rw [first.grows.minted_eq_or rest.grows]
      simp only [Stmt.caseNames, List.mem_append, Bool.or_eq_true]
      grind
end

-----------------------------------------------------------------------------------------
-- Seeded programs stay seeded
-----------------------------------------------------------------------------------------

/-- The supply of the program knows every name of its block. -/
def Program.Seeded (program : Program) : Prop :=
  ∀ name ∈ program.block.nameSet, name ∈ program.names.used

theorem Program.seeded_iff {program : Program}
    : program.Seeded ↔ program.names.Knows program.block.names := by
  simp only [Seeded, Knows, Block.mem_nameSet]

/-- The program that work leaves behind, also when it stops. -/
def Work.leaves (work : Work Unit) (program : Program) : Program :=
  match work program with
  | .ok () after => after
  | .error _ after => after

/-- Work on a program with the property leaves a program with the property. -/
def Work.Keeps (property : Program → Prop) (work : Work Unit) : Prop :=
  ∀ program, property program → property (work.leaves program)

namespace Work.Keeps

variable {property : Program → Prop}

/-- Two works after each other keep what both keep. The second is not done if the first stops. -/
theorem bind {first second : Work Unit} (firstKeeps : first.Keeps property)
    (secondKeeps : second.Keeps property)
    : Work.Keeps property (do first; second) := by
  intro program holds
  have between := firstKeeps program holds
  change property (leaves (EStateM.bind first fun _ => second) program)
  simp only [leaves, EStateM.bind] at between ⊢
  cases run : first program with
  | ok value after =>
      rw [run] at between
      exact secondKeeps after between
  | error stop after =>
      rw [run] at between
      exact between

/-- Work on a list keeps what the work on each of its elements keeps. -/
theorem forM {α : Type} {items : List α} {work : α → Work Unit}
    (each : ∀ item ∈ items, (work item).Keeps property)
    : Work.Keeps property (items.forM work) := by
  induction items with
  | nil => exact fun _ holds => holds
  | cons item items ih =>
      obtain ⟨here, there⟩ := List.forall_mem_cons.mp each
      exact here.bind (ih there)

/-- A check leaves the program as it is. -/
theorem check (test : Block → Except Error Unit) : (Work.check test).Keeps property := by
  intro program holds
  simp only [leaves, Work.check]
  cases test program.block <;> exact holds

/-- A split keeps a program seeded. Witness: it mints all names that it adds, and one that fails
adds none.
-/
theorem split : (Work.split dialect).Keeps Program.Seeded := by
  intro program seeded
  have known := Program.seeded_iff.mp seeded
  refine Program.seeded_iff.mpr ?_
  simp only [leaves]
  cases run : Work.split dialect program with
  | ok value after =>
      have derived := Block.split_eq_ok_iff.mp (Work.split_eq_ok_iff.mp run)
      intro name occurs
      rcases (derived.mem_names_iff name).mp occurs with old | isMinted
      · exact derived.grows name (known name old)
      · exact (minted_iff.mp isMinted).1
  | error stop after =>
      obtain ⟨sameBlock, cause, -, stops⟩ := Work.split_eq_error_iff.mp run
      obtain ⟨names, handed⟩ := Block.exists_hands_of_error stops
      rw [sameBlock]
      exact known.grow handed.grows

/-- A sequence of passes keeps a program seeded, verified or not, since it consists of splits. -/
theorem runSequence (settings : Settings) (letters : String)
    : (Pass.runSequence settings dialect letters).Keeps Program.Seeded := by
  cases parsed : Pass.parseSequence letters.toList with
  | error error =>
      intro program seeded
      rw [leaves, Pass.runSequence, parsed]
      exact seeded
  | ok passes =>
      have splitters := Pass.eq_splitter_of_parseSequence parsed
      intro program seeded
      rw [leaves, Pass.runSequence_of_parsed parsed]
      refine forM (fun pass member => ?_) program seeded
      rw [splitters pass member, Pass.runWith]
      refine split.bind ?_
      split
      · exact check _
      · exact fun _ holds => holds

end Work.Keeps

/-- What may be done with a program whose block is not replaced from outside. -/
inductive Action where
  | split
  | sequence (settings : Settings) (letters : String)
  /-- A fresh name is asked for; without a hint, the hint is empty. -/
  | newName (hint : Name)
  | markUsed (name : Name)

/-- The work that the action is. -/
def Action.work (dialect : Dialect) : Action → Work Unit
  | .split => Work.split dialect
  | .sequence settings letters => Pass.runSequence settings dialect letters
  | .newName hint => fun program =>
      match program.names.freshFor? dialect hint with
      | some (_, names) => .ok () { program with names }
      | none => .error .noFreeName program
  | .markUsed name => fun program =>
      .ok () { program with names := program.names.markUsed name }

/-- The program after the actions, each done with what the one before has left. -/
def Program.after (dialect : Dialect) (program : Program) (actions : List Action) : Program :=
  actions.foldl (fun program action => (action.work dialect).leaves program) program

/-- Every action keeps a program seeded. -/
theorem Action.keeps_seeded (action : Action) : (action.work dialect).Keeps Program.Seeded := by
  cases action with
  | split => exact .split
  | sequence settings letters => exact .runSequence settings letters
  | newName hint =>
      intro program seeded
      simp only [Work.leaves, work]
      cases handed : program.names.freshFor? dialect hint with
      | none => exact seeded
      | some pair =>
          obtain ⟨fresh, names⟩ := pair
          exact fun name occurs =>
            (mem_used_of_freshFor? handed).mpr (.inr (seeded name occurs))
  | markUsed name =>
      intro program seeded
      exact fun other occurs => mem_used_markUsed.mpr (.inr (seeded other occurs))

/-- So does every history of actions, by induction on the actions. -/
theorem Program.Seeded.after {program : Program} (seeded : program.Seeded)
    (actions : List Action)
    : (program.after dialect actions).Seeded := by
  induction actions generalizing program with
  | nil => exact seeded
  | cons action actions ih => exact ih (action.keeps_seeded program seeded)

/-- Of a successful split, the names that the supply hands out are all that the block gains. -/
theorem Program.exists_hands_of_split {program after : Program}
    (split : Work.split dialect program = .ok () after)
    : ∃ minted,
        program.names.Hands dialect minted after.names
        ∧ ∀ name, name ∈ after.block.nameSet
          ↔ name ∈ program.block.nameSet ∨ name ∈ minted := by
  have run := Work.split_eq_ok_iff.mp split
  have derived := Block.split_eq_ok_iff.mp run
  obtain ⟨minted, handed⟩ := Block.exists_hands_of_ok run
  refine ⟨minted, handed, fun name => ?_⟩
  rw [Block.mem_nameSet, Block.mem_nameSet, derived.mem_names_iff name, handed.minted_iff]

/-- The program that consists of a block alone is seeded, and every history of actions keeps a
seeded program seeded, failed splits included. A split that succeeds mints distinct names that
are not empty, not reserved, and were not used before, least of all in the block. The names of
the split block are those of the block and the minted ones, and no others.
-/
theorem Program.hygiene (dialect : Dialect)
    : (∀ block, (Program.ofBlock block).Seeded)
      ∧ ∀ program : Program, program.Seeded
        → (∀ actions, (program.after dialect actions).Seeded)
          ∧ ∀ after, Work.split dialect program = .ok () after
            → ∃ minted,
                program.names.Hands dialect minted after.names
                ∧ minted.Nodup
                ∧ (∀ name ∈ minted,
                    name ≠ "" ∧ dialect.isReserved name = false
                    ∧ name ∉ program.names.used ∧ name ∉ program.block.nameSet)
                ∧ ∀ name, name ∈ after.block.nameSet
                  ↔ name ∈ program.block.nameSet ∨ name ∈ minted := by
  refine ⟨fun block => Program.seeded_iff.mpr fun name => mem_used_ofBlock.mpr, ?_⟩
  intro program seeded
  refine ⟨seeded.after, ?_⟩
  intro after split
  obtain ⟨minted, handed, sameNames⟩ := Program.exists_hands_of_split split
  obtain ⟨distinct, unused⟩ := handed.nodup
  refine ⟨minted, handed, distinct, ?_, sameNames⟩
  intro name member
  obtain ⟨nonempty, unreserved⟩ := handed.legal name member
  exact ⟨nonempty, unreserved, unused name member, fun old => unused name member (seeded name old)⟩

/-- The program `let _1 := f(g(2))` after a request for the name `f`, the use of `_3` elsewhere,
and a sequence that names no pass.
-/
def Program.busy : Program :=
  (Program.ofBlock (.ofStmts [.declareName "_1"
    (.call .null (.ofName "f") [.call .null (.ofName "g") [.literal (.number "2")]])])).after
    .stack [.newName "f", .markUsed "_3", .sequence ⟨true⟩ "q"]

/-- A split of the program goes around `_1`, `f_1` and `_3`. -/
theorem Program.hygiene_busy
    : ∃ after,
        Work.split .stack busy = .ok () after
        ∧ after.block = .ofStmts [
            .declareName "_2" (.literal (.number "2")),
            .declareName "_4" (.call .null (.ofName "g") [.ofName "_2"]),
            .declareName "_1" (.call .null (.ofName "f") [.ofName "_4"])]
        ∧ after.Seeded
        ∧ ∃ minted,
            busy.names.Hands .stack minted after.names
            ∧ minted.Nodup
            ∧ (∀ name ∈ minted, name ∉ busy.names.used)
            ∧ ∀ name, name ∈ after.block.nameSet ↔ name ∈ busy.block.nameSet ∨ name ∈ minted := by
  obtain ⟨seededBlock, keeps⟩ := Program.hygiene .stack
  have seeded : busy.Seeded := (keeps _ (seededBlock _)).1 _
  have split : Work.split .stack busy = .ok () _ := rfl
  have stillSeeded := (keeps _ seeded).1 [.split]
  obtain ⟨minted, handed, distinct, fresh, sameNames⟩ := (keeps _ seeded).2 _ split
  exact ⟨_, split, by decide, stillSeeded, minted, handed, distinct,
    fun name member => (fresh name member).2.2.1, sameNames⟩

end StackIR
