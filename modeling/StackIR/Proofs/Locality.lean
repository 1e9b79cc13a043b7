import Mathlib.Data.List.Forall2
import StackIR.Pass
import StackIR.Proofs.Buffering
import StackIR.Proofs.Placement

/-! Nothing passes between the parts of a split but the supply of names.

Statements that follow one another are split apart, and so is every block inside a statement:
what becomes of it depends only on how many names were taken before, `Work.split_apart`.
-/

namespace StackIR

-----------------------------------------------------------------------------------------
-- Blocks at any depth
-----------------------------------------------------------------------------------------

/-- A block, with the number of values that a split has outlined when it enters the block. -/
structure Block.Entry where
  before : Nat
  block : Block

mutual
/-- The blocks of a statement, if `before` values are outlined before it is visited. -/
def Stmt.entries (dialect : Dialect) (before : Nat) : Stmt → List Block.Entry
  | .define _ _ _ _ body => body.entries dialect before
  | .branch _ condition body =>
      body.entries dialect (before + (condition.outlinedWhole dialect).length)
  | .switch _ subject cases =>
      Stmt.caseEntries dialect (before + (subject.outlinedWhole dialect).length) cases
  | .loop _ pre _ post body =>
      let beforePost := before + (pre.outlined dialect).length
      let beforeBody := beforePost + (post.outlined dialect).length
      pre.entries dialect before
        ++ (post.entries dialect beforePost ++ body.entries dialect beforeBody)
  | .block body => body.entries dialect before
  | _ => []
/-- The block itself and the blocks inside it at any depth, in the order of the text. -/
def Block.entries (dialect : Dialect) (before : Nat) : Block → List Block.Entry
  | ⟨span, stmts⟩ => ⟨before, ⟨span, stmts⟩⟩ :: Stmt.listEntries dialect before stmts
def Stmt.listEntries (dialect : Dialect) (before : Nat) : List Stmt → List Block.Entry
  | [] => []
  | stmt :: rest =>
      stmt.entries dialect before
        ++ Stmt.listEntries dialect (before + (stmt.outlined dialect).length) rest
def Stmt.caseEntries (dialect : Dialect) (before : Nat) : List Case → List Block.Entry
  | [] => []
  | ⟨_, _, body⟩ :: rest =>
      body.entries dialect before
        ++ Stmt.caseEntries dialect (before + (body.outlined dialect).length) rest
end

/-- The supply has become `middle` when it has handed out so many names. -/
def NameSupply.Reaches (dialect : Dialect) (start : NameSupply) (count : Nat)
    (middle : NameSupply) : Prop :=
  ∃ names, start.Hands dialect names middle ∧ names.length = count

/-- The second block is what a split makes of the first one alone, from the supply that is
reached when the first one is entered.
-/
def Block.Entry.SplitsAlone (dialect : Dialect) (start : NameSupply) (entry entry' : Block.Entry)
    : Prop :=
  ∃ middle finish,
    start.Reaches dialect entry.before middle
    ∧ entry.block.split dialect middle = .ok entry'.block finish

variable {dialect : Dialect}

namespace NameSupply

variable {start middle finish : NameSupply} {count more : Nat}

theorem Reaches.refl : start.Reaches dialect 0 start := ⟨[], .nil, rfl⟩

theorem Reaches.trans (first : start.Reaches dialect count middle)
    (second : middle.Reaches dialect more finish)
    : start.Reaches dialect (count + more) finish := by
  obtain ⟨front, handedFront, rfl⟩ := first
  obtain ⟨back, handedBack, rfl⟩ := second
  exact ⟨front ++ back, handedFront.append handedBack, List.length_append⟩

end NameSupply

theorem Hoist.Record.reaches {start finish : NameSupply} {values : List Expr}
    {hoists : List Hoist} (record : Hoist.Record dialect start values hoists finish)
    : start.Reaches dialect values.length finish :=
  ⟨_, record.handed, by rw [List.length_map, record.hold.length_eq]⟩

theorem Expr.Outlines.reaches {start expr hoists ref finish}
    (derived : Expr.Outlines dialect start expr hoists ref finish)
    : start.Reaches dialect (expr.outlinedWhole dialect).length finish :=
  derived.outlined.1.reaches

/-- A split of a statement takes as many names as there are values outlined in it. -/
theorem Stmt.Splits.reaches {start stmt hoists stmt' finish}
    (derived : Stmt.Splits dialect start stmt hoists stmt' finish)
    : start.Reaches dialect (stmt.outlined dialect).length finish := by
  obtain ⟨inner, -, record⟩ := derived.exists_extends Rewrite.outlining_allows
  exact record.reaches

theorem Block.Splits.reaches {start block block' finish}
    (derived : Block.Splits dialect start block block' finish)
    : start.Reaches dialect (block.outlined dialect).length finish := by
  obtain ⟨hoists, -, record⟩ := derived.exists_extends Rewrite.outlining_allows
  exact record.reaches

/-- There are no blocks in hoists. -/
theorem Stmt.listEntries_hoists (hoists : List Hoist) (rest : List Stmt) (before : Nat)
    : Stmt.listEntries dialect before (hoists.map Hoist.toStmt ++ rest)
      = Stmt.listEntries dialect
          (before + (Stmt.listOutlined dialect (hoists.map Hoist.toStmt)).length) rest := by
  induction hoists generalizing before with
  | nil => rfl
  | cons hoist hoists ih =>
      rw [List.map_cons, Stmt.listOutlined, Stmt.listSteps, SplitStep.values_append,
        List.length_append, ← Nat.add_assoc]
      exact ih _

-----------------------------------------------------------------------------------------
-- A split of a block splits the blocks inside it
-----------------------------------------------------------------------------------------

variable {origin : NameSupply}

mutual
/-- A split of a statement that is entered behind `before` names splits each block in it alone,
by induction over the derivation.
-/
theorem Stmt.Splits.entries {start stmt hoists stmt' finish before before'}
    : Stmt.Splits dialect start stmt hoists stmt' finish → origin.Reaches dialect before start
      → List.Forall₂ (Block.Entry.SplitsAlone dialect origin) (stmt.entries dialect before)
          (stmt'.entries dialect before')
  | .expr _, _ | .assign _, _ | .declare _, _ | .declareUnset, _ | .breakLoop, _
  | .continueLoop, _ | .leave, _ => .nil
  | .define inner, reached | .block inner, reached => inner.entries reached
  | .branch outlined inner, reached => inner.entries (reached.trans outlined.reaches)
  | .switch outlined inner, reached => inner.entries (reached.trans outlined.reaches)
  | .loop first second third, reached => by
      have reachedPost := reached.trans first.reaches
      have reachedBody := reachedPost.trans second.reaches
      exact List.rel_append (first.entries reached)
        (List.rel_append (second.entries reachedPost) (third.entries reachedBody))
/-- A block is split alone itself, and so are the blocks inside it. -/
theorem Block.Splits.entries {start block block' finish before before'}
    : Block.Splits dialect start block block' finish → origin.Reaches dialect before start
      → List.Forall₂ (Block.Entry.SplitsAlone dialect origin) (block.entries dialect before)
          (block'.entries dialect before')
  | .mk inner, reached => by
      refine .cons ⟨start, finish, reached, ?_⟩ (inner.entries reached)
      exact Block.split_eq_ok_iff.mpr (.mk inner)
theorem Stmt.ListSplits.entries {start stmts stmts' finish before before'}
    : Stmt.ListSplits dialect start stmts stmts' finish → origin.Reaches dialect before start
      → List.Forall₂ (Block.Entry.SplitsAlone dialect origin)
          (Stmt.listEntries dialect before stmts) (Stmt.listEntries dialect before' stmts')
  | .nil, _ => .nil
  | .cons first rest, reached => by
      rw [Stmt.listEntries_hoists]
      exact List.rel_append (first.entries reached)
        (rest.entries (reached.trans first.reaches))
theorem Stmt.CasesSplit.entries {start cases cases' finish before before'}
    : Stmt.CasesSplit dialect start cases cases' finish → origin.Reaches dialect before start
      → List.Forall₂ (Block.Entry.SplitsAlone dialect origin)
          (Stmt.caseEntries dialect before cases) (Stmt.caseEntries dialect before' cases')
  | .nil, _ => .nil
  | .cons first rest, reached =>
      List.rel_append (first.entries reached) (rest.entries (reached.trans first.reaches))
end

/-- Statements are split part by part. If a part fails, so does the whole, with the error of that
part and with the names that it leaves, and the block stays as it was. Every block, at any depth,
becomes what a split makes of it alone, from the supply that is reached when it is entered: the
one that has handed out a name for each value outlined before. It does not matter what a run with
one buffer for all hoists finds in the buffer, and it leaves the buffer as it was.
-/
theorem Work.split_apart
    : (∀ (span : Span) (front back : List Stmt) (names : NameSupply),
        Work.split dialect ⟨⟨span, front ++ back⟩, names⟩
        = match Work.split dialect ⟨⟨span, front⟩, names⟩ with
          | .error stop first => .error stop ⟨⟨span, front ++ back⟩, first.names⟩
          | .ok () first =>
              match Work.split dialect ⟨⟨span, back⟩, first.names⟩ with
              | .error stop second => .error stop ⟨⟨span, front ++ back⟩, second.names⟩
              | .ok () second =>
                  .ok () ⟨⟨span, first.block.stmts ++ second.block.stmts⟩, second.names⟩)
      ∧ (∀ program after : Program, Work.split dialect program = .ok () after
        → List.Forall₂ (Block.Entry.SplitsAlone dialect program.names)
            (program.block.entries dialect 0) (after.block.entries dialect 0))
      ∧ ∀ (block : Block) (buffer : List Hoist),
        (block.splitBuffered dialect).run buffer = (do
          return (← block.split dialect, buffer)) := by
  refine ⟨?_, ?_, ?_⟩
  · intro span front back names
    simp only [Work.split, Block.split, Stmt.splitList_append, bind, EStateM.bind, pure,
      EStateM.pure]
    cases Stmt.splitList dialect front names with
    | error stop middle => rfl
    | ok front' middle =>
        dsimp only
        cases Stmt.splitList dialect back middle with
        | error stop finish => rfl
        | ok back' finish => rfl
  · intro program after split
    have derivation := Block.split_eq_ok_iff.mp (Work.split_eq_ok_iff.mp split)
    exact derivation.entries .refl
  · intro block buffer
    exact block.splitBuffered_run buffer

/-- In `if f(a(), x, b(1)) { c(d()) }` four values are outlined before the body is entered, and what
the body becomes depends on these four names alone.
-/
theorem Work.split_apart_callsInBranch
    : ∃ after,
        Work.split .stack (.ofBlock .callsInBranch) = .ok () after
        ∧ (Block.callsInBranch.entries .stack 0).map Block.Entry.before = [0, 4]
        ∧ (after.block.entries .stack 0).map (·.block.names)
          = [["_1", "_2", "b", "_1", "_3", "a", "_4", "f", "_3", "x", "_2", "_4", "_5", "d", "c",
              "_5"],
            ["_5", "d", "c", "_5"]]
        ∧ List.Forall₂ (Block.Entry.SplitsAlone .stack (.ofBlock .callsInBranch))
            (Block.callsInBranch.entries .stack 0) (after.block.entries .stack 0) := by
  have split : Work.split .stack (.ofBlock .callsInBranch) = .ok () _ := rfl
  exact ⟨_, split, by decide, by decide, split_apart.2.1 _ _ split⟩

end StackIR
