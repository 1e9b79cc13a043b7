import Mathlib.Logic.Basic
import StackIR.Dialect.Stack
import StackIR.Proofs.Derivation
import StackIR.Proofs.Reach

/-! What split form still objects to after a split.

A split leaves exactly the calls that stand where a builtin requires a literal. They cause
all violations of its result, and violations occur once for each of them: `violations_perm`.
Hoists come before the statement that needs them, so the order of the violations is lost.
-/

namespace StackIR

/-- The violations of a call that stands as an argument: the call itself, and all that is
inside it.
-/
def Call.nestedViolations (dialect : Dialect) (call : Call) : List SplitViolation :=
  .nestedCall call.span :: Expr.argumentsViolations dialect call.callee 0 call.args

/-- The violations that calls in place of literals cause among the arguments of a call. -/
def Call.literalSlotViolations (dialect : Dialect) (call : Call) : List SplitViolation :=
  (call.literalSlotCalls dialect).flatMap (Call.nestedViolations dialect)

/-- The violations that calls in place of literals cause in the reached calls of a block. -/
def Block.literalSlotViolations (dialect : Dialect) (block : Block) : List SplitViolation :=
  (block.reachedCalls dialect).flatMap (Call.literalSlotViolations dialect)

/-- The violations of hoists that stand in front of a statement. -/
def Hoist.listViolations (dialect : Dialect) (hoists : List Hoist) : List SplitViolation :=
  Stmt.listViolations dialect (hoists.map Hoist.toStmt)

variable {dialect : Dialect}

theorem Hoist.listViolations_append (front back : List Hoist)
    : Hoist.listViolations dialect (front ++ back)
      = Hoist.listViolations dialect front ++ Hoist.listViolations dialect back := by
  simp [Hoist.listViolations, Stmt.listViolations_append]

theorem Hoist.listViolations_singleton (hoist : Hoist)
    : Hoist.listViolations dialect [hoist] = hoist.value.violations dialect := by
  simp [Hoist.listViolations, Hoist.toStmt, Declaration.single, Declaration.toStmt,
    Stmt.listViolations, Stmt.violations]

/-- Where a literal is required, only calls are objected to. -/
theorem Expr.argumentViolations_of_required {callee : Callee} {position : Nat}
    (required : dialect.requiresLiteral callee position = true) (arg : Expr)
    : arg.argumentViolations dialect callee position
      = arg.asCall?.toList.flatMap (Call.nestedViolations dialect) := by
  cases arg <;> simp [argumentViolations, required, asCall?, Call.nestedViolations]

/-- The arguments that outlining leaves are identifiers where the callee requires no
literal, and the old arguments elsewhere; of these only calls are objected to.
-/
theorem Expr.ArgsOutline.argumentsViolations_eq {callee : Callee} {args : List Expr}
    {start slots hoists flat finish} {position : Nat}
    (derived : Expr.ArgsOutline dialect start slots args hoists flat finish)
    (same : slots = (List.range' position args.length).map (dialect.slotAt callee))
    : Expr.argumentsViolations dialect callee position flat
      = (Expr.literalSlotCalls dialect callee position args).flatMap
          (Call.nestedViolations dialect) := by
  induction args generalizing start slots hoists flat finish position with
  | nil =>
      cases derived
      rfl
  | cons arg args ih =>
      cases derived with
      | literalOnly rest =>
          obtain ⟨here, there⟩ := List.cons.inj same
          have required : dialect.requiresLiteral callee position = true := by
            simpa [Dialect.slotAt] using here
          have below := ih rest there
          rw [argumentsViolations, argumentViolations_of_required required, below,
            literalSlotCalls, if_pos required, List.flatMap_append]
      | outlinable rest first =>
          obtain ⟨here, there⟩ := List.cons.inj same
          have notRequired : dialect.requiresLiteral callee position = false := by
            simpa [Dialect.slotAt] using here
          have below := ih rest there
          rcases first.eq_ident with ⟨i, rfl⟩
          simp [argumentsViolations, argumentViolations, literalSlotCalls, notRequired, below]

/-- The arguments of a call after outlining violate split form by calls in place of literals
alone.
-/
theorem Expr.ArgsOutline.violations_eq {start span callee args slots hoists flat finish}
    (classified : dialect.slots ⟨span, callee, args⟩ = .ok slots)
    (derived : Expr.ArgsOutline dialect start slots args hoists flat finish)
    : Expr.argumentsViolations dialect callee 0 flat
      = Call.literalSlotViolations dialect ⟨span, callee, args⟩ := by
  rw [derived.argumentsViolations_eq (Dialect.slots_eq classified),
    Call.literalSlotViolations, Call.literalSlotCalls_eq classified]

mutual
/-- Hoists and the expression behind them violate split form as often as the reached calls have
calls in place of literals, by induction over the derivation.
-/
theorem Expr.Flattens.violations_perm {start expr hoists flat finish}
    : Expr.Flattens dialect start expr hoists flat finish
      → (Hoist.listViolations dialect hoists ++ flat.violations dialect).Perm
          ((expr.reachedCalls dialect).flatMap (Call.literalSlotViolations dialect))
  | .ident | .literal => .refl _
  | .call classified outlined => by
      simp only [Expr.reachedCalls, classified, List.flatMap_cons, Expr.violations,
        outlined.violations_eq classified]
      exact (List.perm_append_comm).trans (outlined.violations_perm.append_left _)
theorem Expr.ArgsOutline.violations_perm {start slots args hoists flat finish}
    : Expr.ArgsOutline dialect start slots args hoists flat finish
      → (Hoist.listViolations dialect hoists).Perm
          ((Expr.reachedInArgs dialect slots args).flatMap
            (Call.literalSlotViolations dialect))
  | .nil => .refl _
  | .literalOnly rest => rest.violations_perm
  | .outlinable rest first => by
      simp only [Hoist.listViolations_append, Expr.reachedInArgs, List.flatMap_append]
      exact rest.violations_perm.append first.violations_perm
theorem Expr.Outlines.violations_perm {start expr hoists ref finish}
    : Expr.Outlines dialect start expr hoists ref finish
      → (Hoist.listViolations dialect hoists).Perm
          ((expr.reachedCalls dialect).flatMap (Call.literalSlotViolations dialect))
  | .ident => .refl _
  | .bind _ flattened _ => by
      rw [Hoist.listViolations_append, Hoist.listViolations_singleton]
      exact flattened.violations_perm
end

/-- A condition after outlining is an identifier, to which nothing is objected. -/
theorem Expr.Outlines.conditionViolations_eq_nil {start expr hoists ref finish}
    (derived : Expr.Outlines dialect start expr hoists ref finish)
    : ref.conditionViolations = [] := by
  obtain ⟨i, rfl⟩ := derived.eq_ident
  rfl

mutual
theorem Stmt.Splits.violations_perm {start stmt hoists stmt' finish}
    : Stmt.Splits dialect start stmt hoists stmt' finish
      → (Hoist.listViolations dialect hoists ++ stmt'.violations dialect).Perm
          ((stmt.reachedCalls dialect).flatMap (Call.literalSlotViolations dialect))
  | .expr flattened | .assign flattened => flattened.violations_perm
  | .declare flattened => flattened.violations_perm
  | .declareUnset | .breakLoop | .continueLoop | .leave => .refl _
  | .define inner | .block inner => inner.violations_perm
  | .branch outlined inner => by
      simp only [Stmt.violations, Stmt.reachedCalls, outlined.conditionViolations_eq_nil,
        List.nil_append, List.flatMap_append]
      exact outlined.violations_perm.append inner.violations_perm
  | .switch outlined inner => by
      simp only [Stmt.violations, Stmt.reachedCalls, outlined.conditionViolations_eq_nil,
        List.nil_append, List.flatMap_append]
      exact outlined.violations_perm.append inner.violations_perm
  | .loop first second third => by
      simp only [Stmt.violations, Stmt.reachedCalls, List.flatMap_append]
      exact (first.violations_perm.append second.violations_perm).append third.violations_perm
theorem Block.Splits.violations_perm {start block block' finish}
    : Block.Splits dialect start block block' finish
      → (block'.violations dialect).Perm (block.literalSlotViolations dialect)
  | .mk inner => inner.violations_perm
theorem Stmt.ListSplits.violations_perm {start stmts stmts' finish}
    : Stmt.ListSplits dialect start stmts stmts' finish
      → (Stmt.listViolations dialect stmts').Perm
          ((Stmt.reachedInList dialect stmts).flatMap (Call.literalSlotViolations dialect))
  | .nil => .refl _
  | .cons first rest => by
      simp only [Stmt.listViolations_append, Stmt.listViolations, Stmt.reachedInList,
        List.flatMap_append, ← List.append_assoc]
      exact first.violations_perm.append rest.violations_perm
theorem Stmt.CasesSplit.violations_perm {start cases cases' finish}
    : Stmt.CasesSplit dialect start cases cases' finish
      → (Stmt.caseViolations dialect cases').Perm
          ((Stmt.reachedInCases dialect cases).flatMap (Call.literalSlotViolations dialect))
  | .nil => .refl _
  | .cons first rest => by
      simp only [Stmt.caseViolations, Stmt.reachedInCases, List.flatMap_append]
      exact first.violations_perm.append rest.violations_perm
end

-----------------------------------------------------------------------------------------
-- Split form after a split
-----------------------------------------------------------------------------------------

/-- Calls in place of literals are objected to, so there are none if nothing is. -/
theorem Block.literalSlotViolations_eq_nil_iff {block : Block}
    : block.literalSlotViolations dialect = [] ↔ block.LiteralSlotsHold dialect := by
  simp only [literalSlotViolations, Call.literalSlotViolations, LiteralSlotsHold,
    List.flatMap_eq_nil_iff, Call.nestedViolations, reduceCtorEq, imp_false]
  exact forall₂_congr fun call _ => List.eq_nil_iff_forall_not_mem.symm

/-- A split brings a block into split form unless it reaches a call in place of a literal.
-/
theorem Block.Splits.isSplitForm_iff {start block block' finish}
    (derived : Block.Splits dialect start block block' finish)
    : block'.isSplitForm dialect = true ↔ block.LiteralSlotsHold dialect := by
  rw [Block.isSplitForm_iff, ← Block.literalSlotViolations_eq_nil_iff]
  exact ⟨fun none => (none ▸ derived.violations_perm).nil_eq.symm,
    fun none => (none ▸ derived.violations_perm).eq_nil⟩

/-- The violations of a split block are, up to their order, those of the calls that stand
where a reached builtin call requires a literal. If there are no such calls, the block is in
split form, and only then.
-/
theorem violations_split {block block' : Block} {start finish : NameSupply}
    (split : block.split dialect start = .ok block' finish)
    : (block'.violations dialect).Perm (block.literalSlotViolations dialect)
      ∧ (block'.isSplitForm dialect = true ↔ block.LiteralSlotsHold dialect) := by
  have derived := Block.split_eq_ok_iff.mp split
  exact ⟨derived.violations_perm, derived.isSplitForm_iff⟩

/-- The block `if setimmutable(f(), g(1), h()) { }`, with the call of `g` in place of a
literal.
-/
def Block.nestedInImmutable : Block :=
  .ofStmts [.branch .null
    (.call .null (.builtin .null ⟨40⟩) [
      .call .null (.ofName "f") [],
      .call .null (.ofName "g") [.literal (.number "1")],
      .call .null (.ofName "h") []
    ])
    .empty]

/-- The calls of `h`, `f` and `setimmutable` get names, and the call of `g` stays. -/
theorem violations_split_nestedInImmutable
    : ∃ block' finish,
        Block.nestedInImmutable.split .stack (.ofBlock .nestedInImmutable) = .ok block' finish
        ∧ block' = .ofStmts [
            .declareName "_1" (.call .null (.ofName "h") []),
            .declareName "_2" (.call .null (.ofName "f") []),
            .declareName "_3" (.call .null (.builtin .null ⟨40⟩)
              [.ofName "_2", .call .null (.ofName "g") [.literal (.number "1")], .ofName "_1"]),
            .branch .null (.ofName "_3") .empty]
        ∧ (block'.violations .stack).Perm
            (Block.nestedInImmutable.literalSlotViolations .stack)
        ∧ (block'.isSplitForm .stack = true
          ↔ Block.nestedInImmutable.LiteralSlotsHold .stack) := by
  have split : Block.nestedInImmutable.split .stack (.ofBlock .nestedInImmutable)
      = .ok _ _ := rfl
  exact ⟨_, _, split, by decide, violations_split split⟩

end StackIR
