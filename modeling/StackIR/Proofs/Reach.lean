import Mathlib.Data.List.Perm.Basic
import StackIR.SplitForm
import StackIR.Slot

/-! The calls that a split reaches, and the calls that it leaves where a literal is
required.

The calls are listed in the order of the visits, `Block.reachedCalls`, or in the order of
evaluation, `Block.evaluatedCalls`. The slots of a well-formed call are those that split form asks
for: `Dialect.slots_eq`.
-/

namespace StackIR

mutual
/-- The calls of an expression that a split visits, in the order of the visits: a call
before its arguments, and these from last to first. Arguments in literal-only slots are not
visited, and neither are those of a malformed call.
-/
def Expr.reachedCalls (dialect : Dialect) : Expr → List Call
  | .ident _ | .literal _ => []
  | .call span callee args =>
      ⟨span, callee, args⟩
        :: match dialect.slots ⟨span, callee, args⟩ with
          | .ok slots => Expr.reachedInArgs dialect slots args
          | .error _ => []
/-- The calls that a split visits in the arguments of a call with the given slots. -/
def Expr.reachedInArgs (dialect : Dialect) : List Slot → List Expr → List Call
  | .literalOnly :: slots, _ :: args => Expr.reachedInArgs dialect slots args
  | .outlinable :: slots, arg :: args =>
      Expr.reachedInArgs dialect slots args ++ arg.reachedCalls dialect
  | _, _ => []
end

mutual
def Stmt.reachedCalls (dialect : Dialect) : Stmt → List Call
  | .expr _ value => value.reachedCalls dialect
  | .assign _ _ value => value.reachedCalls dialect
  | .declare _ _ value => (value.map (Expr.reachedCalls dialect)).getD []
  | .define _ _ _ _ body => body.reachedCalls dialect
  | .branch _ condition body => condition.reachedCalls dialect ++ body.reachedCalls dialect
  | .switch _ subject cases =>
      subject.reachedCalls dialect ++ Stmt.reachedInCases dialect cases
  | .loop _ pre _ post body =>
      pre.reachedCalls dialect ++ post.reachedCalls dialect ++ body.reachedCalls dialect
  | .breakLoop _ | .continueLoop _ | .leave _ => []
  | .block body => body.reachedCalls dialect
/-- The calls of a block that a split visits, at any depth. -/
def Block.reachedCalls (dialect : Dialect) : Block → List Call
  | ⟨_, stmts⟩ => Stmt.reachedInList dialect stmts
def Stmt.reachedInList (dialect : Dialect) : List Stmt → List Call
  | [] => []
  | stmt :: rest => stmt.reachedCalls dialect ++ Stmt.reachedInList dialect rest
def Stmt.reachedInCases (dialect : Dialect) : List Case → List Call
  | [] => []
  | ⟨_, _, body⟩ :: rest => body.reachedCalls dialect ++ Stmt.reachedInCases dialect rest
end

mutual
/-- The calls of an expression that a split visits, in the order of evaluation: a call behind its
arguments, and these from last to first.
-/
def Expr.evaluatedCalls (dialect : Dialect) : Expr → List Call
  | .ident _ | .literal _ => []
  | .call span callee args =>
      (match dialect.slots ⟨span, callee, args⟩ with
        | .ok slots => Expr.evaluatedInArgs dialect slots args
        | .error _ => [])
        ++ [⟨span, callee, args⟩]
def Expr.evaluatedInArgs (dialect : Dialect) : List Slot → List Expr → List Call
  | .literalOnly :: slots, _ :: args => Expr.evaluatedInArgs dialect slots args
  | .outlinable :: slots, arg :: args =>
      Expr.evaluatedInArgs dialect slots args ++ arg.evaluatedCalls dialect
  | _, _ => []
end

mutual
/-- The expressions of a statement that a split visits, in the order of the visits. Conditions of
loops are left out.
-/
def Stmt.visitedExprs : Stmt → List Expr
  | .expr _ value | .assign _ _ value => [value]
  | .declare _ _ value => value.toList
  | .define _ _ _ _ body | .block body => body.visitedExprs
  | .branch _ condition body => condition :: body.visitedExprs
  | .switch _ subject cases => subject :: Stmt.visitedInCases cases
  | .loop _ pre _ post body => pre.visitedExprs ++ post.visitedExprs ++ body.visitedExprs
  | .breakLoop _ | .continueLoop _ | .leave _ => []
def Block.visitedExprs : Block → List Expr
  | ⟨_, stmts⟩ => Stmt.visitedInList stmts
def Stmt.visitedInList : List Stmt → List Expr
  | [] => []
  | stmt :: rest => stmt.visitedExprs ++ Stmt.visitedInList rest
def Stmt.visitedInCases : List Case → List Expr
  | [] => []
  | ⟨_, _, body⟩ :: rest => body.visitedExprs ++ Stmt.visitedInCases rest
end

/-- The calls of a block that a split visits, at any depth: one visited expression after the other,
each in the order of evaluation.
-/
def Block.evaluatedCalls (dialect : Dialect) (block : Block) : List Call :=
  block.visitedExprs.flatMap (Expr.evaluatedCalls dialect)

/-- The calls among arguments that stand from a position on, as far as the callee requires a
literal in their place.
-/
def Expr.literalSlotCalls (dialect : Dialect) (callee : Callee) (position : Nat)
    : List Expr → List Call
  | [] => []
  | arg :: args =>
      (if dialect.requiresLiteral callee position then arg.asCall?.toList else [])
        ++ Expr.literalSlotCalls dialect callee (position + 1) args

/-- The arguments of a builtin call that are calls where the builtin requires a literal. -/
def Call.literalSlotCalls (dialect : Dialect) (call : Call) : List Call :=
  match call.callee with
  | .builtin _ _ => Expr.literalSlotCalls dialect call.callee 0 call.args
  | _ => []

/-- No reached builtin call of the block has a call where it requires a literal. -/
def Block.LiteralSlotsHold (dialect : Dialect) (block : Block) : Prop :=
  ∀ call ∈ block.reachedCalls dialect, call.literalSlotCalls dialect = []

instance (dialect : Dialect) (block : Block) : Decidable (block.LiteralSlotsHold dialect) :=
  inferInstanceAs (Decidable (∀ call ∈ block.reachedCalls dialect, _))

/-- The slot of a position, by whether split form asks for a literal there. -/
def Dialect.slotAt (dialect : Dialect) (callee : Callee) (position : Nat) : Slot :=
  if dialect.requiresLiteral callee position then .literalOnly else .outlinable

theorem map_const_eq_map_range' {α β : Type} (value : β) (f : Nat → β) (list : List α)
    (start : Nat) (constant : ∀ n, f n = value)
    : (list.map fun _ => value) = (List.range' start list.length).map f := by
  simp [funext constant, List.map_const']

/-- The slots of a well-formed call are those that split form asks for. -/
theorem Dialect.slots_eq {dialect : Dialect} {call : Call} {slots : List Slot}
    (ok : dialect.slots call = .ok slots)
    : slots = (List.range' 0 call.args.length).map (dialect.slotAt call.callee) := by
  unfold Dialect.slots at ok
  split at ok
  · next span handle same =>
      split at ok
      · contradiction
      · next builtin found =>
          obtain ⟨-, rfl⟩ := Builtin.slots_eq_ok_iff.mp ok
          simp [same, slotAt, requiresLiteral, found, Builtin.slot, List.range_eq_range']
  · next span handle same =>
      obtain ⟨-, -, -, rfl⟩ := VerbatimFunction.slots_eq_ok_iff.mp ok
      exact map_const_eq_map_range' _ _ _ _ fun n => by simp [slotAt, requiresLiteral, same]
  · next ident same =>
      cases ok
      exact map_const_eq_map_range' _ _ _ _ fun n => by simp [slotAt, requiresLiteral, same]

/-- Where nothing but literals stands, no call takes the place of one. -/
theorem Expr.literalSlotCalls_eq_nil {dialect : Dialect} {callee : Callee}
    {args : List Expr} {position : Nat}
    (none : ∀ arg ∈ args, ∀ n, dialect.requiresLiteral callee n = true → arg.asCall? = .none)
    : Expr.literalSlotCalls dialect callee position args = [] := by
  induction args generalizing position with
  | nil => rfl
  | cons arg args ih =>
      rw [literalSlotCalls, ih fun other member => none other (List.mem_cons_of_mem _ member)]
      split
      · next required => simp [none arg List.mem_cons_self position required]
      · rfl

/-- In a well-formed call only a builtin can have a call in place of a literal: verbatim
functions take literals alone, and user functions require none.
-/
theorem Call.literalSlotCalls_eq {dialect : Dialect} {call : Call} {slots : List Slot}
    (ok : dialect.slots call = .ok slots)
    : call.literalSlotCalls dialect
      = Expr.literalSlotCalls dialect call.callee 0 call.args := by
  rw [literalSlotCalls]
  split
  · rfl
  · next noBuiltin =>
      refine (Expr.literalSlotCalls_eq_nil fun arg member n required => ?_).symm
      unfold Dialect.slots at ok
      split at ok
      · next span handle same => exact absurd same (noBuiltin span handle)
      · next span handle same =>
          obtain ⟨-, -, literals, -⟩ := VerbatimFunction.slots_eq_ok_iff.mp ok
          cases arg with
          | ident | call => exact absurd (literals _ member) (by simp [Expr.isLiteral])
          | literal => rfl
      · next ident same => simp [same, Dialect.requiresLiteral] at required

variable {dialect : Dialect}

-----------------------------------------------------------------------------------------
-- The order of evaluation lists the same calls as the order of the visits
-----------------------------------------------------------------------------------------

mutual
/-- A call is evaluated behind its arguments and visited in front of them, by induction on the
expression.
-/
theorem Expr.evaluatedCalls_perm : ∀ expr : Expr,
    (expr.evaluatedCalls dialect).Perm (expr.reachedCalls dialect)
  | .ident _ | .literal _ => .rfl
  | .call span callee args => by
      rw [Expr.evaluatedCalls, Expr.reachedCalls]
      cases dialect.slots ⟨span, callee, args⟩ with
      | ok slots =>
          exact List.perm_append_comm.trans ((Expr.evaluatedInArgs_perm slots args).cons _)
      | error fault => exact .rfl
theorem Expr.evaluatedInArgs_perm : ∀ (slots : List Slot) (args : List Expr),
    (Expr.evaluatedInArgs dialect slots args).Perm (Expr.reachedInArgs dialect slots args)
  | .literalOnly :: slots, _ :: args => Expr.evaluatedInArgs_perm slots args
  | .outlinable :: slots, arg :: args =>
      (Expr.evaluatedInArgs_perm slots args).append (Expr.evaluatedCalls_perm arg)
  | [], [] | [], _ :: _ | .literalOnly :: _, [] | .outlinable :: _, [] => .rfl
end

mutual
theorem Stmt.flatMap_visitedExprs : ∀ stmt : Stmt,
    stmt.visitedExprs.flatMap (Expr.reachedCalls dialect) = stmt.reachedCalls dialect
  | .expr _ value | .assign _ _ value | .declare _ _ (some value) => List.flatMap_singleton _ value
  | .declare _ _ .none | .breakLoop _ | .continueLoop _ | .leave _ => rfl
  | .define _ _ _ _ body | .block body => Block.flatMap_visitedExprs body
  | .branch _ condition body => by
      rw [Stmt.visitedExprs, Stmt.reachedCalls, List.flatMap_cons,
        Block.flatMap_visitedExprs body]
  | .switch _ subject cases => by
      rw [Stmt.visitedExprs, Stmt.reachedCalls, List.flatMap_cons,
        Stmt.flatMap_visitedInCases cases]
  | .loop _ pre _ post body => by
      rw [Stmt.visitedExprs, Stmt.reachedCalls, List.flatMap_append, List.flatMap_append,
        Block.flatMap_visitedExprs pre, Block.flatMap_visitedExprs post,
        Block.flatMap_visitedExprs body]
termination_by structural x => x
/-- The reached calls of a block are those of its visited expressions, one after the other. -/
theorem Block.flatMap_visitedExprs : ∀ block : Block,
    block.visitedExprs.flatMap (Expr.reachedCalls dialect) = block.reachedCalls dialect
  | ⟨_, stmts⟩ => Stmt.flatMap_visitedInList stmts
termination_by structural x => x
theorem Stmt.flatMap_visitedInList : ∀ stmts : List Stmt,
    (Stmt.visitedInList stmts).flatMap (Expr.reachedCalls dialect)
      = Stmt.reachedInList dialect stmts
  | [] => rfl
  | stmt :: rest => by
      rw [Stmt.visitedInList, Stmt.reachedInList, List.flatMap_append,
        Stmt.flatMap_visitedExprs stmt, Stmt.flatMap_visitedInList rest]
termination_by structural x => x
theorem Stmt.flatMap_visitedInCases : ∀ cases : List Case,
    (Stmt.visitedInCases cases).flatMap (Expr.reachedCalls dialect)
      = Stmt.reachedInCases dialect cases
  | [] => rfl
  | ⟨_, _, body⟩ :: rest => by
      rw [Stmt.visitedInCases, Stmt.reachedInCases, List.flatMap_append,
        Block.flatMap_visitedExprs body, Stmt.flatMap_visitedInCases rest]
termination_by structural x => x
end

/-- Both orders list the same calls of a block, each as often. -/
theorem Block.evaluatedCalls_perm (block : Block)
    : (block.evaluatedCalls dialect).Perm (block.reachedCalls dialect) := by
  rw [← Block.flatMap_visitedExprs]
  exact List.Perm.flatMap_left _ fun expr _ => expr.evaluatedCalls_perm

-----------------------------------------------------------------------------------------
-- Split form leaves no call in place of a literal
-----------------------------------------------------------------------------------------

/-- Arguments to which nothing is objected hold no calls. -/
theorem Expr.argumentsViolations_eq_nil {callee : Callee} {position : Nat}
    {args : List Expr} (clean : Expr.argumentsViolations dialect callee position args = [])
    : ∀ arg ∈ args, arg.asCall? = .none := by
  induction args generalizing position with
  | nil => simp
  | cons arg args ih =>
      simp only [argumentsViolations, List.append_eq_nil_iff] at clean
      refine List.forall_mem_cons.mpr ⟨?_, ih clean.2⟩
      cases arg with
      | ident | literal => rfl
      | call => simp [argumentViolations] at clean

/-- Nothing is reached in arguments that hold no calls. -/
theorem Expr.reachedInArgs_eq_nil {slots : List Slot} {args : List Expr}
    (noCalls : ∀ arg ∈ args, arg.asCall? = .none)
    : Expr.reachedInArgs dialect slots args = [] := by
  induction args generalizing slots with
  | nil =>
      cases slots with
      | nil => rfl
      | cons slot => cases slot <;> rfl
  | cons arg args ih =>
      obtain ⟨here, there⟩ := List.forall_mem_cons.mp noCalls
      cases slots with
      | nil => rfl
      | cons slot slots =>
          cases slot with
          | literalOnly => exact ih there
          | outlinable =>
              rw [reachedInArgs, ih there]
              cases arg with
              | ident | literal => rfl
              | call => simp [asCall?] at here

/-- A top-level expression to which nothing is objected has no call in place of a literal. -/
theorem Expr.literalSlotCalls_of_violations_eq_nil {expr : Expr}
    (clean : expr.violations dialect = [])
    : ∀ call ∈ expr.reachedCalls dialect, call.literalSlotCalls dialect = [] := by
  cases expr with
  | ident | literal => simp [reachedCalls]
  | call span callee args =>
      have noCalls := argumentsViolations_eq_nil clean
      have alone : Expr.reachedCalls dialect (.call span callee args)
          = [⟨span, callee, args⟩] := by
        rw [reachedCalls]
        split
        · rw [reachedInArgs_eq_nil noCalls]
        · rfl
      rw [alone, List.forall_mem_singleton, Call.literalSlotCalls]
      split
      · exact literalSlotCalls_eq_nil fun arg member _ _ => noCalls arg member
      · rfl

/-- A condition to which nothing is objected is an identifier, so no call is reached in it.
-/
theorem Expr.reachedCalls_of_conditionViolations_eq_nil {condition : Expr}
    (clean : condition.conditionViolations = [])
    : condition.reachedCalls dialect = [] := by
  cases condition with
  | ident => rfl
  | literal | call => simp [conditionViolations] at clean

mutual
theorem Stmt.literalSlotCalls_of_violations_eq_nil
    : ∀ {stmt : Stmt}, stmt.violations dialect = []
      → ∀ call ∈ stmt.reachedCalls dialect, call.literalSlotCalls dialect = []
  | .expr _ value, clean | .assign _ _ value, clean | .declare _ _ (some value), clean =>
      Expr.literalSlotCalls_of_violations_eq_nil clean
  | .declare _ _ .none, _ | .breakLoop _, _ | .continueLoop _, _ | .leave _, _ => by
      simp [Stmt.reachedCalls]
  | .define _ _ _ _ body, clean | .block body, clean =>
      Block.literalSlotsHold_of_violations_eq_nil clean
  | .branch _ condition body, clean => by
      simp only [Stmt.violations, List.append_eq_nil_iff] at clean
      rw [Stmt.reachedCalls, Expr.reachedCalls_of_conditionViolations_eq_nil clean.1]
      exact Block.literalSlotsHold_of_violations_eq_nil clean.2
  | .switch _ subject cases, clean => by
      simp only [Stmt.violations, List.append_eq_nil_iff] at clean
      rw [Stmt.reachedCalls, Expr.reachedCalls_of_conditionViolations_eq_nil clean.1]
      exact Stmt.literalSlotCalls_of_caseViolations_eq_nil clean.2
  | .loop _ pre _ post body, clean => by
      simp only [Stmt.violations, List.append_eq_nil_iff] at clean
      simp only [Stmt.reachedCalls, List.forall_mem_append]
      exact ⟨⟨Block.literalSlotsHold_of_violations_eq_nil clean.1.1,
          Block.literalSlotsHold_of_violations_eq_nil clean.1.2⟩,
        Block.literalSlotsHold_of_violations_eq_nil clean.2⟩
termination_by structural x => x
/-- A block in split form has no call in place of a literal. -/
theorem Block.literalSlotsHold_of_violations_eq_nil
    : ∀ {block : Block}, block.violations dialect = [] → block.LiteralSlotsHold dialect
  | ⟨_, _⟩, clean => Stmt.literalSlotCalls_of_listViolations_eq_nil clean
termination_by structural x => x
theorem Stmt.literalSlotCalls_of_listViolations_eq_nil
    : ∀ {stmts : List Stmt}, Stmt.listViolations dialect stmts = []
      → ∀ call ∈ Stmt.reachedInList dialect stmts, call.literalSlotCalls dialect = []
  | [], _ => by simp [Stmt.reachedInList]
  | stmt :: stmts, clean => by
      simp only [Stmt.listViolations, List.append_eq_nil_iff] at clean
      simp only [Stmt.reachedInList, List.forall_mem_append]
      exact ⟨Stmt.literalSlotCalls_of_violations_eq_nil clean.1,
        Stmt.literalSlotCalls_of_listViolations_eq_nil clean.2⟩
termination_by structural x => x
theorem Stmt.literalSlotCalls_of_caseViolations_eq_nil
    : ∀ {cases : List Case}, Stmt.caseViolations dialect cases = []
      → ∀ call ∈ Stmt.reachedInCases dialect cases, call.literalSlotCalls dialect = []
  | [], _ => by simp [Stmt.reachedInCases]
  | ⟨_, _, body⟩ :: cases, clean => by
      simp only [Stmt.caseViolations, List.append_eq_nil_iff] at clean
      simp only [Stmt.reachedInCases, List.forall_mem_append]
      exact ⟨Block.literalSlotsHold_of_violations_eq_nil clean.1,
        Stmt.literalSlotCalls_of_caseViolations_eq_nil clean.2⟩
termination_by structural x => x
end

end StackIR
