import StackIR.Dialect
import StackIR.Error
import StackIR.Stmt

/-! Split form: no value is nested in another.

The arguments of a call are identifiers, or literals where the callee requires one, and
the conditions of `if` and the subjects of `switch` are identifiers. Loop conditions and
case labels are exempt. The violations of a block are listed in the order of its text.
-/

namespace StackIR

/-- A place at which a block departs from split form. -/
inductive SplitViolation where
  /-- A call stands as an argument. -/
  | nestedCall (span : Span)
  /-- A literal stands as an argument where none is required. -/
  | literalArgument (span : Span) (position : Nat)
  /-- An `if` condition or a `switch` subject is not an identifier. -/
  | complexCondition (span : Span)
deriving DecidableEq, Repr

namespace SplitViolation

def span : SplitViolation → Span
  | nestedCall span | literalArgument span _ | complexCondition span => span

def text : SplitViolation → String
  | nestedCall span => "nested call at " ++ span.text
  | literalArgument span position =>
      "literal in outlinable argument " ++ Decimal.text position ++ " at " ++ span.text
  | complexCondition span => "non-identifier condition at " ++ span.text

end SplitViolation

/-- Whether the callee requires a literal at the position. A builtin that the dialect does
not know requires none.
-/
def Dialect.requiresLiteral (dialect : Dialect) : Callee → Nat → Bool
  | .builtin _ handle, position =>
      (dialect.builtin? handle).any (·.isLiteralArgument position)
  | .verbatim _ _, _ => true
  | .user _, _ => false

mutual
/-- The violations of an expression that stands at a position of a call of `callee`:
itself first, then those inside it.
-/
def Expr.argumentViolations (dialect : Dialect) (callee : Callee) (position : Nat)
    : Expr → List SplitViolation
  | .ident _ => []
  | .literal l =>
      if dialect.requiresLiteral callee position then []
      else [.literalArgument l.span position]
  | .call span inner args => .nestedCall span :: Expr.argumentsViolations dialect inner 0 args
/-- The violations of arguments that stand from a position on. -/
def Expr.argumentsViolations (dialect : Dialect) (callee : Callee) (position : Nat)
    : List Expr → List SplitViolation
  | [] => []
  | arg :: args =>
      arg.argumentViolations dialect callee position
        ++ Expr.argumentsViolations dialect callee (position + 1) args
end

/-- The violations of an expression that a statement evaluates by itself. -/
def Expr.violations (dialect : Dialect) : Expr → List SplitViolation
  | .call _ callee args => Expr.argumentsViolations dialect callee 0 args
  | _ => []

/-- The violations of a condition: at most one, and none for what is inside it. -/
def Expr.conditionViolations : Expr → List SplitViolation
  | .ident _ => []
  | condition => [.complexCondition condition.span]

mutual
def Stmt.violations (dialect : Dialect) : Stmt → List SplitViolation
  | .expr _ value => value.violations dialect
  | .assign _ _ value => value.violations dialect
  | .declare _ _ value => (value.map (Expr.violations dialect)).getD []
  | .define _ _ _ _ body => body.violations dialect
  | .branch _ condition body => condition.conditionViolations ++ body.violations dialect
  | .switch _ subject cases =>
      subject.conditionViolations ++ Stmt.caseViolations dialect cases
  | .loop _ pre _ post body =>
      pre.violations dialect ++ post.violations dialect ++ body.violations dialect
  | .breakLoop _ | .continueLoop _ | .leave _ => []
  | .block body => body.violations dialect
/-- All places at which a block departs from split form. -/
def Block.violations (dialect : Dialect) : Block → List SplitViolation
  | ⟨_, stmts⟩ => Stmt.listViolations dialect stmts
/-- The violations of a list of statements. -/
def Stmt.listViolations (dialect : Dialect) : List Stmt → List SplitViolation
  | [] => []
  | stmt :: rest => stmt.violations dialect ++ Stmt.listViolations dialect rest
/-- The violations of the bodies of a list of cases. -/
def Stmt.caseViolations (dialect : Dialect) : List Case → List SplitViolation
  | [] => []
  | ⟨_, _, body⟩ :: rest => body.violations dialect ++ Stmt.caseViolations dialect rest
end

def Block.isSplitForm (dialect : Dialect) (block : Block) : Bool :=
  (block.violations dialect).isEmpty

/-- The report of a list of violations, placed at the first of them. -/
def SplitViolation.report (first : SplitViolation) (rest : List SplitViolation) : Error :=
  .malformedAt first.span "split-form"
    ("block is not in split form: " ++ "; ".intercalate ((first :: rest).map text))

/-- Fails with all violations of a block that is not in split form. -/
def Block.ensureSplitForm (dialect : Dialect) (block : Block) : Except Error Unit :=
  match block.violations dialect with
  | [] => .ok ()
  | first :: rest => .error (first.report rest)

theorem Block.isSplitForm_iff {dialect : Dialect} {block : Block}
    : block.isSplitForm dialect = true ↔ block.violations dialect = [] := by
  simp [isSplitForm]

theorem Block.ensureSplitForm_eq_ok_iff {dialect : Dialect} {block : Block}
    : block.ensureSplitForm dialect = .ok () ↔ block.isSplitForm dialect = true := by
  rw [isSplitForm_iff, ensureSplitForm]
  split <;> simp_all

/-- The violations of a concatenation are those of its parts, in order. -/
theorem Stmt.listViolations_append (dialect : Dialect) (front back : List Stmt)
    : Stmt.listViolations dialect (front ++ back)
      = Stmt.listViolations dialect front ++ Stmt.listViolations dialect back := by
  induction front with
  | nil => rfl
  | cons stmt rest ih => simp [Stmt.listViolations, ih]

end StackIR
