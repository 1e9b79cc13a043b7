import StackIR.Handle
import StackIR.Literal

/-! Expressions: variables, constants, and calls of them. -/

namespace StackIR

/-- A reference to a variable. -/
structure Ident where
  span : Span
  name : Name
deriving DecidableEq, Repr

/-- The reference to `name`, placed at the null span. -/
def Ident.ofName (name : Name) : Ident := ⟨.null, name⟩

/-- What a call calls. The dialect in force says what a builtin or a verbatim callee is.
-/
inductive Callee where
  | builtin (span : Span) (handle : BuiltinHandle)
  | verbatim (span : Span) (handle : VerbatimHandle)
  | user (ident : Ident)
deriving DecidableEq, Repr

namespace Callee

/-- The user function `name`, placed at the null span. -/
def ofName (name : Name) : Callee := .user (.ofName name)

def span : Callee → Span
  | .builtin span _ => span
  | .verbatim span _ => span
  | .user ident => ident.span

end Callee

inductive Expr where
  | ident (ident : Ident)
  | literal (literal : Literal)
  | call (span : Span) (callee : Callee) (args : List Expr)

instance : Inhabited Expr := ⟨.ident (.ofName "")⟩

/-- A call on its own, for callers that have no other expressions. -/
structure Call where
  span : Span
  callee : Callee
  args : List Expr

namespace Expr

def span : Expr → Span
  | .ident i => i.span
  | .literal l => l.span
  | .call span _ _ => span

/-- The variable `name`, placed at the null span. -/
def ofName (name : Name) : Expr := .ident (.ofName name)

def isIdent : Expr → Bool
  | .ident _ => true
  | _ => false

def isLiteral : Expr → Bool
  | .literal _ => true
  | _ => false

def asCall? : Expr → Option Call
  | .call span callee args => some ⟨span, callee, args⟩
  | _ => none

end Expr

/-- The call as an expression. -/
def Call.toExpr (call : Call) : Expr := .call call.span call.callee call.args

/-- The same call at another place. -/
def Call.withSpan (call : Call) (span : Span) : Call := { call with span }

-----------------------------------------------------------------------------------------
-- Equality of expressions is decidable, spans included
-----------------------------------------------------------------------------------------

mutual
/-- Equality of two expressions. -/
def Expr.eqb : Expr → Expr → Bool
  | .ident a, .ident b => a == b
  | .literal a, .literal b => a == b
  | .call span callee args, .call span' callee' args' =>
      span == span' && callee == callee' && eqbArgs args args'
  | _, _ => false
/-- Equality of two argument lists. -/
def Expr.eqbArgs : List Expr → List Expr → Bool
  | [], [] => true
  | a :: args, b :: args' => a.eqb b && eqbArgs args args'
  | _, _ => false
end

mutual
theorem Expr.eqb_iff : ∀ a b : Expr, a.eqb b = true ↔ a = b
  | .ident _, .ident _ => by simp [Expr.eqb]
  | .literal _, .literal _ => by simp [Expr.eqb]
  | .call _ _ args, .call _ _ args' => by
      simp [Expr.eqb, Expr.eqbArgs_iff args args', and_assoc]
  | .ident _, .literal _ => by simp [Expr.eqb]
  | .ident _, .call _ _ _ => by simp [Expr.eqb]
  | .literal _, .ident _ => by simp [Expr.eqb]
  | .literal _, .call _ _ _ => by simp [Expr.eqb]
  | .call _ _ _, .ident _ => by simp [Expr.eqb]
  | .call _ _ _, .literal _ => by simp [Expr.eqb]
theorem Expr.eqbArgs_iff : ∀ as bs : List Expr, Expr.eqbArgs as bs = true ↔ as = bs
  | [], [] => by simp [Expr.eqbArgs]
  | a :: as, b :: bs => by simp [Expr.eqbArgs, Expr.eqb_iff a b, Expr.eqbArgs_iff as bs]
  | [], _ :: _ => by simp [Expr.eqbArgs]
  | _ :: _, [] => by simp [Expr.eqbArgs]
end

instance : DecidableEq Expr := fun a b => decidable_of_iff _ (Expr.eqb_iff a b)

deriving instance DecidableEq for Call

end StackIR
