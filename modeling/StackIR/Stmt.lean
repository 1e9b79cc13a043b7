import StackIR.Expr

/-! Statements, and the blocks and cases that hold them.

The constructors that take no span place their node at the null span; `Stmt.ofExpr` takes
the span of its expression.
-/

namespace StackIR

/-- A name that a declaration, a parameter list or a return list introduces. -/
structure Binding where
  span : Span
  name : Name
deriving DecidableEq, Repr

/-- The binding of `name`, placed at the null span. -/
def Binding.ofName (name : Name) : Binding := ⟨.null, name⟩

mutual
inductive Stmt where
  | expr (span : Span) (expr : Expr)
  | assign (span : Span) (targets : List Ident) (value : Expr)
  | declare (span : Span) (bindings : List Binding) (value : Option Expr)
  | define (span : Span) (name : Name) (params returns : List Binding) (body : Block)
  | branch (span : Span) (condition : Expr) (body : Block)
  | switch (span : Span) (subject : Expr) (cases : List Case)
  | loop (span : Span) (pre : Block) (condition : Expr) (post body : Block)
  | breakLoop (span : Span)
  | continueLoop (span : Span)
  | leave (span : Span)
  | block (body : Block)
/-- Statements that are run in order, in a scope of their own. -/
structure Block where
  span : Span
  stmts : List Stmt
/-- A case of a `switch`. It is the default case if it has no label. -/
structure Case where
  span : Span
  label : Option Literal
  body : Block
end

/-- A variable declaration on its own, apart from the other statements. -/
structure Declaration where
  span : Span
  bindings : List Binding
  value : Option Expr
deriving DecidableEq

namespace Declaration

/-- The declaration `let name := value`, with `span` on it and on its one binding. -/
def single (span : Span) (name : Name) (value : Expr) : Declaration :=
  ⟨span, [⟨span, name⟩], some value⟩

def toStmt (declaration : Declaration) : Stmt :=
  .declare declaration.span declaration.bindings declaration.value

end Declaration

namespace Block

/-- The block of `stmts`, placed at the null span. -/
def ofStmts (stmts : List Stmt) : Block := ⟨.null, stmts⟩

/-- The block without statements, placed at the null span. -/
def empty : Block := ofStmts []

instance : Inhabited Block := ⟨empty⟩

def isEmpty (block : Block) : Bool := block.stmts.isEmpty

/-- The number of statements, nested ones not counted. -/
def size (block : Block) : Nat := block.stmts.length

/-- The block with one more statement at its end. -/
def append (block : Block) (stmt : Stmt) : Block :=
  { block with stmts := block.stmts ++ [stmt] }

end Block

namespace Stmt

def span : Stmt → Span
  | .expr span _ => span
  | .assign span _ _ => span
  | .declare span _ _ => span
  | .define span _ _ _ _ => span
  | .branch span _ _ => span
  | .switch span _ _ => span
  | .loop span _ _ _ _ => span
  | .breakLoop span => span
  | .continueLoop span => span
  | .leave span => span
  | .block body => body.span

/-- The statement that evaluates `expr`, at the place of `expr`. -/
def ofExpr (expr : Expr) : Stmt := .expr expr.span expr

/-- The declaration `let name := value`, placed at the null span. -/
def declareName (name : Name) (value : Expr) : Stmt :=
  (Declaration.single .null name value).toStmt

end Stmt

namespace Case

/-- The case for `label`, placed at the null span. -/
def labelled (label : Literal) (body : Block) : Case := ⟨.null, some label, body⟩

/-- The default case, placed at the null span. -/
def otherwise (body : Block) : Case := ⟨.null, none, body⟩

end Case

-----------------------------------------------------------------------------------------
-- Equality of statements is decidable, spans included
-----------------------------------------------------------------------------------------

mutual
/-- Equality of two statements. -/
def Stmt.eqb : Stmt → Stmt → Bool
  | .expr s e, .expr s' e' => s == s' && e == e'
  | .assign s ts e, .assign s' ts' e' => s == s' && ts == ts' && e == e'
  | .declare s bs e, .declare s' bs' e' => s == s' && bs == bs' && e == e'
  | .define s n ps rs b, .define s' n' ps' rs' b' =>
      s == s' && n == n' && ps == ps' && rs == rs' && b.eqb b'
  | .branch s c b, .branch s' c' b' => s == s' && c == c' && b.eqb b'
  | .switch s e cs, .switch s' e' cs' => s == s' && e == e' && Stmt.eqbCases cs cs'
  | .loop s p c q b, .loop s' p' c' q' b' =>
      s == s' && p.eqb p' && c == c' && q.eqb q' && b.eqb b'
  | .breakLoop s, .breakLoop s' => s == s'
  | .continueLoop s, .continueLoop s' => s == s'
  | .leave s, .leave s' => s == s'
  | .block b, .block b' => b.eqb b'
  | _, _ => false
termination_by structural x => x
/-- Equality of two blocks. -/
def Block.eqb : Block → Block → Bool
  | ⟨s, stmts⟩, ⟨s', stmts'⟩ => s == s' && Stmt.eqbList stmts stmts'
termination_by structural x => x
/-- Equality of two cases. -/
def Case.eqb : Case → Case → Bool
  | ⟨s, l, b⟩, ⟨s', l', b'⟩ => s == s' && l == l' && b.eqb b'
termination_by structural x => x
/-- Equality of two lists of statements. -/
def Stmt.eqbList : List Stmt → List Stmt → Bool
  | [], [] => true
  | a :: as, b :: bs => a.eqb b && Stmt.eqbList as bs
  | _, _ => false
termination_by structural x => x
/-- Equality of two lists of cases. -/
def Stmt.eqbCases : List Case → List Case → Bool
  | [], [] => true
  | a :: as, b :: bs => a.eqb b && Stmt.eqbCases as bs
  | _, _ => false
termination_by structural x => x
end

mutual
theorem Stmt.eqb_iff (a b : Stmt) : a.eqb b = true ↔ a = b := by
  cases a with
  | define _ _ _ _ body =>
      cases b with
      | define _ _ _ _ body' => simp [Stmt.eqb, Block.eqb_iff body body', and_assoc]
      | _ => simp [Stmt.eqb]
  | branch _ _ body =>
      cases b with
      | branch _ _ body' => simp [Stmt.eqb, Block.eqb_iff body body', and_assoc]
      | _ => simp [Stmt.eqb]
  | switch _ _ cases₁ =>
      cases b with
      | switch _ _ cases₂ => simp [Stmt.eqb, Stmt.eqbCases_iff cases₁ cases₂, and_assoc]
      | _ => simp [Stmt.eqb]
  | loop _ pre _ post body =>
      cases b with
      | loop _ pre' _ post' body' =>
          simp [Stmt.eqb, Block.eqb_iff pre pre', Block.eqb_iff post post',
            Block.eqb_iff body body', and_assoc]
      | _ => simp [Stmt.eqb]
  | block body =>
      cases b with
      | block body' => simp [Stmt.eqb, Block.eqb_iff body body']
      | _ => simp [Stmt.eqb]
  | _ => cases b <;> simp [Stmt.eqb, and_assoc]
theorem Block.eqb_iff (a b : Block) : a.eqb b = true ↔ a = b := by
  cases a with
  | mk _ stmts =>
      cases b with
      | mk _ stmts' => simp [Block.eqb, Stmt.eqbList_iff stmts stmts']
theorem Case.eqb_iff (a b : Case) : a.eqb b = true ↔ a = b := by
  cases a with
  | mk _ _ body =>
      cases b with
      | mk _ _ body' => simp [Case.eqb, Block.eqb_iff body body', and_assoc]
theorem Stmt.eqbList_iff : ∀ as bs : List Stmt, Stmt.eqbList as bs = true ↔ as = bs
  | [], [] => by simp [Stmt.eqbList]
  | a :: as, b :: bs => by simp [Stmt.eqbList, Stmt.eqb_iff a b, Stmt.eqbList_iff as bs]
  | [], _ :: _ => by simp [Stmt.eqbList]
  | _ :: _, [] => by simp [Stmt.eqbList]
theorem Stmt.eqbCases_iff : ∀ as bs : List Case, Stmt.eqbCases as bs = true ↔ as = bs
  | [], [] => by simp [Stmt.eqbCases]
  | a :: as, b :: bs => by simp [Stmt.eqbCases, Case.eqb_iff a b, Stmt.eqbCases_iff as bs]
  | [], _ :: _ => by simp [Stmt.eqbCases]
  | _ :: _, [] => by simp [Stmt.eqbCases]
end

instance : DecidableEq Stmt := fun a b => decidable_of_iff _ (Stmt.eqb_iff a b)

instance : DecidableEq Block := fun a b => decidable_of_iff _ (Block.eqb_iff a b)

instance : DecidableEq Case := fun a b => decidable_of_iff _ (Case.eqb_iff a b)

end StackIR
