import StackIR.Stmt

/-! The names that occur in a program.

A name occurs where it is read, called, assigned, bound, or given to a function. The lists
follow the order of the text; `Block.nameSet` forgets order and repetition.
-/

namespace StackIR

/-- The name of a user function; other callees have none in the program. -/
def Callee.names : Callee → List Name
  | .user ident => [ident.name]
  | _ => []

mutual
def Expr.names : Expr → List Name
  | .ident i => [i.name]
  | .literal _ => []
  | .call _ callee args => callee.names ++ Expr.argNames args
/-- The names that occur in an argument list. -/
def Expr.argNames : List Expr → List Name
  | [] => []
  | arg :: args => arg.names ++ Expr.argNames args
end

mutual
def Stmt.names : Stmt → List Name
  | .expr _ value => value.names
  | .assign _ targets value => targets.map Ident.name ++ value.names
  | .declare _ bindings value =>
      bindings.map Binding.name ++ (value.map Expr.names).getD []
  | .define _ name params returns body =>
      name :: (params.map Binding.name ++ returns.map Binding.name) ++ body.names
  | .branch _ condition body => condition.names ++ body.names
  | .switch _ subject cases => subject.names ++ Stmt.caseNames cases
  | .loop _ pre condition post body =>
      pre.names ++ condition.names ++ post.names ++ body.names
  | .breakLoop _ | .continueLoop _ | .leave _ => []
  | .block body => body.names
def Block.names : Block → List Name
  | ⟨_, stmts⟩ => Stmt.listNames stmts
/-- The names that occur in a list of statements. -/
def Stmt.listNames : List Stmt → List Name
  | [] => []
  | stmt :: rest => stmt.names ++ Stmt.listNames rest
/-- The names that occur in the bodies of a list of cases; labels hold none. -/
def Stmt.caseNames : List Case → List Name
  | [] => []
  | ⟨_, _, body⟩ :: rest => body.names ++ Stmt.caseNames rest
end

/-- The set of the names that occur in a block. -/
def Block.nameSet (block : Block) : NameSet := .ofList block.names

theorem Block.mem_nameSet {block : Block} {name : Name}
    : name ∈ block.nameSet ↔ name ∈ block.names := by
  simp [nameSet, Std.TreeSet.mem_ofList]

/-- The names of a concatenation are those of its parts, in order. -/
theorem Stmt.listNames_append (front back : List Stmt)
    : Stmt.listNames (front ++ back) = Stmt.listNames front ++ Stmt.listNames back := by
  induction front with
  | nil => rfl
  | cons stmt rest ih => simp [Stmt.listNames, ih]

end StackIR
