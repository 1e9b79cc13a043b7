import StackIR.Printer

/-! Programs up to spans: `Block.eraseSpans` places every node at the null span, so two blocks
are equal up to spans exactly if their erasures are equal.

A style that does not show spans prints a block and its erasure alike:
`Block.print_eraseSpans`.
-/

namespace StackIR

def Ident.eraseSpans (ident : Ident) : Ident := .ofName ident.name

def Binding.eraseSpans (binding : Binding) : Binding := .ofName binding.name

def Literal.eraseSpans (literal : Literal) : Literal := literal.withSpan .null

def Callee.eraseSpans : Callee → Callee
  | .builtin _ handle => .builtin .null handle
  | .verbatim _ handle => .verbatim .null handle
  | .user ident => .user ident.eraseSpans

mutual
def Expr.eraseSpans : Expr → Expr
  | .ident i => .ident i.eraseSpans
  | .literal l => .literal l.eraseSpans
  | .call _ callee args => .call .null callee.eraseSpans (Expr.eraseArgSpans args)
def Expr.eraseArgSpans : List Expr → List Expr
  | [] => []
  | arg :: args => arg.eraseSpans :: Expr.eraseArgSpans args
end

mutual
def Stmt.eraseSpans : Stmt → Stmt
  | .expr _ value => .expr .null value.eraseSpans
  | .assign _ targets value =>
      .assign .null (targets.map Ident.eraseSpans) value.eraseSpans
  | .declare _ bindings value =>
      .declare .null (bindings.map Binding.eraseSpans) (value.map Expr.eraseSpans)
  | .define _ name params returns body =>
      .define .null name (params.map Binding.eraseSpans) (returns.map Binding.eraseSpans)
        body.eraseSpans
  | .branch _ condition body => .branch .null condition.eraseSpans body.eraseSpans
  | .switch _ subject cases => .switch .null subject.eraseSpans (Stmt.eraseCaseSpans cases)
  | .loop _ pre condition post body =>
      .loop .null pre.eraseSpans condition.eraseSpans post.eraseSpans body.eraseSpans
  | .breakLoop _ => .breakLoop .null
  | .continueLoop _ => .continueLoop .null
  | .leave _ => .leave .null
  | .block body => .block body.eraseSpans
/-- The block with every node in it, and the block itself, placed at the null span. -/
def Block.eraseSpans : Block → Block
  | ⟨_, stmts⟩ => ⟨.null, Stmt.eraseListSpans stmts⟩
def Stmt.eraseListSpans : List Stmt → List Stmt
  | [] => []
  | stmt :: rest => stmt.eraseSpans :: Stmt.eraseListSpans rest
def Stmt.eraseCaseSpans : List Case → List Case
  | [] => []
  | ⟨_, label, body⟩ :: rest =>
      ⟨.null, label.map Literal.eraseSpans, body.eraseSpans⟩ :: Stmt.eraseCaseSpans rest
end

theorem Expr.eraseArgSpans_eq_map (args : List Expr)
    : Expr.eraseArgSpans args = args.map Expr.eraseSpans := by
  induction args with
  | nil => rfl
  | cons arg args ih => rw [Expr.eraseArgSpans, ih, List.map_cons]

-----------------------------------------------------------------------------------------
-- Spans that are not shown leave no trace in the text
-----------------------------------------------------------------------------------------

theorem Ident.names_eraseSpans (idents : List Ident)
    : (idents.map Ident.eraseSpans).map (·.name.toList) = idents.map (·.name.toList) := by
  simp only [List.map_map]
  rfl

theorem printBindings_eraseSpans (bindings : List Binding)
    : printBindings (bindings.map Binding.eraseSpans) = printBindings bindings := by
  simp only [printBindings, List.map_map]
  rfl

theorem Case.printLabel_eraseSpans (label : Option Literal)
    : Case.printLabel (label.map Literal.eraseSpans) = Case.printLabel label := by
  cases label <;> rfl

variable (style : PrintStyle)

theorem Callee.print_eraseSpans (callee : Callee)
    : callee.eraseSpans.print style = callee.print style := by
  cases callee <;> rfl

mutual
theorem Expr.print_eraseSpans : ∀ expr : Expr, expr.eraseSpans.print style = expr.print style
  | .ident _ => rfl
  | .literal _ => rfl
  | .call _ callee args => by
      simp only [Expr.eraseSpans, Expr.print, Callee.print_eraseSpans,
        Expr.printArgs_eraseSpans args]
theorem Expr.printArgs_eraseSpans : ∀ args : List Expr,
    Expr.printArgs style (Expr.eraseArgSpans args) = Expr.printArgs style args
  | [] => rfl
  | arg :: args => by
      simp only [Expr.eraseArgSpans, Expr.printArgs, Expr.print_eraseSpans arg,
        Expr.printArgs_eraseSpans args]
end

variable {style}

theorem PrintStyle.spanComment_hidden (hidden : style.showSpans = false) (span : Span)
    : style.spanComment span = [] := by
  simp [PrintStyle.spanComment, hidden]

mutual
theorem Stmt.core_eraseSpans (hidden : style.showSpans = false) (indent : Nat)
    : ∀ stmt : Stmt, stmt.eraseSpans.core style indent = stmt.core style indent
  | .expr _ value => by simp only [Stmt.eraseSpans, Stmt.core, Expr.print_eraseSpans]
  | .assign _ targets value => by
      simp only [Stmt.eraseSpans, Stmt.core, Expr.print_eraseSpans, Ident.names_eraseSpans]
  | .declare _ bindings value => by
      simp only [Stmt.eraseSpans, Stmt.core, printBindings_eraseSpans, Option.map_map,
        Function.comp_def, Expr.print_eraseSpans]
  | .define _ name params returns body => by
      simp only [Stmt.eraseSpans, Stmt.core, printBindings_eraseSpans, List.isEmpty_map,
        Block.braced_eraseSpans hidden indent body]
  | .branch _ condition body => by
      simp only [Stmt.eraseSpans, Stmt.core, Expr.print_eraseSpans,
        Block.braced_eraseSpans hidden indent body]
  | .switch _ subject cases => by
      simp only [Stmt.eraseSpans, Stmt.core, Expr.print_eraseSpans,
        Stmt.printCases_eraseSpans hidden indent cases]
  | .loop _ pre condition post body => by
      simp only [Stmt.eraseSpans, Stmt.core, Expr.print_eraseSpans,
        Block.braced_eraseSpans hidden indent pre, Block.braced_eraseSpans hidden indent post,
        Block.braced_eraseSpans hidden indent body]
  | .breakLoop _ | .continueLoop _ | .leave _ => rfl
  | .block body => Block.braced_eraseSpans hidden indent body
theorem Block.braced_eraseSpans (hidden : style.showSpans = false) (indent : Nat)
    : ∀ block : Block, block.eraseSpans.braced style indent = block.braced style indent
  | ⟨_, []⟩ => rfl
  | ⟨_, stmt :: rest⟩ => by
      have list := Stmt.printList_eraseSpans hidden (indent + style.indentSize) (stmt :: rest)
      simp only [Stmt.eraseListSpans] at list
      simp only [Block.eraseSpans, Stmt.eraseListSpans, Block.braced, list]
theorem Stmt.printList_eraseSpans (hidden : style.showSpans = false) (indent : Nat)
    : ∀ stmts : List Stmt,
      Stmt.printList style indent (Stmt.eraseListSpans stmts)
        = Stmt.printList style indent stmts
  | [] => rfl
  | stmt :: rest => by
      simp only [Stmt.eraseListSpans, Stmt.printList, Stmt.core_eraseSpans hidden indent stmt,
        PrintStyle.spanComment_hidden hidden, Stmt.printList_eraseSpans hidden indent rest]
theorem Stmt.printCases_eraseSpans (hidden : style.showSpans = false) (indent : Nat)
    : ∀ cases : List Case,
      Stmt.printCases style indent (Stmt.eraseCaseSpans cases)
        = Stmt.printCases style indent cases
  | [] => rfl
  | ⟨_, label, body⟩ :: rest => by
      simp only [Stmt.eraseCaseSpans, Stmt.printCases, Case.printLabel_eraseSpans,
        Block.braced_eraseSpans hidden indent body, Stmt.printCases_eraseSpans hidden indent rest]
end

/-- The spans of a block do not show in its text. -/
theorem Block.print_eraseSpans (hidden : style.showSpans = false) (block : Block)
    : block.eraseSpans.print style = block.print style := by
  rw [Block.print, Block.braced_eraseSpans hidden, Block.print]

end StackIR
