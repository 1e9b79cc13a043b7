import StackIR.NameSupply
import StackIR.Slot

/-! Splitting: every nested value gets a name of its own.

An argument in an outlinable slot, an `if` condition or a `switch` subject that is not an
identifier is computed by a declaration in front of its statement, and a reference takes
its place. Arguments are outlined from last to first, the order in which the machine
evaluates them. Loop conditions and case labels stay: no statement stands before a loop
condition is evaluated again, and labels are constants.
-/

namespace StackIR

/-- The declaration `let name := value` that is put in front of the statement that needs
the value. It stands at the place of the value that it replaces.
-/
structure Hoist where
  span : Span
  name : Name
  value : Expr
deriving DecidableEq

namespace Hoist

/-- The declaration as a statement. -/
def toStmt (hoist : Hoist) : Stmt :=
  (Declaration.single hoist.span hoist.name hoist.value).toStmt

/-- The reference that takes the place of the value. -/
def ref (hoist : Hoist) : Expr := .ident ⟨hoist.span, hoist.name⟩

end Hoist

/-- A run that takes names from a supply and stops at the first malformed call. The names
taken before a stop stay taken.
-/
abbrev Splitting := EStateM (Stop CallFault) NameSupply

/-- The slots of a call; fails if the call is malformed. -/
def Splitting.slots (dialect : Dialect) (call : Call) : Splitting (List Slot) :=
  match dialect.slots call with
  | .ok slots => pure slots
  | .error fault => throw (.failed fault)

/-- Takes a fresh name from the supply. -/
def Splitting.takeName (dialect : Dialect) : Splitting Name :=
  fun supply =>
    match supply.fresh? dialect with
    | some (name, supply) => .ok name supply
    | none => .error .noFreeName supply

/-- Binds a flat expression, which follows `hoists`, to a fresh name. Identifiers are left
as they are.
-/
def Splitting.bindFlat (dialect : Dialect)
    : List Hoist × Expr → Splitting (List Hoist × Expr)
  | (hoists, .ident i) => pure (hoists, .ident i)
  | (hoists, value) => do
      let hoist : Hoist := ⟨value.span, ← takeName dialect, value⟩
      return (hoists ++ [hoist], hoist.ref)

/-- A run in two parts succeeds if both parts do, the second from where the first ends. -/
theorem Splitting.bind_eq_ok_iff {α β : Type} {first : Splitting α} {second : α → Splitting β}
    {start finish : NameSupply} {result : β}
    : (first >>= second) start = .ok result finish
      ↔ ∃ value middle,
          first start = .ok value middle ∧ second value middle = .ok result finish := by
  simp only [bind, EStateM.bind]
  cases first start <;> simp [and_assoc]

/-- A run in two parts stops if the first part does, or if the second does after it. -/
theorem Splitting.bind_eq_error_iff {α β : Type} {first : Splitting α}
    {second : α → Splitting β} {start finish : NameSupply} {stop : Stop CallFault}
    : (first >>= second) start = .error stop finish
      ↔ first start = .error stop finish
        ∨ ∃ value middle,
            first start = .ok value middle ∧ second value middle = .error stop finish := by
  simp only [bind, EStateM.bind]
  cases first start <;> simp [and_assoc]

theorem Splitting.pure_eq_ok_iff {α : Type} {value result : α} {start finish : NameSupply}
    : (pure value : Splitting α) start = .ok result finish ↔ value = result ∧ start = finish := by
  simp [pure, EStateM.pure]

theorem Splitting.slots_eq_ok_iff {dialect : Dialect} {call : Call} {slots : List Slot}
    {start finish : NameSupply}
    : Splitting.slots dialect call start = .ok slots finish
      ↔ dialect.slots call = .ok slots ∧ start = finish := by
  rw [Splitting.slots]
  cases dialect.slots call with
  | ok given => simp [pure_eq_ok_iff]
  | error fault =>
      constructor
      · intro run
        cases run
      · intro holds
        rcases holds with ⟨same, -⟩
        cases same

theorem Splitting.takeName_eq_ok_iff {dialect : Dialect} {name : Name}
    {start finish : NameSupply}
    : Splitting.takeName dialect start = .ok name finish
      ↔ start.fresh? dialect = some (name, finish) := by
  rw [Splitting.takeName]
  cases start.fresh? dialect with
  | none => simp
  | some handed => simp [Prod.ext_iff]

mutual
/-- Outlines the arguments of `expr` and keeps `expr` itself in place. A call is checked
before its arguments are visited.
-/
def Expr.flatten (dialect : Dialect) : Expr → Splitting (List Hoist × Expr)
  | .ident i => pure ([], .ident i)
  | .literal l => pure ([], .literal l)
  | .call span callee args => do
      let slots ← Splitting.slots dialect ⟨span, callee, args⟩
      let (hoists, args) ← Expr.outlineArgs dialect slots args
      return (hoists, .call span callee args)
/-- Outlines the arguments in outlinable slots, from last to first. -/
def Expr.outlineArgs (dialect : Dialect)
    : List Slot → List Expr → Splitting (List Hoist × List Expr)
  | .literalOnly :: slots, arg :: args => do
      let (hoists, args) ← Expr.outlineArgs dialect slots args
      return (hoists, arg :: args)
  | .outlinable :: slots, arg :: args => do
      let (later, args) ← Expr.outlineArgs dialect slots args
      let (hoists, arg) ← Splitting.bindFlat dialect (← arg.flatten dialect)
      return (later ++ hoists, arg :: args)
  | _, args => pure ([], args)
end

/-- Replaces `expr` by a reference to its value, unless it is a reference already. -/
def Expr.outline (dialect : Dialect) (expr : Expr) : Splitting (List Hoist × Expr) := do
  Splitting.bindFlat dialect (← expr.flatten dialect)

mutual
/-- Splits one statement, and gives the declarations that are to stand in front of it. The
blocks inside it keep their own declarations.
-/
def Stmt.split (dialect : Dialect) : Stmt → Splitting (List Hoist × Stmt)
  | .expr span value => do
      let (hoists, value) ← value.flatten dialect
      return (hoists, .expr span value)
  | .assign span targets value => do
      let (hoists, value) ← value.flatten dialect
      return (hoists, .assign span targets value)
  | .declare span bindings (some value) => do
      let (hoists, value) ← value.flatten dialect
      return (hoists, .declare span bindings (some value))
  | .declare span bindings none => return ([], .declare span bindings none)
  | .define span name params returns body => do
      return ([], .define span name params returns (← body.split dialect))
  | .branch span condition body => do
      let (hoists, condition) ← condition.outline dialect
      return (hoists, .branch span condition (← body.split dialect))
  | .switch span subject cases => do
      let (hoists, subject) ← subject.outline dialect
      return (hoists, .switch span subject (← Stmt.splitCases dialect cases))
  | .loop span pre condition post body => do
      let pre ← pre.split dialect
      let post ← post.split dialect
      return ([], .loop span pre condition post (← body.split dialect))
  | .breakLoop span => return ([], .breakLoop span)
  | .continueLoop span => return ([], .continueLoop span)
  | .leave span => return ([], .leave span)
  | .block body => return ([], .block (← body.split dialect))
/-- Splits the statements of a block. -/
def Block.split (dialect : Dialect) : Block → Splitting Block
  | ⟨span, stmts⟩ => return ⟨span, ← Stmt.splitList dialect stmts⟩
/-- Splits statements in order and puts the declarations of each in front of it. -/
def Stmt.splitList (dialect : Dialect) : List Stmt → Splitting (List Stmt)
  | [] => return []
  | stmt :: rest => do
      let (hoists, stmt) ← stmt.split dialect
      return hoists.map Hoist.toStmt ++ stmt :: (← Stmt.splitList dialect rest)
/-- Splits the bodies of cases in order. -/
def Stmt.splitCases (dialect : Dialect) : List Case → Splitting (List Case)
  | [] => return []
  | ⟨span, label, body⟩ :: rest => do
      let body ← body.split dialect
      return ⟨span, label, body⟩ :: (← Stmt.splitCases dialect rest)
end

/-- A concatenation is split part by part; nothing passes from one part to the next but the
supply.
-/
theorem Stmt.splitList_append (dialect : Dialect) (front back : List Stmt)
    : Stmt.splitList dialect (front ++ back) = (do
        let front ← Stmt.splitList dialect front
        let back ← Stmt.splitList dialect back
        return front ++ back) := by
  induction front with
  | nil => simp [Stmt.splitList]
  | cons stmt rest ih =>
      simp only [List.cons_append, Stmt.splitList, ih, bind_assoc, pure_bind,
        List.append_assoc]

end StackIR
