import Mathlib.Data.List.Nodup
import Mathlib.Logic.Equiv.Basic
import StackIR.Occurrence
import StackIR.SplitForm
import StackIR.Splitting

/-! Renaming: every name of a program is replaced by its image under a function.

A renaming leaves a block alone exactly if it fixes all names that occur in it, and split form
does not depend on names: `Block.rename_eq_iff`, `Block.violations_rename`. Distinct names can
be renamed to other distinct names, one by one, without merging any two names:
`exists_injective_map_eq`.
-/

namespace StackIR

def Ident.rename (rename : Name → Name) (ident : Ident) : Ident :=
  { ident with name := rename ident.name }

def Binding.rename (rename : Name → Name) (binding : Binding) : Binding :=
  { binding with name := rename binding.name }

/-- Renames a user function; other callees have no name in the program. -/
def Callee.rename (rename : Name → Name) : Callee → Callee
  | .user ident => .user (ident.rename rename)
  | callee => callee

mutual
def Expr.rename (rename : Name → Name) : Expr → Expr
  | .ident i => .ident (i.rename rename)
  | .literal l => .literal l
  | .call span callee args => .call span (callee.rename rename) (Expr.renameArgs rename args)
def Expr.renameArgs (rename : Name → Name) : List Expr → List Expr
  | [] => []
  | arg :: args => arg.rename rename :: Expr.renameArgs rename args
end

mutual
def Stmt.rename (rename : Name → Name) : Stmt → Stmt
  | .expr span value => .expr span (value.rename rename)
  | .assign span targets value =>
      .assign span (targets.map (Ident.rename rename)) (value.rename rename)
  | .declare span bindings value =>
      .declare span (bindings.map (Binding.rename rename)) (value.map (Expr.rename rename))
  | .define span name params returns body =>
      .define span (rename name) (params.map (Binding.rename rename))
        (returns.map (Binding.rename rename)) (body.rename rename)
  | .branch span condition body => .branch span (condition.rename rename) (body.rename rename)
  | .switch span subject cases =>
      .switch span (subject.rename rename) (Stmt.renameCases rename cases)
  | .loop span pre condition post body =>
      .loop span (pre.rename rename) (condition.rename rename) (post.rename rename)
        (body.rename rename)
  | .breakLoop span => .breakLoop span
  | .continueLoop span => .continueLoop span
  | .leave span => .leave span
  | .block body => .block (body.rename rename)
/-- Renames everything in a block, declared names and their uses alike. -/
def Block.rename (rename : Name → Name) : Block → Block
  | ⟨span, stmts⟩ => ⟨span, Stmt.renameList rename stmts⟩
def Stmt.renameList (rename : Name → Name) : List Stmt → List Stmt
  | [] => []
  | stmt :: rest => stmt.rename rename :: Stmt.renameList rename rest
def Stmt.renameCases (rename : Name → Name) : List Case → List Case
  | [] => []
  | ⟨span, label, body⟩ :: rest =>
      ⟨span, label, body.rename rename⟩ :: Stmt.renameCases rename rest
end

def Hoist.rename (rename : Name → Name) (hoist : Hoist) : Hoist :=
  { hoist with name := rename hoist.name, value := hoist.value.rename rename }

variable (rename : Name → Name)

theorem Stmt.renameList_append (front back : List Stmt)
    : Stmt.renameList rename (front ++ back)
      = Stmt.renameList rename front ++ Stmt.renameList rename back := by
  induction front with
  | nil => rfl
  | cons stmt rest ih => simp [Stmt.renameList, ih]

/-- Renamed hoists are the renamed declarations. -/
theorem Hoist.renameList_toStmt (hoists : List Hoist)
    : Stmt.renameList rename (hoists.map toStmt)
      = (hoists.map (Hoist.rename rename)).map toStmt := by
  induction hoists with
  | nil => rfl
  | cons hoist rest ih =>
      rw [List.map_cons, Stmt.renameList, ih]
      rfl

-----------------------------------------------------------------------------------------
-- What a renaming leaves alone
-----------------------------------------------------------------------------------------

theorem Ident.rename_eq_iff (ident : Ident)
    : ident.rename rename = ident ↔ rename ident.name = ident.name := by
  cases ident
  simp [Ident.rename]

theorem Binding.rename_eq_iff (binding : Binding)
    : binding.rename rename = binding ↔ rename binding.name = binding.name := by
  cases binding
  simp [Binding.rename]

theorem Callee.rename_eq_iff (callee : Callee)
    : callee.rename rename = callee ↔ ∀ name ∈ callee.names, rename name = name := by
  cases callee <;> simp [Callee.rename, Callee.names, Ident.rename_eq_iff]

/-- A list of named things is left alone exactly if each of them is. -/
theorem map_rename_eq_iff {α : Type} {renamed : α → α} {nameOf : α → Name}
    (each : ∀ a, renamed a = a ↔ rename (nameOf a) = nameOf a) (list : List α)
    : list.map renamed = list ↔ ∀ name ∈ list.map nameOf, rename name = name := by
  induction list with
  | nil => simp
  | cons a rest ih =>
      rw [List.map_cons, List.map_cons, List.cons.injEq, each, ih, List.forall_mem_cons]

mutual
theorem Expr.rename_eq_iff : ∀ expr : Expr,
    expr.rename rename = expr ↔ ∀ name ∈ expr.names, rename name = name
  | .ident i => by simp [Expr.rename, Expr.names, Ident.rename_eq_iff]
  | .literal l => by simp [Expr.rename, Expr.names]
  | .call span callee args => by
      rw [Expr.rename, Expr.names, List.forall_mem_append, ← Callee.rename_eq_iff,
        ← Expr.renameArgs_eq_iff args]
      simp
theorem Expr.renameArgs_eq_iff : ∀ args : List Expr,
    Expr.renameArgs rename args = args ↔ ∀ name ∈ Expr.argNames args, rename name = name
  | [] => by simp [Expr.renameArgs, Expr.argNames]
  | arg :: args => by
      rw [Expr.renameArgs, Expr.argNames, List.cons.injEq, List.forall_mem_append,
        Expr.rename_eq_iff arg, Expr.renameArgs_eq_iff args]
end

mutual
theorem Stmt.rename_eq_iff : ∀ stmt : Stmt,
    stmt.rename rename = stmt ↔ ∀ name ∈ stmt.names, rename name = name
  | .expr span value => by
      rw [Stmt.rename, Stmt.names, ← Expr.rename_eq_iff]
      simp
  | .assign span targets value => by
      rw [Stmt.rename, Stmt.names, List.forall_mem_append, ← Expr.rename_eq_iff,
        ← map_rename_eq_iff rename (Ident.rename_eq_iff rename)]
      simp
  | .declare span bindings none => by
      rw [Stmt.rename, Stmt.names, List.forall_mem_append,
        ← map_rename_eq_iff rename (Binding.rename_eq_iff rename)]
      simp
  | .declare span bindings (some value) => by
      rw [Stmt.rename, Stmt.names, List.forall_mem_append, Option.map_some, Option.map_some,
        Option.getD_some, ← Expr.rename_eq_iff,
        ← map_rename_eq_iff rename (Binding.rename_eq_iff rename)]
      simp
  | .define span name params returns body => by
      rw [Stmt.rename, Stmt.names, List.forall_mem_append, List.forall_mem_cons,
        List.forall_mem_append, ← Block.rename_eq_iff body,
        ← map_rename_eq_iff rename (Binding.rename_eq_iff rename),
        ← map_rename_eq_iff rename (Binding.rename_eq_iff rename)]
      simp [and_assoc]
  | .branch span condition body => by
      rw [Stmt.rename, Stmt.names, List.forall_mem_append, ← Expr.rename_eq_iff,
        ← Block.rename_eq_iff body]
      simp
  | .switch span subject cases => by
      rw [Stmt.rename, Stmt.names, List.forall_mem_append, ← Expr.rename_eq_iff,
        ← Stmt.renameCases_eq_iff cases]
      simp
  | .loop span pre condition post body => by
      rw [Stmt.rename, Stmt.names, List.forall_mem_append, List.forall_mem_append,
        List.forall_mem_append, ← Expr.rename_eq_iff, ← Block.rename_eq_iff pre,
        ← Block.rename_eq_iff post, ← Block.rename_eq_iff body]
      simp [and_assoc]
  | .breakLoop _ | .continueLoop _ | .leave _ => by simp [Stmt.rename, Stmt.names]
  | .block body => by
      rw [Stmt.rename, Stmt.names, ← Block.rename_eq_iff body]
      simp
termination_by structural x => x
/-- A renaming leaves a block alone exactly if it fixes all names that occur in the block. -/
theorem Block.rename_eq_iff : ∀ block : Block,
    block.rename rename = block ↔ ∀ name ∈ block.names, rename name = name
  | ⟨span, stmts⟩ => by
      rw [Block.rename, Block.names, ← Stmt.renameList_eq_iff stmts]
      simp
termination_by structural x => x
theorem Stmt.renameList_eq_iff : ∀ stmts : List Stmt,
    Stmt.renameList rename stmts = stmts ↔ ∀ name ∈ Stmt.listNames stmts, rename name = name
  | [] => by simp [Stmt.renameList, Stmt.listNames]
  | stmt :: rest => by
      rw [Stmt.renameList, Stmt.listNames, List.cons.injEq, List.forall_mem_append,
        Stmt.rename_eq_iff stmt, Stmt.renameList_eq_iff rest]
termination_by structural x => x
theorem Stmt.renameCases_eq_iff : ∀ cases : List Case,
    Stmt.renameCases rename cases = cases ↔ ∀ name ∈ Stmt.caseNames cases, rename name = name
  | [] => by simp [Stmt.renameCases, Stmt.caseNames]
  | ⟨span, label, body⟩ :: rest => by
      rw [Stmt.renameCases, Stmt.caseNames, List.cons.injEq, List.forall_mem_append,
        ← Block.rename_eq_iff body, Stmt.renameCases_eq_iff rest]
      simp
termination_by structural x => x
end

-----------------------------------------------------------------------------------------
-- Split form does not depend on names
-----------------------------------------------------------------------------------------

variable (dialect : Dialect)

theorem Callee.requiresLiteral_rename (callee : Callee) (position : Nat)
    : dialect.requiresLiteral (callee.rename rename) position
      = dialect.requiresLiteral callee position := by
  cases callee <;> rfl

mutual
theorem Expr.argumentViolations_rename (callee : Callee) (position : Nat) : ∀ expr : Expr,
    (expr.rename rename).argumentViolations dialect (callee.rename rename) position
      = expr.argumentViolations dialect callee position
  | .ident i => rfl
  | .literal l => by
      rw [Expr.rename, Expr.argumentViolations, Expr.argumentViolations,
        Callee.requiresLiteral_rename]
  | .call span inner args => by
      rw [Expr.rename, Expr.argumentViolations, Expr.argumentViolations,
        Expr.argumentsViolations_rename inner 0 args]
theorem Expr.argumentsViolations_rename (callee : Callee) (position : Nat) :
    ∀ args : List Expr,
      Expr.argumentsViolations dialect (callee.rename rename) position
          (Expr.renameArgs rename args)
        = Expr.argumentsViolations dialect callee position args
  | [] => rfl
  | arg :: args => by
      rw [Expr.renameArgs, Expr.argumentsViolations, Expr.argumentsViolations,
        Expr.argumentViolations_rename callee position arg,
        Expr.argumentsViolations_rename callee (position + 1) args]
end

theorem Expr.violations_rename (expr : Expr)
    : (expr.rename rename).violations dialect = expr.violations dialect := by
  cases expr with
  | ident | literal => rfl
  | call span callee args => exact argumentsViolations_rename rename dialect callee 0 args

theorem Expr.conditionViolations_rename (expr : Expr)
    : (expr.rename rename).conditionViolations = expr.conditionViolations := by
  cases expr <;> rfl

mutual
theorem Stmt.violations_rename : ∀ stmt : Stmt,
    (stmt.rename rename).violations dialect = stmt.violations dialect
  | .expr _ value | .assign _ _ value | .declare _ _ (some value) =>
      Expr.violations_rename rename dialect value
  | .declare _ _ none | .breakLoop _ | .continueLoop _ | .leave _ => rfl
  | .define _ _ _ _ body | .block body => Block.violations_rename body
  | .branch _ condition body => by
      rw [Stmt.rename, Stmt.violations, Stmt.violations, Expr.conditionViolations_rename,
        Block.violations_rename body]
  | .switch _ subject cases => by
      rw [Stmt.rename, Stmt.violations, Stmt.violations, Expr.conditionViolations_rename,
        Stmt.caseViolations_rename cases]
  | .loop _ pre _ post body => by
      rw [Stmt.rename, Stmt.violations, Stmt.violations, Block.violations_rename pre,
        Block.violations_rename post, Block.violations_rename body]
termination_by structural x => x
/-- A renamed block departs from split form at the same places in the same ways. -/
theorem Block.violations_rename : ∀ block : Block,
    (block.rename rename).violations dialect = block.violations dialect
  | ⟨_, stmts⟩ => Stmt.listViolations_rename stmts
termination_by structural x => x
theorem Stmt.listViolations_rename : ∀ stmts : List Stmt,
    Stmt.listViolations dialect (Stmt.renameList rename stmts)
      = Stmt.listViolations dialect stmts
  | [] => rfl
  | stmt :: rest => by
      rw [Stmt.renameList, Stmt.listViolations, Stmt.listViolations,
        Stmt.violations_rename stmt, Stmt.listViolations_rename rest]
termination_by structural x => x
theorem Stmt.caseViolations_rename : ∀ cases : List Case,
    Stmt.caseViolations dialect (Stmt.renameCases rename cases)
      = Stmt.caseViolations dialect cases
  | [] => rfl
  | ⟨_, _, body⟩ :: rest => by
      rw [Stmt.renameCases, Stmt.caseViolations, Stmt.caseViolations,
        Block.violations_rename body, Stmt.caseViolations_rename rest]
termination_by structural x => x
end

-----------------------------------------------------------------------------------------
-- Distinct names can be renamed to other distinct names
-----------------------------------------------------------------------------------------

/-- Some permutation sends the elements of one list to those of another, in order, and moves
nothing else. By induction on the lists: after the first elements are swapped, the rest of the
first list is still distinct.
-/
theorem exists_perm_map_eq {α : Type} [DecidableEq α] {before after : List α}
    (distinctBefore : before.Nodup) (distinctAfter : after.Nodup)
    (sameLength : before.length = after.length)
    : ∃ perm : Equiv.Perm α,
        before.map perm = after ∧ ∀ a, a ∉ before → a ∉ after → perm a = a := by
  induction after generalizing before with
  | nil =>
      obtain rfl := List.length_eq_zero_iff.mp sameLength
      exact ⟨Equiv.refl α, rfl, fun _ _ _ => rfl⟩
  | cons b after ih =>
      obtain ⟨a, before, rfl⟩ := List.exists_cons_of_length_eq_add_one sameLength
      obtain ⟨aNew, distinctBefore⟩ := List.nodup_cons.mp distinctBefore
      obtain ⟨bNew, distinctAfter⟩ := List.nodup_cons.mp distinctAfter
      let swap := Equiv.swap a b
      have moved : ∀ c, c ∈ before.map swap ↔ swap c ∈ before := by
        intro c
        rw [List.mem_map]
        constructor
        · intro found
          obtain ⟨d, member, rfl⟩ := found
          rwa [Equiv.swap_apply_self]
        · intro member
          exact ⟨swap c, member, Equiv.swap_apply_self a b c⟩
      have distinctMoved : (before.map swap).Nodup :=
        (List.nodup_map_iff swap.injective).mpr distinctBefore
      obtain ⟨perm, maps, fixes⟩ := ih distinctMoved distinctAfter
        ((List.length_map _).trans (Nat.succ.inj sameLength))
      refine ⟨swap.trans perm, ?_, ?_⟩
      · have bFixed : perm b = b := by
          refine fixes b ?_ bNew
          rwa [moved, Equiv.swap_apply_right]
        rw [List.map_cons, Equiv.trans_apply, Equiv.swap_apply_left, bFixed, ← maps,
          List.map_map]
        rfl
      · intro c notBefore notAfter
        rw [List.mem_cons, not_or] at notBefore notAfter
        obtain ⟨notA, notInBefore⟩ := notBefore
        obtain ⟨notB, notInAfter⟩ := notAfter
        have still : swap c = c := Equiv.swap_apply_of_ne_of_ne notA notB
        rw [Equiv.trans_apply, still]
        refine fixes c ?_ notInAfter
        rwa [moved, still]

/-- Distinct names can be renamed one by one to as many other distinct names. No two names are
merged, and names that are on neither side stay.
-/
theorem exists_injective_map_eq {before after : List Name} (distinctBefore : before.Nodup)
    (distinctAfter : after.Nodup) (sameLength : before.length = after.length)
    : ∃ rename : Name → Name,
        Function.Injective rename
        ∧ before.map rename = after
        ∧ ∀ name, name ∉ before → name ∉ after → rename name = name := by
  obtain ⟨perm, maps, fixes⟩ := exists_perm_map_eq distinctBefore distinctAfter sameLength
  exact ⟨perm, perm.injective, maps, fixes⟩

end StackIR
