import StackIR.Proofs.Minting

/-! The uses of names, each with the part that the name plays there.

Uses are listed in the order of the text. A split leaves exactly two uses of every name that
it mints: the hoist that binds it, and behind it the reference to the hoist. It adds no other
use of a name that the program does not know: `rolesOf_uses`.
-/

namespace StackIR

/-- The part that a name plays where it stands. -/
inductive Role where
  /-- An identifier as an expression. -/
  | read
  | called
  | assigned
  /-- The only binding of a declaration with a value. -/
  | boundToValue
  /-- Any other binding of a declaration. -/
  | bound
  | function
  | parameter
  | result
deriving DecidableEq, Repr

/-- A name and the part that it plays. -/
abbrev Use := Role × Name

def Callee.uses : Callee → List Use
  | .user ident => [(.called, ident.name)]
  | _ => []

mutual
def Expr.uses : Expr → List Use
  | .ident i => [(.read, i.name)]
  | .literal _ => []
  | .call _ callee args => callee.uses ++ Expr.argUses args
def Expr.argUses : List Expr → List Use
  | [] => []
  | arg :: args => arg.uses ++ Expr.argUses args
end

/-- The part that the bindings of a declaration play. -/
def Declaration.role : List Binding → Option Expr → Role
  | [_], some _ => .boundToValue
  | _, _ => .bound

mutual
def Stmt.uses : Stmt → List Use
  | .expr _ value => value.uses
  | .assign _ targets value =>
      targets.map (fun target => (.assigned, target.name)) ++ value.uses
  | .declare _ bindings value =>
      bindings.map (fun binding => (Declaration.role bindings value, binding.name))
        ++ (value.map Expr.uses).getD []
  | .define _ name params returns body =>
      (.function, name)
        :: (params.map (fun param => (.parameter, param.name))
          ++ returns.map (fun result => (.result, result.name)))
        ++ body.uses
  | .branch _ condition body => condition.uses ++ body.uses
  | .switch _ subject cases => subject.uses ++ Stmt.caseUses cases
  | .loop _ pre condition post body => pre.uses ++ condition.uses ++ post.uses ++ body.uses
  | .breakLoop _ | .continueLoop _ | .leave _ => []
  | .block body => body.uses
def Block.uses : Block → List Use
  | ⟨_, stmts⟩ => Stmt.listUses stmts
def Stmt.listUses : List Stmt → List Use
  | [] => []
  | stmt :: rest => stmt.uses ++ Stmt.listUses rest
def Stmt.caseUses : List Case → List Use
  | [] => []
  | ⟨_, _, body⟩ :: rest => body.uses ++ Stmt.caseUses rest
end

/-- The uses of hoists that stand in front of a statement. -/
def Hoist.listUses (hoists : List Hoist) : List Use :=
  Stmt.listUses (hoists.map Hoist.toStmt)

theorem Stmt.listUses_append (front back : List Stmt)
    : Stmt.listUses (front ++ back) = Stmt.listUses front ++ Stmt.listUses back := by
  induction front with
  | nil => rfl
  | cons stmt rest ih => simp [Stmt.listUses, ih]

theorem Hoist.listUses_append (front back : List Hoist)
    : Hoist.listUses (front ++ back) = Hoist.listUses front ++ Hoist.listUses back := by
  simp [Hoist.listUses, Stmt.listUses_append]

theorem Hoist.listUses_singleton (hoist : Hoist)
    : Hoist.listUses [hoist] = (.boundToValue, hoist.name) :: hoist.value.uses := by
  simp [Hoist.listUses, Hoist.toStmt, Declaration.single, Declaration.toStmt,
    Stmt.listUses, Stmt.uses, Declaration.role]

theorem Callee.names_eq (callee : Callee) : callee.names = callee.uses.map Prod.snd := by
  cases callee <;> rfl

mutual
theorem Expr.names_eq : ∀ expr : Expr, expr.names = expr.uses.map Prod.snd
  | .ident _ | .literal _ => rfl
  | .call _ callee args => by
      simp [Expr.names, Expr.uses, callee.names_eq, Expr.argNames_eq args]
theorem Expr.argNames_eq : ∀ args : List Expr,
    Expr.argNames args = (Expr.argUses args).map Prod.snd
  | [] => rfl
  | arg :: args => by
      simp [Expr.argNames, Expr.argUses, arg.names_eq, Expr.argNames_eq args]
end

mutual
theorem Stmt.names_eq : ∀ stmt : Stmt, stmt.names = stmt.uses.map Prod.snd
  | .expr _ value => value.names_eq
  | .assign _ targets value => by
      simp [Stmt.names, Stmt.uses, value.names_eq, Function.comp_def]
  | .declare _ bindings (some value) => by
      simp [Stmt.names, Stmt.uses, value.names_eq, Function.comp_def]
  | .declare _ bindings none => by simp [Stmt.names, Stmt.uses, Function.comp_def]
  | .define _ name params returns body => by
      simp [Stmt.names, Stmt.uses, body.names_eq, Function.comp_def]
  | .branch _ condition body => by
      simp [Stmt.names, Stmt.uses, condition.names_eq, body.names_eq]
  | .switch _ subject cases => by
      simp [Stmt.names, Stmt.uses, subject.names_eq, Stmt.caseNames_eq cases]
  | .loop _ pre condition post body => by
      simp [Stmt.names, Stmt.uses, pre.names_eq, condition.names_eq, post.names_eq,
        body.names_eq]
  | .breakLoop _ | .continueLoop _ | .leave _ => rfl
  | .block body => body.names_eq
theorem Block.names_eq : ∀ block : Block, block.names = block.uses.map Prod.snd
  | ⟨_, stmts⟩ => Stmt.listNames_eq stmts
theorem Stmt.listNames_eq : ∀ stmts : List Stmt,
    Stmt.listNames stmts = (Stmt.listUses stmts).map Prod.snd
  | [] => rfl
  | stmt :: rest => by
      simp [Stmt.listNames, Stmt.listUses, stmt.names_eq, Stmt.listNames_eq rest]
theorem Stmt.caseNames_eq : ∀ cases : List Case,
    Stmt.caseNames cases = (Stmt.caseUses cases).map Prod.snd
  | [] => rfl
  | ⟨_, _, body⟩ :: rest => by
      simp [Stmt.caseNames, Stmt.caseUses, body.names_eq, Stmt.caseNames_eq rest]
end

/-- The parts that one name plays, in the order of its uses. -/
def rolesOf (name : Name) (uses : List Use) : List Role :=
  uses.filterMap fun use => if use.2 = name then some use.1 else none

theorem rolesOf_append (name : Name) (front back : List Use)
    : rolesOf name (front ++ back) = rolesOf name front ++ rolesOf name back :=
  List.filterMap_append

theorem rolesOf_cons (name : Name) (use : Use) (uses : List Use)
    : rolesOf name (use :: uses)
      = (if use.2 = name then [use.1] else []) ++ rolesOf name uses := by
  simp only [rolesOf, List.filterMap_cons]
  split <;> simp_all

/-- A name plays no part exactly if it does not occur. -/
theorem rolesOf_eq_nil_iff {name : Name} {uses : List Use}
    : rolesOf name uses = [] ↔ name ∉ uses.map Prod.snd := by
  simp only [rolesOf, List.filterMap_eq_nil_iff, List.mem_map, ite_eq_right_iff,
    reduceCtorEq, imp_false, not_exists, not_and]

theorem rolesOf_map_eq_nil {α : Type} {name : Name} {list : List α} {nameOf : α → Name}
    (role : Role) (unknown : name ∉ list.map nameOf)
    : rolesOf name (list.map fun item => (role, nameOf item)) = [] :=
  rolesOf_eq_nil_iff.mpr (by simpa using unknown)

theorem Callee.rolesOf_eq_nil {callee : Callee} {name : Name} (unknown : name ∉ callee.names)
    : rolesOf name callee.uses = [] :=
  rolesOf_eq_nil_iff.mpr (callee.names_eq ▸ unknown)

theorem Expr.rolesOf_eq_nil {expr : Expr} {name : Name} (unknown : name ∉ expr.names)
    : rolesOf name expr.uses = [] :=
  rolesOf_eq_nil_iff.mpr (expr.names_eq ▸ unknown)

theorem Stmt.rolesOf_eq_nil {stmt : Stmt} {name : Name} (unknown : name ∉ stmt.names)
    : rolesOf name stmt.uses = [] :=
  rolesOf_eq_nil_iff.mpr (stmt.names_eq ▸ unknown)

/-- The parts of a name that a hoist introduces and that nothing else uses: the binding of
the hoist, and behind it one reference.
-/
def hoistRoles (isMinted : Bool) : List Role :=
  if isMinted then [.boundToValue, .read] else []

/-- Of two runs at most one mints a name, so the parts that they give it never mix. -/
theorem hoistRoles_append {first second : List Role} {a b : Bool}
    (mintedFirst : first = hoistRoles a) (mintedSecond : second = hoistRoles b)
    (once : a = true → b = false)
    : first ++ second = hoistRoles (a || b) := by
  subst mintedFirst mintedSecond
  cases a with
  | true => simp [hoistRoles, once rfl]
  | false => simp [hoistRoles]

/-- The same, if the second run stands between the hoists and the references of the first. -/
theorem hoistRoles_nested {binders refs inner refs' : List Role} {a b : Bool}
    (outerMinted : binders ++ refs = hoistRoles a) (innerMinted : inner ++ refs' = hoistRoles b)
    (once : a = true → b = false)
    : (binders ++ inner) ++ (refs' ++ refs) = hoistRoles (a || b) := by
  cases b with
  | true =>
      have none : a = false := by
        cases a with
        | true => exact absurd (once rfl) (by decide)
        | false => rfl
      subst none
      obtain ⟨rfl, rfl⟩ := List.append_eq_nil_iff.mp outerMinted
      simpa using innerMinted
  | false =>
      obtain ⟨rfl, rfl⟩ := List.append_eq_nil_iff.mp innerMinted
      simpa using outerMinted

/-- A new hoist binds its name behind all other hoists, in front of the reference to it. -/
theorem hoistRoles_bind {binders refs : List Role} {a : Bool} {handed name : Name}
    (inner : binders ++ refs = hoistRoles a) (once : a = true → decide (name = handed) = false)
    : binders ++ ((if handed = name then [.boundToValue] else []) ++ refs)
        ++ (if handed = name then [.read] else [])
      = hoistRoles (a || decide (name = handed)) := by
  by_cases same : handed = name
  · subst same
    cases a with
    | true => simp at once
    | false =>
        obtain ⟨rfl, rfl⟩ := List.append_eq_nil_iff.mp inner
        simp [hoistRoles]
  · simpa [same, Ne.symm same] using inner

-----------------------------------------------------------------------------------------
-- Uses after a split
-----------------------------------------------------------------------------------------

open NameSupply

variable {dialect : Dialect} {name : Name}

mutual
/-- An unknown name is used in the hoists and behind them as a minted name is, or not at all,
by induction over the derivation.
-/
theorem Expr.Flattens.rolesOf_uses {start expr hoists flat finish}
    : Expr.Flattens dialect start expr hoists flat finish → name ∉ expr.names
      → rolesOf name (Hoist.listUses hoists) ++ rolesOf name flat.uses
        = hoistRoles (minted start finish name)
  | .ident, unknown | .literal, unknown => by
      rw [minted_self, Expr.rolesOf_eq_nil unknown]
      rfl
  | .call _ outlined, unknown => by
      simp only [Expr.names, List.mem_append, not_or] at unknown
      rw [Expr.uses, rolesOf_append, Callee.rolesOf_eq_nil unknown.1, List.nil_append]
      exact outlined.rolesOf_uses unknown.2
theorem Expr.ArgsOutline.rolesOf_uses {start slots args hoists flat finish}
    : Expr.ArgsOutline dialect start slots args hoists flat finish → name ∉ Expr.argNames args
      → rolesOf name (Hoist.listUses hoists) ++ rolesOf name (Expr.argUses flat)
        = hoistRoles (minted start finish name)
  | .nil, _ => by
      rw [minted_self]
      rfl
  | .literalOnly rest, unknown => by
      simp only [Expr.argNames, List.mem_append, not_or] at unknown
      rw [Expr.argUses, rolesOf_append, Expr.rolesOf_eq_nil unknown.1, List.nil_append]
      exact rest.rolesOf_uses unknown.2
  | .outlinable rest first, unknown => by
      simp only [Expr.argNames, List.mem_append, not_or] at unknown
      rw [Hoist.listUses_append, Expr.argUses, rolesOf_append, rolesOf_append,
        rest.grows.minted_eq_or first.grows]
      exact hoistRoles_nested (rest.rolesOf_uses unknown.2) (first.rolesOf_uses unknown.1)
        minted_eq_false_of_minted
theorem Expr.Outlines.rolesOf_uses {start expr hoists ref finish}
    : Expr.Outlines dialect start expr hoists ref finish → name ∉ expr.names
      → rolesOf name (Hoist.listUses hoists) ++ rolesOf name ref.uses
        = hoistRoles (minted start finish name)
  | .ident, unknown => by
      rw [minted_self, Expr.rolesOf_eq_nil unknown]
      rfl
  | .bind _ flattened handed, unknown => by
      have inner := flattened.rolesOf_uses unknown
      have uses := hoistRoles_bind inner fun first => by
        rw [← minted_of_fresh? handed]
        exact minted_eq_false_of_minted first
      rw [flattened.grows.minted_eq_or (grows_of_fresh? handed), minted_of_fresh? handed,
        Hoist.listUses_append, Hoist.listUses_singleton, rolesOf_append, rolesOf_cons, ← uses,
        Expr.uses, rolesOf_cons]
      simp [rolesOf]
end

/-- The names of outlined arguments are old names and minted ones. -/
theorem Expr.ArgsOutline.knows_names {start slots args hoists flat finish}
    (derived : Expr.ArgsOutline dialect start slots args hoists flat finish)
    (known : start.Knows (Expr.argNames args))
    : finish.Knows (Expr.argNames flat) := by
  intro name member
  by_cases old : name ∈ Expr.argNames args
  · exact derived.grows name (known name old)
  · have roles := derived.rolesOf_uses old
    cases isMinted : NameSupply.minted start finish name with
    | true => exact (NameSupply.minted_iff.mp isMinted).1
    | false =>
        rw [isMinted] at roles
        have unused := rolesOf_eq_nil_iff.mp (List.append_eq_nil_iff.mp roles).2
        exact absurd (Expr.argNames_eq flat ▸ member) unused

mutual
/-- The same for a statement and its hoists. Blocks inside it keep their own hoists. -/
theorem Stmt.Splits.rolesOf_uses {start stmt hoists stmt' finish}
    : Stmt.Splits dialect start stmt hoists stmt' finish → name ∉ stmt.names
      → rolesOf name (Hoist.listUses hoists) ++ rolesOf name stmt'.uses
        = hoistRoles (minted start finish name)
  | .expr flattened, unknown => flattened.rolesOf_uses unknown
  | .assign flattened, unknown => by
      simp only [Stmt.names, List.mem_append, not_or] at unknown
      rw [Stmt.uses, rolesOf_append, rolesOf_map_eq_nil .assigned unknown.1, List.nil_append]
      exact flattened.rolesOf_uses unknown.2
  | .declare flattened, unknown => by
      simp only [Stmt.names, List.mem_append, not_or, Option.map_some, Option.getD_some]
        at unknown
      rw [Stmt.uses, rolesOf_append, rolesOf_map_eq_nil _ unknown.1, List.nil_append]
      exact flattened.rolesOf_uses unknown.2
  | .declareUnset, unknown => by
      rw [minted_self, Stmt.rolesOf_eq_nil unknown]
      rfl
  | .breakLoop, _ | .continueLoop, _ | .leave, _ => by
      rw [minted_self]
      rfl
  | .define inner, unknown => by
      simp only [Stmt.names, List.cons_append, List.mem_cons, List.mem_append, not_or] at unknown
      rcases unknown with ⟨other, ⟨params, results⟩, below⟩
      rw [Stmt.uses, rolesOf_append, rolesOf_cons, if_neg (Ne.symm other), rolesOf_append,
        rolesOf_map_eq_nil .parameter params, rolesOf_map_eq_nil .result results]
      exact inner.rolesOf_uses below
  | .block inner, unknown => inner.rolesOf_uses unknown
  | .branch outlined inner, unknown => by
      simp only [Stmt.names, List.mem_append, not_or] at unknown
      rw [Stmt.uses, rolesOf_append, ← List.append_assoc,
        outlined.grows.minted_eq_or inner.grows]
      exact hoistRoles_append (outlined.rolesOf_uses unknown.1) (inner.rolesOf_uses unknown.2)
        minted_eq_false_of_minted
  | .switch outlined inner, unknown => by
      simp only [Stmt.names, List.mem_append, not_or] at unknown
      rw [Stmt.uses, rolesOf_append, ← List.append_assoc,
        outlined.grows.minted_eq_or inner.grows]
      exact hoistRoles_append (outlined.rolesOf_uses unknown.1) (inner.rolesOf_uses unknown.2)
        minted_eq_false_of_minted
  | .loop first second third, unknown => by
      simp only [Stmt.names, List.mem_append, not_or] at unknown
      rcases unknown with ⟨⟨⟨inPre, inCondition⟩, inPost⟩, inBody⟩
      have noHoists : rolesOf name (Hoist.listUses []) = [] := rfl
      simp only [noHoists, Stmt.uses, rolesOf_append, Expr.rolesOf_eq_nil inCondition,
        List.nil_append, List.append_nil]
      rw [(first.grows.trans second.grows).minted_eq_or third.grows,
        first.grows.minted_eq_or second.grows]
      refine hoistRoles_append ?_ (third.rolesOf_uses inBody) ?_
      · exact hoistRoles_append (first.rolesOf_uses inPre) (second.rolesOf_uses inPost)
          minted_eq_false_of_minted
      · rw [← first.grows.minted_eq_or second.grows]
        exact minted_eq_false_of_minted
theorem Block.Splits.rolesOf_uses {start block block' finish}
    : Block.Splits dialect start block block' finish → name ∉ block.names
      → rolesOf name block'.uses = hoistRoles (minted start finish name)
  | .mk inner, unknown => inner.rolesOf_uses unknown
theorem Stmt.ListSplits.rolesOf_uses {start stmts stmts' finish}
    : Stmt.ListSplits dialect start stmts stmts' finish → name ∉ Stmt.listNames stmts
      → rolesOf name (Stmt.listUses stmts') = hoistRoles (minted start finish name)
  | .nil, _ => by
      rw [minted_self]
      rfl
  | .cons first rest, unknown => by
      simp only [Stmt.listNames, List.mem_append, not_or] at unknown
      rw [Stmt.listUses_append, Stmt.listUses, rolesOf_append, rolesOf_append,
        ← List.append_assoc, first.grows.minted_eq_or rest.grows]
      exact hoistRoles_append (first.rolesOf_uses unknown.1) (rest.rolesOf_uses unknown.2)
        minted_eq_false_of_minted
theorem Stmt.CasesSplit.rolesOf_uses {start cases cases' finish}
    : Stmt.CasesSplit dialect start cases cases' finish → name ∉ Stmt.caseNames cases
      → rolesOf name (Stmt.caseUses cases') = hoistRoles (minted start finish name)
  | .nil, _ => by
      rw [minted_self]
      rfl
  | .cons first rest, unknown => by
      simp only [Stmt.caseNames, List.mem_append, not_or] at unknown
      rw [Stmt.caseUses, rolesOf_append, first.grows.minted_eq_or rest.grows]
      exact hoistRoles_append (first.rolesOf_uses unknown.1) (rest.rolesOf_uses unknown.2)
        minted_eq_false_of_minted
end

end StackIR
