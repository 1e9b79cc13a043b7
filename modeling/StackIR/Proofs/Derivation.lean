import StackIR.Splitting

/-! Derivations of successful splits.

A derivation has one rule for each form of expression and statement and names the supply
before and after every part. A split succeeds exactly when its result can be derived:
`Block.split_eq_ok_iff`.
-/

namespace StackIR

mutual
/-- From `start`, the arguments of an expression are outlined into hoists, and the
expression that is left stays in place.
-/
inductive Expr.Flattens (dialect : Dialect)
    : NameSupply → Expr → List Hoist → Expr → NameSupply → Prop
  | ident {start i} : Expr.Flattens dialect start (.ident i) [] (.ident i) start
  | literal {start l} : Expr.Flattens dialect start (.literal l) [] (.literal l) start
  | call {start span callee args slots hoists flat finish}
    (classified : dialect.slots ⟨span, callee, args⟩ = .ok slots)
    (outlined : Expr.ArgsOutline dialect start slots args hoists flat finish)
    : Expr.Flattens dialect start (.call span callee args) hoists (.call span callee flat)
        finish
/-- The arguments in outlinable slots are outlined, from last to first. -/
inductive Expr.ArgsOutline (dialect : Dialect)
    : NameSupply → List Slot → List Expr → List Hoist → List Expr → NameSupply → Prop
  | nil {start} : Expr.ArgsOutline dialect start [] [] [] [] start
  | literalOnly {start slots arg args hoists flat finish}
    (rest : Expr.ArgsOutline dialect start slots args hoists flat finish)
    : Expr.ArgsOutline dialect start (.literalOnly :: slots) (arg :: args) hoists
        (arg :: flat) finish
  | outlinable {start slots arg args later flat middle hoists ref finish}
    (rest : Expr.ArgsOutline dialect start slots args later flat middle)
    (first : Expr.Outlines dialect middle arg hoists ref finish)
    : Expr.ArgsOutline dialect start (.outlinable :: slots) (arg :: args) (later ++ hoists)
        (ref :: flat) finish
/-- An expression is flattened and, if it is no identifier, bound to a fresh name. -/
inductive Expr.Outlines (dialect : Dialect)
    : NameSupply → Expr → List Hoist → Expr → NameSupply → Prop
  | ident {start i} : Expr.Outlines dialect start (.ident i) [] (.ident i) start
  | bind {start expr hoists flat middle name finish} (complex : expr.isIdent = false)
    (flattened : Expr.Flattens dialect start expr hoists flat middle)
    (handed : middle.fresh? dialect = some (name, finish))
    : Expr.Outlines dialect start expr (hoists ++ [⟨expr.span, name, flat⟩])
        (.ident ⟨expr.span, name⟩) finish
end

mutual
/-- From `start`, a statement is split into hoists and the statement behind them. -/
inductive Stmt.Splits (dialect : Dialect)
    : NameSupply → Stmt → List Hoist → Stmt → NameSupply → Prop
  | expr {start span value hoists flat finish}
    (flattened : value.Flattens dialect start hoists flat finish)
    : Stmt.Splits dialect start (.expr span value) hoists (.expr span flat) finish
  | assign {start span targets value hoists flat finish}
    (flattened : value.Flattens dialect start hoists flat finish)
    : Stmt.Splits dialect start (.assign span targets value) hoists
        (.assign span targets flat) finish
  | declare {start span bindings value hoists flat finish}
    (flattened : value.Flattens dialect start hoists flat finish)
    : Stmt.Splits dialect start (.declare span bindings (some value)) hoists
        (.declare span bindings (some flat)) finish
  | declareUnset {start span bindings}
    : Stmt.Splits dialect start (.declare span bindings none) []
        (.declare span bindings none) start
  | define {start span name params returns body body' finish}
    (inner : body.Splits dialect start body' finish)
    : Stmt.Splits dialect start (.define span name params returns body) []
        (.define span name params returns body') finish
  | branch {start span condition body hoists ref middle body' finish}
    (outlined : condition.Outlines dialect start hoists ref middle)
    (inner : body.Splits dialect middle body' finish)
    : Stmt.Splits dialect start (.branch span condition body) hoists
        (.branch span ref body') finish
  | switch {start span subject cases hoists ref middle cases' finish}
    (outlined : subject.Outlines dialect start hoists ref middle)
    (inner : Stmt.CasesSplit dialect middle cases cases' finish)
    : Stmt.Splits dialect start (.switch span subject cases) hoists
        (.switch span ref cases') finish
  | loop {start span pre condition post body pre' afterPre post' afterPost body' finish}
    (first : pre.Splits dialect start pre' afterPre)
    (second : post.Splits dialect afterPre post' afterPost)
    (third : body.Splits dialect afterPost body' finish)
    : Stmt.Splits dialect start (.loop span pre condition post body) []
        (.loop span pre' condition post' body') finish
  | breakLoop {start span}
    : Stmt.Splits dialect start (.breakLoop span) [] (.breakLoop span) start
  | continueLoop {start span}
    : Stmt.Splits dialect start (.continueLoop span) [] (.continueLoop span) start
  | leave {start span} : Stmt.Splits dialect start (.leave span) [] (.leave span) start
  | block {start body body' finish} (inner : body.Splits dialect start body' finish)
    : Stmt.Splits dialect start (.block body) [] (.block body') finish
inductive Block.Splits (dialect : Dialect)
    : NameSupply → Block → Block → NameSupply → Prop
  | mk {start span stmts stmts' finish}
    (inner : Stmt.ListSplits dialect start stmts stmts' finish)
    : Block.Splits dialect start ⟨span, stmts⟩ ⟨span, stmts'⟩ finish
/-- The statements are split in order, each behind its own hoists. -/
inductive Stmt.ListSplits (dialect : Dialect)
    : NameSupply → List Stmt → List Stmt → NameSupply → Prop
  | nil {start} : Stmt.ListSplits dialect start [] [] start
  | cons {start stmt stmts hoists stmt' middle stmts' finish}
    (first : stmt.Splits dialect start hoists stmt' middle)
    (rest : Stmt.ListSplits dialect middle stmts stmts' finish)
    : Stmt.ListSplits dialect start (stmt :: stmts)
        (hoists.map Hoist.toStmt ++ stmt' :: stmts') finish
inductive Stmt.CasesSplit (dialect : Dialect)
    : NameSupply → List Case → List Case → NameSupply → Prop
  | nil {start} : Stmt.CasesSplit dialect start [] [] start
  | cons {start span label body body' middle cases cases' finish}
    (first : body.Splits dialect start body' middle)
    (rest : Stmt.CasesSplit dialect middle cases cases' finish)
    : Stmt.CasesSplit dialect start (⟨span, label, body⟩ :: cases)
        (⟨span, label, body'⟩ :: cases') finish
end

variable {dialect : Dialect}

-----------------------------------------------------------------------------------------
-- A successful run can be derived
-----------------------------------------------------------------------------------------

/-- Binding a flat expression succeeds at once for an identifier, and with a fresh name for
any other expression.
-/
theorem Splitting.bindFlat_eq_ok_iff {before hoists : List Hoist} {value ref : Expr}
    {start finish : NameSupply}
    : Splitting.bindFlat dialect (before, value) start = .ok (hoists, ref) finish
      ↔ (value.isIdent = true ∧ hoists = before ∧ ref = value ∧ finish = start)
        ∨ (value.isIdent = false
          ∧ ∃ name, start.fresh? dialect = some (name, finish)
            ∧ hoists = before ++ [⟨value.span, name, value⟩]
            ∧ ref = .ident ⟨value.span, name⟩) := by
  cases value with
  | ident i =>
      simp only [bindFlat, pure_eq_ok_iff, Expr.isIdent, Prod.mk.injEq, true_and, and_assoc,
        Bool.true_eq_false, false_and, or_false]
      rw [eq_comm (a := before), eq_comm (b := ref), eq_comm (a := start)]
  | _ =>
      simp only [bindFlat, bind_eq_ok_iff, takeName_eq_ok_iff, pure_eq_ok_iff, Prod.mk.injEq,
        Expr.isIdent, Bool.false_eq_true, false_and, false_or, true_and, Hoist.ref]
      constructor
      · intro holds
        rcases holds with ⟨name, middle, handed, ⟨rfl, rfl⟩, rfl⟩
        exact ⟨name, handed, rfl, rfl⟩
      · intro holds
        rcases holds with ⟨name, handed, rfl, rfl⟩
        exact ⟨name, finish, handed, ⟨rfl, rfl⟩, rfl⟩

/-- Flattening keeps the form and the place of an expression. -/
theorem Expr.Flattens.shape {start expr hoists flat finish}
    (derived : Expr.Flattens dialect start expr hoists flat finish)
    : flat.isIdent = expr.isIdent ∧ flat.span = expr.span := by
  cases derived <;> exact ⟨rfl, rfl⟩

/-- A flattened expression that is an identifier was one before, and took no name. -/
theorem Expr.Flattens.eq_of_isIdent {start expr hoists flat finish}
    (derived : Expr.Flattens dialect start expr hoists flat finish)
    (ident : flat.isIdent = true)
    : ∃ i, expr = .ident i ∧ flat = .ident i ∧ hoists = [] ∧ finish = start := by
  cases derived with
  | ident => exact ⟨_, rfl, rfl, rfl, rfl⟩
  | literal | call => contradiction

/-- What takes the place of an outlined expression is an identifier. -/
theorem Expr.Outlines.eq_ident {start expr hoists ref finish}
    (derived : Expr.Outlines dialect start expr hoists ref finish)
    : ∃ i, ref = .ident i := by
  cases derived <;> exact ⟨_, rfl⟩

/-- Flattening and then binding is outlining. -/
theorem Expr.Flattens.outlines {start expr before flat middle hoists ref finish}
    (flattened : Expr.Flattens dialect start expr before flat middle)
    (bound : Splitting.bindFlat dialect (before, flat) middle = .ok (hoists, ref) finish)
    : Expr.Outlines dialect start expr hoists ref finish := by
  obtain ⟨sameForm, sameSpan⟩ := flattened.shape
  rcases Splitting.bindFlat_eq_ok_iff.mp bound with
    ⟨ident, rfl, rfl, rfl⟩ | ⟨complex, name, handed, rfl, rfl⟩
  · obtain ⟨i, rfl, rfl, rfl, rfl⟩ := flattened.eq_of_isIdent ident
    exact .ident
  · rw [sameSpan]
    exact .bind (sameForm ▸ complex) flattened handed

mutual
/-- Every successful run on an expression has a derivation, by induction on the expression. -/
theorem Expr.flattens_of_flatten {start hoists flat finish}
    : ∀ {expr : Expr}, expr.flatten dialect start = .ok (hoists, flat) finish
      → expr.Flattens dialect start hoists flat finish
  | .ident i, run => by
      simp only [Expr.flatten, Splitting.pure_eq_ok_iff, Prod.mk.injEq] at run
      rcases run with ⟨⟨rfl, rfl⟩, rfl⟩
      exact .ident
  | .literal l, run => by
      simp only [Expr.flatten, Splitting.pure_eq_ok_iff, Prod.mk.injEq] at run
      rcases run with ⟨⟨rfl, rfl⟩, rfl⟩
      exact .literal
  | .call span callee args, run => by
      simp only [Expr.flatten, Splitting.bind_eq_ok_iff, Splitting.slots_eq_ok_iff,
        Splitting.pure_eq_ok_iff, Prod.exists, Prod.mk.injEq] at run
      rcases run with ⟨slots, _, ⟨classified, rfl⟩, _, _, _, inner, ⟨rfl, rfl⟩, rfl⟩
      exact .call classified
        (Expr.argsOutline_of_outlineArgs (Dialect.length_of_slots_eq_ok classified) inner)
theorem Expr.argsOutline_of_outlineArgs {start hoists flat finish}
    : ∀ {slots : List Slot} {args : List Expr}, slots.length = args.length
      → Expr.outlineArgs dialect slots args start = .ok (hoists, flat) finish
      → Expr.ArgsOutline dialect start slots args hoists flat finish
  | [], [], _, run => by
      simp only [Expr.outlineArgs, Splitting.pure_eq_ok_iff, Prod.mk.injEq] at run
      rcases run with ⟨⟨rfl, rfl⟩, rfl⟩
      exact .nil
  | .literalOnly :: slots, arg :: args, sameLength, run => by
      simp only [Expr.outlineArgs, Splitting.bind_eq_ok_iff, Splitting.pure_eq_ok_iff,
        Prod.exists, Prod.mk.injEq] at run
      rcases run with ⟨_, _, _, rest, ⟨rfl, rfl⟩, rfl⟩
      exact .literalOnly (argsOutline_of_outlineArgs (Nat.succ.inj sameLength) rest)
  | .outlinable :: slots, arg :: args, sameLength, run => by
      simp only [Expr.outlineArgs, Splitting.bind_eq_ok_iff, Splitting.pure_eq_ok_iff,
        Prod.exists, Prod.mk.injEq] at run
      rcases run with ⟨_, _, _, rest, _, _, _, flattened, _, _, _, bound, ⟨rfl, rfl⟩, rfl⟩
      exact .outlinable (argsOutline_of_outlineArgs (Nat.succ.inj sameLength) rest)
        ((flattens_of_flatten flattened).outlines bound)
end

theorem Expr.outlines_of_outline {expr : Expr} {start hoists ref finish}
    (run : expr.outline dialect start = .ok (hoists, ref) finish)
    : expr.Outlines dialect start hoists ref finish := by
  simp only [Expr.outline, Splitting.bind_eq_ok_iff, Prod.exists] at run
  rcases run with ⟨_, _, _, flattened, bound⟩
  exact (flattens_of_flatten flattened).outlines bound

mutual
theorem Stmt.splits_of_split {start hoists stmt' finish}
    : ∀ {stmt : Stmt}, stmt.split dialect start = .ok (hoists, stmt') finish
      → stmt.Splits dialect start hoists stmt' finish
  | .expr span value, run => by
      simp only [Stmt.split, Splitting.bind_eq_ok_iff, Splitting.pure_eq_ok_iff, Prod.exists,
        Prod.mk.injEq] at run
      rcases run with ⟨_, _, _, flattened, ⟨rfl, rfl⟩, rfl⟩
      exact .expr (Expr.flattens_of_flatten flattened)
  | .assign span targets value, run => by
      simp only [Stmt.split, Splitting.bind_eq_ok_iff, Splitting.pure_eq_ok_iff, Prod.exists,
        Prod.mk.injEq] at run
      rcases run with ⟨_, _, _, flattened, ⟨rfl, rfl⟩, rfl⟩
      exact .assign (Expr.flattens_of_flatten flattened)
  | .declare span bindings (some value), run => by
      simp only [Stmt.split, Splitting.bind_eq_ok_iff, Splitting.pure_eq_ok_iff, Prod.exists,
        Prod.mk.injEq] at run
      rcases run with ⟨_, _, _, flattened, ⟨rfl, rfl⟩, rfl⟩
      exact .declare (Expr.flattens_of_flatten flattened)
  | .declare span bindings none, run => by
      simp only [Stmt.split, Splitting.pure_eq_ok_iff, Prod.mk.injEq] at run
      rcases run with ⟨⟨rfl, rfl⟩, rfl⟩
      exact .declareUnset
  | .define span name params returns body, run => by
      simp only [Stmt.split, Splitting.bind_eq_ok_iff, Splitting.pure_eq_ok_iff,
        Prod.mk.injEq] at run
      rcases run with ⟨_, _, inner, ⟨rfl, rfl⟩, rfl⟩
      exact .define (Block.splits_of_split inner)
  | .branch span condition body, run => by
      simp only [Stmt.split, Splitting.bind_eq_ok_iff, Splitting.pure_eq_ok_iff, Prod.exists,
        Prod.mk.injEq] at run
      rcases run with ⟨_, _, _, outlined, _, _, inner, ⟨rfl, rfl⟩, rfl⟩
      exact .branch (Expr.outlines_of_outline outlined) (Block.splits_of_split inner)
  | .switch span subject cases, run => by
      simp only [Stmt.split, Splitting.bind_eq_ok_iff, Splitting.pure_eq_ok_iff, Prod.exists,
        Prod.mk.injEq] at run
      rcases run with ⟨_, _, _, outlined, _, _, inner, ⟨rfl, rfl⟩, rfl⟩
      exact .switch (Expr.outlines_of_outline outlined) (Stmt.casesSplit_of_splitCases inner)
  | .loop span pre condition post body, run => by
      simp only [Stmt.split, Splitting.bind_eq_ok_iff, Splitting.pure_eq_ok_iff,
        Prod.mk.injEq] at run
      rcases run with ⟨_, _, first, _, _, second, _, _, third, ⟨rfl, rfl⟩, rfl⟩
      exact .loop (Block.splits_of_split first) (Block.splits_of_split second)
        (Block.splits_of_split third)
  | .breakLoop span, run => by
      simp only [Stmt.split, Splitting.pure_eq_ok_iff, Prod.mk.injEq] at run
      rcases run with ⟨⟨rfl, rfl⟩, rfl⟩
      exact .breakLoop
  | .continueLoop span, run => by
      simp only [Stmt.split, Splitting.pure_eq_ok_iff, Prod.mk.injEq] at run
      rcases run with ⟨⟨rfl, rfl⟩, rfl⟩
      exact .continueLoop
  | .leave span, run => by
      simp only [Stmt.split, Splitting.pure_eq_ok_iff, Prod.mk.injEq] at run
      rcases run with ⟨⟨rfl, rfl⟩, rfl⟩
      exact .leave
  | .block body, run => by
      simp only [Stmt.split, Splitting.bind_eq_ok_iff, Splitting.pure_eq_ok_iff,
        Prod.mk.injEq] at run
      rcases run with ⟨_, _, inner, ⟨rfl, rfl⟩, rfl⟩
      exact .block (Block.splits_of_split inner)
termination_by structural x => x
theorem Block.splits_of_split {start block' finish}
    : ∀ {block : Block}, block.split dialect start = .ok block' finish
      → block.Splits dialect start block' finish
  | ⟨span, stmts⟩, run => by
      simp only [Block.split, Splitting.bind_eq_ok_iff, Splitting.pure_eq_ok_iff] at run
      rcases run with ⟨_, _, inner, rfl, rfl⟩
      exact .mk (Stmt.listSplits_of_splitList inner)
termination_by structural x => x
theorem Stmt.listSplits_of_splitList {start stmts' finish}
    : ∀ {stmts : List Stmt}, Stmt.splitList dialect stmts start = .ok stmts' finish
      → Stmt.ListSplits dialect start stmts stmts' finish
  | [], run => by
      simp only [Stmt.splitList, Splitting.pure_eq_ok_iff] at run
      rcases run with ⟨rfl, rfl⟩
      exact .nil
  | stmt :: stmts, run => by
      simp only [Stmt.splitList, Splitting.bind_eq_ok_iff, Splitting.pure_eq_ok_iff,
        Prod.exists] at run
      rcases run with ⟨_, _, _, first, _, _, rest, rfl, rfl⟩
      exact .cons (Stmt.splits_of_split first) (Stmt.listSplits_of_splitList rest)
termination_by structural x => x
theorem Stmt.casesSplit_of_splitCases {start cases' finish}
    : ∀ {cases : List Case}, Stmt.splitCases dialect cases start = .ok cases' finish
      → Stmt.CasesSplit dialect start cases cases' finish
  | [], run => by
      simp only [Stmt.splitCases, Splitting.pure_eq_ok_iff] at run
      rcases run with ⟨rfl, rfl⟩
      exact .nil
  | ⟨span, label, body⟩ :: cases, run => by
      simp only [Stmt.splitCases, Splitting.bind_eq_ok_iff, Splitting.pure_eq_ok_iff] at run
      rcases run with ⟨_, _, first, _, _, rest, rfl, rfl⟩
      exact .cons (Block.splits_of_split first) (Stmt.casesSplit_of_splitCases rest)
termination_by structural x => x
end

-----------------------------------------------------------------------------------------
-- What can be derived is the result of a run
-----------------------------------------------------------------------------------------

mutual
/-- Every derivation describes a successful run, by induction over the derivation. -/
theorem Expr.Flattens.flatten_eq_ok {start expr hoists flat finish}
    : Expr.Flattens dialect start expr hoists flat finish
      → expr.flatten dialect start = .ok (hoists, flat) finish
  | .ident => rfl
  | .literal => rfl
  | .call classified outlined => by
      simp only [Expr.flatten, Splitting.bind_eq_ok_iff, Splitting.slots_eq_ok_iff,
        Splitting.pure_eq_ok_iff]
      exact ⟨_, _, ⟨classified, rfl⟩, _, _, outlined.outlineArgs_eq_ok, rfl, rfl⟩
theorem Expr.ArgsOutline.outlineArgs_eq_ok {start slots args hoists flat finish}
    : Expr.ArgsOutline dialect start slots args hoists flat finish
      → Expr.outlineArgs dialect slots args start = .ok (hoists, flat) finish
  | .nil => rfl
  | .literalOnly rest => by
      simp only [Expr.outlineArgs, Splitting.bind_eq_ok_iff, Splitting.pure_eq_ok_iff]
      exact ⟨_, _, rest.outlineArgs_eq_ok, rfl, rfl⟩
  | .outlinable rest first => by
      obtain ⟨_, _, flattened, bound⟩ :=
        Splitting.bind_eq_ok_iff.mp first.outline_eq_ok
      simp only [Expr.outlineArgs, Splitting.bind_eq_ok_iff, Splitting.pure_eq_ok_iff]
      exact ⟨_, _, rest.outlineArgs_eq_ok, _, _, flattened, _, _, bound, rfl, rfl⟩
theorem Expr.Outlines.outline_eq_ok {start expr hoists ref finish}
    : Expr.Outlines dialect start expr hoists ref finish
      → expr.outline dialect start = .ok (hoists, ref) finish
  | .ident => rfl
  | .bind complex flattened handed => by
      obtain ⟨sameForm, sameSpan⟩ := flattened.shape
      simp only [Expr.outline, Splitting.bind_eq_ok_iff]
      refine ⟨_, _, flattened.flatten_eq_ok, ?_⟩
      rw [Splitting.bindFlat_eq_ok_iff, sameForm, sameSpan]
      exact .inr ⟨complex, _, handed, rfl, rfl⟩
end

mutual
theorem Stmt.Splits.split_eq_ok {start stmt hoists stmt' finish}
    : Stmt.Splits dialect start stmt hoists stmt' finish
      → stmt.split dialect start = .ok (hoists, stmt') finish
  | .expr flattened | .assign flattened | .declare flattened => by
      simp only [Stmt.split, Splitting.bind_eq_ok_iff, Splitting.pure_eq_ok_iff]
      exact ⟨_, _, flattened.flatten_eq_ok, rfl, rfl⟩
  | .declareUnset | .breakLoop | .continueLoop | .leave => rfl
  | .define inner | .block inner => by
      simp only [Stmt.split, Splitting.bind_eq_ok_iff, Splitting.pure_eq_ok_iff]
      exact ⟨_, _, inner.split_eq_ok, rfl, rfl⟩
  | .branch outlined inner => by
      simp only [Stmt.split, Splitting.bind_eq_ok_iff, Splitting.pure_eq_ok_iff]
      exact ⟨_, _, outlined.outline_eq_ok, _, _, inner.split_eq_ok, rfl, rfl⟩
  | .switch outlined inner => by
      simp only [Stmt.split, Splitting.bind_eq_ok_iff, Splitting.pure_eq_ok_iff]
      exact ⟨_, _, outlined.outline_eq_ok, _, _, inner.splitCases_eq_ok, rfl, rfl⟩
  | .loop first second third => by
      simp only [Stmt.split, Splitting.bind_eq_ok_iff, Splitting.pure_eq_ok_iff]
      exact ⟨_, _, first.split_eq_ok, _, _, second.split_eq_ok, _, _, third.split_eq_ok, rfl,
        rfl⟩
theorem Block.Splits.split_eq_ok {start block block' finish}
    : Block.Splits dialect start block block' finish
      → block.split dialect start = .ok block' finish
  | .mk inner => by
      simp only [Block.split, Splitting.bind_eq_ok_iff, Splitting.pure_eq_ok_iff]
      exact ⟨_, _, inner.splitList_eq_ok, rfl, rfl⟩
theorem Stmt.ListSplits.splitList_eq_ok {start stmts stmts' finish}
    : Stmt.ListSplits dialect start stmts stmts' finish
      → Stmt.splitList dialect stmts start = .ok stmts' finish
  | .nil => rfl
  | .cons first rest => by
      simp only [Stmt.splitList, Splitting.bind_eq_ok_iff, Splitting.pure_eq_ok_iff]
      exact ⟨_, _, first.split_eq_ok, _, _, rest.splitList_eq_ok, rfl, rfl⟩
theorem Stmt.CasesSplit.splitCases_eq_ok {start cases cases' finish}
    : Stmt.CasesSplit dialect start cases cases' finish
      → Stmt.splitCases dialect cases start = .ok cases' finish
  | .nil => rfl
  | .cons first rest => by
      simp only [Stmt.splitCases, Splitting.bind_eq_ok_iff, Splitting.pure_eq_ok_iff]
      exact ⟨_, _, first.split_eq_ok, _, _, rest.splitCases_eq_ok, rfl, rfl⟩
end

/-- A split succeeds exactly when its result can be derived. -/
theorem Block.split_eq_ok_iff {block block' : Block} {start finish : NameSupply}
    : block.split dialect start = .ok block' finish
      ↔ block.Splits dialect start block' finish :=
  ⟨Block.splits_of_split, Block.Splits.split_eq_ok⟩

end StackIR
