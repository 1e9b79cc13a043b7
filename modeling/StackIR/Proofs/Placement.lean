import StackIR.Dialect.Stack
import StackIR.Proofs.Numbering

/-! Where the hoists of a split stand.

A block is extended by hoists if its statements stay, in order and at every depth, and each
stands right behind hoists of its own: `Block.Extends`. A split extends a block so that the
hoists, in the order of the text, hold the outlined values one for one:
`Block.split_hoists_in_order`.
-/

namespace StackIR

/-- What may become of an expression, next to the hoists that are put in front of its statement:
of one that its statement evaluates as it stands, and of a condition or the subject of a
`switch`.
-/
structure Rewrite where
  value : List Hoist → Expr → Expr → Prop
  subject : List Hoist → Expr → Expr → Prop

mutual
/-- The second statement is the first one with its own expression rewritten next to the hoists
`own`, and with the hoists `inner` put in front of the statements inside it.
-/
inductive Stmt.Extends (rewrite : Rewrite)
    : (own inner : List Hoist) → Stmt → Stmt → Prop
  | expr {own span value value'} (rewritten : rewrite.value own value value')
    : Stmt.Extends rewrite own [] (.expr span value) (.expr span value')
  | assign {own span targets value value'} (rewritten : rewrite.value own value value')
    : Stmt.Extends rewrite own [] (.assign span targets value) (.assign span targets value')
  | declare {own span bindings value value'} (rewritten : rewrite.value own value value')
    : Stmt.Extends rewrite own [] (.declare span bindings (some value))
        (.declare span bindings (some value'))
  | declareUnset {span bindings}
    : Stmt.Extends rewrite [] [] (.declare span bindings none) (.declare span bindings none)
  | define {inner span name params returns body body'} (inside : body.Extends rewrite inner body')
    : Stmt.Extends rewrite [] inner (.define span name params returns body)
        (.define span name params returns body')
  | branch {own inner span condition condition' body body'}
    (rewritten : rewrite.subject own condition condition')
    (inside : body.Extends rewrite inner body')
    : Stmt.Extends rewrite own inner (.branch span condition body)
        (.branch span condition' body')
  | switch {own inner span subject subject' cases cases'}
    (rewritten : rewrite.subject own subject subject')
    (inside : Stmt.CasesExtend rewrite inner cases cases')
    : Stmt.Extends rewrite own inner (.switch span subject cases) (.switch span subject' cases')
  | loop {inPre inPost inBody span pre condition post body pre' post' body'}
    (first : pre.Extends rewrite inPre pre') (second : post.Extends rewrite inPost post')
    (third : body.Extends rewrite inBody body')
    : Stmt.Extends rewrite [] (inPre ++ (inPost ++ inBody)) (.loop span pre condition post body)
        (.loop span pre' condition post' body')
  | breakLoop {span} : Stmt.Extends rewrite [] [] (.breakLoop span) (.breakLoop span)
  | continueLoop {span} : Stmt.Extends rewrite [] [] (.continueLoop span) (.continueLoop span)
  | leave {span} : Stmt.Extends rewrite [] [] (.leave span) (.leave span)
  | block {inner body body'} (inside : body.Extends rewrite inner body')
    : Stmt.Extends rewrite [] inner (.block body) (.block body')
/-- The second block is the first one, rewritten, with the hoists put in front of its statements
at any depth. The hoists are listed in the order of the text.
-/
inductive Block.Extends (rewrite : Rewrite) : List Hoist → Block → Block → Prop
  | mk {hoists span stmts stmts'} (inside : Stmt.ListExtends rewrite hoists stmts stmts')
    : Block.Extends rewrite hoists ⟨span, stmts⟩ ⟨span, stmts'⟩
/-- Each statement stands right behind its own hoists. -/
inductive Stmt.ListExtends (rewrite : Rewrite) : List Hoist → List Stmt → List Stmt → Prop
  | nil : Stmt.ListExtends rewrite [] [] []
  | cons {own inner later stmt stmt' stmts stmts'} (first : stmt.Extends rewrite own inner stmt')
    (rest : Stmt.ListExtends rewrite later stmts stmts')
    : Stmt.ListExtends rewrite (own ++ inner ++ later) (stmt :: stmts)
        (own.map Hoist.toStmt ++ stmt' :: stmts')
inductive Stmt.CasesExtend (rewrite : Rewrite) : List Hoist → List Case → List Case → Prop
  | nil : Stmt.CasesExtend rewrite [] [] []
  | cons {inner later span label body body' cases cases'}
    (first : body.Extends rewrite inner body')
    (rest : Stmt.CasesExtend rewrite later cases cases')
    : Stmt.CasesExtend rewrite (inner ++ later) (⟨span, label, body⟩ :: cases)
        (⟨span, label, body'⟩ :: cases')
end

/-- The hoists of a statement hold the values that are outlined in its expression, and references
to them take the place of these values.
-/
def Rewrite.outlining (dialect : Dialect) : Rewrite where
  value own value value' :=
    Hoist.HoldAll dialect (value.outlinedInside dialect) own ∧ value' = value.withRefs dialect own
  subject own subject subject' :=
    Hoist.HoldAll dialect (subject.outlinedWhole dialect) own ∧ subject' = subject.refTo own

/-- Whatever a split makes of an expression is a rewriting of this kind. -/
structure Rewrite.Allows (rewrite : Rewrite) (dialect : Dialect) : Prop where
  value {start value own value' finish}
    (flattened : Expr.Flattens dialect start value own value' finish)
    : rewrite.value own value value'
  subject {start subject own subject' finish}
    (outlined : Expr.Outlines dialect start subject own subject' finish)
    : rewrite.subject own subject subject'

variable {dialect : Dialect} {rewrite : Rewrite}

theorem Rewrite.outlining_allows : (Rewrite.outlining dialect).Allows dialect where
  value flattened := flattened.outlined.imp_left Hoist.Record.hold
  subject outlined := outlined.outlined.imp_left Hoist.Record.hold

-----------------------------------------------------------------------------------------
-- A split extends a block by hoists of the outlined values
-----------------------------------------------------------------------------------------

mutual
/-- A split puts the hoists of a statement in front of it, and inside it those of the blocks that
it holds, by induction over the derivation.
-/
theorem Stmt.Splits.exists_extends {start stmt hoists stmt' finish}
    (allows : rewrite.Allows dialect)
    : Stmt.Splits dialect start stmt hoists stmt' finish
      → ∃ inner,
          stmt.Extends rewrite hoists inner stmt'
          ∧ Hoist.Record dialect start (stmt.outlined dialect) (hoists ++ inner) finish
  | .expr flattened => ⟨[], .expr (allows.value flattened), flattened.outlined.1.append_nil⟩
  | .assign flattened => ⟨[], .assign (allows.value flattened), flattened.outlined.1.append_nil⟩
  | .declare flattened => ⟨[], .declare (allows.value flattened), flattened.outlined.1.append_nil⟩
  | .declareUnset => ⟨[], .declareUnset, .nil⟩
  | .breakLoop => ⟨[], .breakLoop, .nil⟩
  | .continueLoop => ⟨[], .continueLoop, .nil⟩
  | .leave => ⟨[], .leave, .nil⟩
  | .define inner => by
      obtain ⟨hoists, inside, record⟩ := inner.exists_extends allows
      exact ⟨hoists, .define inside, record⟩
  | .block inner => by
      obtain ⟨hoists, inside, record⟩ := inner.exists_extends allows
      exact ⟨hoists, .block inside, record⟩
  | .branch outlined inner => by
      obtain ⟨hoists, inside, record⟩ := inner.exists_extends allows
      refine ⟨hoists, .branch (allows.subject outlined) inside, ?_⟩
      rw [Stmt.outlined, Stmt.splitSteps, SplitStep.values_append]
      exact outlined.outlined.1.append record
  | .switch outlined inner => by
      obtain ⟨hoists, inside, record⟩ := inner.exists_extends allows
      refine ⟨hoists, .switch (allows.subject outlined) inside, ?_⟩
      rw [Stmt.outlined, Stmt.splitSteps, SplitStep.values_append]
      exact outlined.outlined.1.append record
  | .loop first second third => by
      obtain ⟨inPre, insidePre, recordPre⟩ := first.exists_extends allows
      obtain ⟨inPost, insidePost, recordPost⟩ := second.exists_extends allows
      obtain ⟨inBody, insideBody, recordBody⟩ := third.exists_extends allows
      refine ⟨inPre ++ (inPost ++ inBody), .loop insidePre insidePost insideBody, ?_⟩
      rw [Stmt.outlined, Stmt.splitSteps, SplitStep.values_append, SplitStep.values_append]
      exact recordPre.append (recordPost.append recordBody)
/-- A split extends a block by hoists that hold the outlined values, in the order of the text. -/
theorem Block.Splits.exists_extends {start block block' finish}
    (allows : rewrite.Allows dialect)
    : Block.Splits dialect start block block' finish
      → ∃ hoists,
          block.Extends rewrite hoists block'
          ∧ Hoist.Record dialect start (block.outlined dialect) hoists finish
  | .mk inner => by
      obtain ⟨hoists, inside, record⟩ := inner.exists_extends allows
      exact ⟨hoists, .mk inside, record⟩
theorem Stmt.ListSplits.exists_extends {start stmts stmts' finish}
    (allows : rewrite.Allows dialect)
    : Stmt.ListSplits dialect start stmts stmts' finish
      → ∃ hoists,
          Stmt.ListExtends rewrite hoists stmts stmts'
          ∧ Hoist.Record dialect start (Stmt.listOutlined dialect stmts) hoists finish
  | .nil => ⟨[], .nil, .nil⟩
  | .cons first rest => by
      obtain ⟨inner, insideFirst, recordFirst⟩ := first.exists_extends allows
      obtain ⟨later, insideRest, recordRest⟩ := rest.exists_extends allows
      refine ⟨_, .cons insideFirst insideRest, ?_⟩
      rw [Stmt.listOutlined, Stmt.listSteps, SplitStep.values_append]
      exact recordFirst.append recordRest
theorem Stmt.CasesSplit.exists_extends {start cases cases' finish}
    (allows : rewrite.Allows dialect)
    : Stmt.CasesSplit dialect start cases cases' finish
      → ∃ hoists,
          Stmt.CasesExtend rewrite hoists cases cases'
          ∧ Hoist.Record dialect start (Stmt.caseOutlined dialect cases) hoists finish
  | .nil => ⟨[], .nil, .nil⟩
  | .cons first rest => by
      obtain ⟨inner, insideFirst, recordFirst⟩ := first.exists_extends allows
      obtain ⟨later, insideRest, recordRest⟩ := rest.exists_extends allows
      refine ⟨_, .cons insideFirst insideRest, ?_⟩
      rw [Stmt.caseOutlined, Stmt.caseSteps, SplitStep.values_append]
      exact recordFirst.append recordRest
end

/-- The hoists that a split inserts, in the order of the text, hold the outlined values in the order
of evaluation, one for one. Their names are what the supply hands out, one after the other, and
the supply is left behind the last of them. A hoist and its value stand at the place of the value
that it holds, and so does every reference to it; in the value, references take the place of
what is outlined inside it.
-/
theorem Block.split_hoists_in_order {block block' : Block} {start finish : NameSupply}
    (split : block.split dialect start = .ok block' finish)
    : ∃ hoists : List Hoist,
        block.Extends (.outlining dialect) hoists block'
        ∧ start.Hands dialect (hoists.map Hoist.name) finish
        ∧ hoists.length = (block.outlined dialect).length
        ∧ ∀ (number : Nat) (value : Expr), (block.outlined dialect)[number]? = some value
          → ∃ hoist : Hoist,
              hoists[number]? = some hoist
              ∧ hoist.Holds dialect ((block.outlined dialect).take number) (hoists.take number)
                  value
              ∧ hoist.value.span = value.span := by
  have derivation := Block.split_eq_ok_iff.mp split
  obtain ⟨hoists, inside, record⟩ := derivation.exists_extends Rewrite.outlining_allows
  refine ⟨hoists, inside, record.handed, record.hold.length_eq, ?_⟩
  intro number value stands
  obtain ⟨hoist, found, holds⟩ := record.hold.exists_holds stands
  refine ⟨hoist, found, holds, ?_⟩
  rw [holds.value_eq, Expr.span_withRefs]

/-- The block `if f(a(), x, b(1)) { c(d()) }`, each node at a place of its own. -/
def Block.callsInBranch : Block :=
  ⟨⟨0, 0, 29⟩, [.branch ⟨0, 0, 29⟩
    (.call ⟨0, 3, 18⟩ (.user ⟨⟨0, 3, 4⟩, "f"⟩) [
      .call ⟨0, 5, 8⟩ (.user ⟨⟨0, 5, 6⟩, "a"⟩) [],
      .ident ⟨⟨0, 10, 11⟩, "x"⟩,
      .call ⟨0, 13, 17⟩ (.user ⟨⟨0, 13, 14⟩, "b"⟩) [.literal ⟨⟨0, 15, 16⟩, .number, "1"⟩]])
    ⟨⟨0, 19, 29⟩, [.expr ⟨0, 21, 27⟩
      (.call ⟨0, 21, 27⟩ (.user ⟨⟨0, 21, 22⟩, "c"⟩) [
        .call ⟨0, 23, 26⟩ (.user ⟨⟨0, 23, 24⟩, "d"⟩) []])]⟩]⟩

/-- The values are `1`, `b(1)`, `a()`, the condition and `d()`. The supply skips `_2`. -/
theorem Block.split_hoists_in_order_callsInBranch
    : ∃ block' finish,
        callsInBranch.split .stack (.ofNames ["_2", "x"]) = .ok block' finish
        ∧ (callsInBranch.outlined .stack).map Expr.span
          = [⟨0, 15, 16⟩, ⟨0, 13, 17⟩, ⟨0, 5, 8⟩, ⟨0, 3, 18⟩, ⟨0, 23, 26⟩]
        ∧ block'.names
          = ["_1", "_3", "b", "_1", "_4", "a", "_5", "f", "_4", "x", "_3", "_5", "_6", "d", "c",
            "_6"]
        ∧ ∃ hoists : List Hoist,
            callsInBranch.Extends (.outlining .stack) hoists block'
            ∧ (NameSupply.ofNames ["_2", "x"]).Hands .stack (hoists.map Hoist.name) finish
            ∧ hoists.length = 5 := by
  have split : callsInBranch.split .stack (.ofNames ["_2", "x"]) = .ok _ _ := rfl
  obtain ⟨hoists, inside, handed, count, -⟩ := split_hoists_in_order split
  exact ⟨_, _, split, by decide, by decide, hoists, inside, handed, count⟩

end StackIR
