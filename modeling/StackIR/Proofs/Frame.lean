import Mathlib.Data.List.Forall2
import StackIR.Dialect.Stack
import StackIR.Proofs.Flat
import StackIR.Proofs.Placement

/-! What a split leaves alone.

Without the declarations of minted names, a split block has the statements of the block at every
depth, with all that is not an expression as it was. In an expression a split changes nothing but
arguments in outlinable slots, and of these no identifier: `Block.split_keeps`. The same holds of
every call that a split reaches, wherever it ends up: the calls of a split block, in the order of
the text, are compared one by one to those of the block, in the order of evaluation.
-/

namespace StackIR

-----------------------------------------------------------------------------------------
-- Expressions that differ in outlinable slots alone
-----------------------------------------------------------------------------------------

/-- An identifier stays, and an identifier at its place may stand for any other expression. -/
inductive Expr.Outlined : Expr → Expr → Prop
  | ident {i} : Expr.Outlined (.ident i) (.ident i)
  | bound {expr name} (complex : expr.isIdent = false)
    : Expr.Outlined expr (.ident ⟨expr.span, name⟩)

/-- Arguments stay, unless they stand in outlinable slots and are no identifiers. -/
inductive Expr.ArgsKeep : List Slot → List Expr → List Expr → Prop
  | nil : Expr.ArgsKeep [] [] []
  | literalOnly {slots arg args args'} (rest : Expr.ArgsKeep slots args args')
    : Expr.ArgsKeep (.literalOnly :: slots) (arg :: args) (arg :: args')
  | outlinable {slots arg arg' args args'} (rest : Expr.ArgsKeep slots args args')
    (first : arg.Outlined arg')
    : Expr.ArgsKeep (.outlinable :: slots) (arg :: args) (arg' :: args')

/-- The calls differ in outlinable slots alone. -/
inductive Call.Keeps (dialect : Dialect) : Call → Call → Prop
  | mk {span callee args args' slots} (before : dialect.slots ⟨span, callee, args⟩ = .ok slots)
    (after : dialect.slots ⟨span, callee, args'⟩ = .ok slots)
    (inside : Expr.ArgsKeep slots args args')
    : Call.Keeps dialect ⟨span, callee, args⟩ ⟨span, callee, args'⟩

/-- The expressions are equal, or calls that differ in outlinable slots alone. -/
inductive Expr.Keeps (dialect : Dialect) : Expr → Expr → Prop
  | ident {i} : Expr.Keeps dialect (.ident i) (.ident i)
  | literal {l} : Expr.Keeps dialect (.literal l) (.literal l)
  | call {call call' : Call} (same : call.Keeps dialect call')
    : Expr.Keeps dialect call.toExpr call'.toExpr

/-- Values differ in outlinable slots alone, and conditions and subjects are outlined. -/
def Rewrite.keeping (dialect : Dialect) : Rewrite where
  value _ value value' := value.Keeps dialect value'
  subject _ subject subject' := subject.Outlined subject'

variable {dialect : Dialect}

-----------------------------------------------------------------------------------------
-- Outlining changes outlinable slots alone
-----------------------------------------------------------------------------------------

theorem Expr.Outlines.keeps {start expr hoists ref finish}
    (derived : Expr.Outlines dialect start expr hoists ref finish)
    : expr.Outlined ref := by
  cases derived with
  | ident => exact .ident
  | bind complex => exact .bound complex

theorem Expr.ArgsOutline.keeps {args : List Expr} {start slots hoists flat finish}
    (derived : Expr.ArgsOutline dialect start slots args hoists flat finish)
    : Expr.ArgsKeep slots args flat := by
  induction args generalizing start slots hoists flat finish with
  | nil =>
      cases derived
      exact .nil
  | cons arg args ih =>
      cases derived with
      | literalOnly rest => exact .literalOnly (ih rest)
      | outlinable rest first => exact .outlinable (ih rest) first.keeps

/-- What an outlined call leaves in place differs from it in outlinable slots alone. -/
theorem Expr.ArgsOutline.keeps_call {start span callee args slots hoists flat finish}
    (classified : dialect.slots ⟨span, callee, args⟩ = .ok slots)
    (derived : Expr.ArgsOutline dialect start slots args hoists flat finish)
    : Call.Keeps dialect ⟨span, callee, args⟩ ⟨span, callee, flat⟩ :=
  .mk classified (derived.slots_eq classified) derived.keeps

theorem Expr.Flattens.keeps {start expr hoists flat finish}
    (derived : Expr.Flattens dialect start expr hoists flat finish)
    : expr.Keeps dialect flat := by
  cases derived with
  | ident => exact .ident
  | literal => exact .literal
  | call classified outlined => exact .call (outlined.keeps_call classified)

theorem Rewrite.keeping_allows : (Rewrite.keeping dialect).Allows dialect where
  value := Expr.Flattens.keeps
  subject := Expr.Outlines.keeps

-----------------------------------------------------------------------------------------
-- Blocks without the declarations of minted names
-----------------------------------------------------------------------------------------

/-- The statement declares a minted name. -/
def Stmt.declaresMinted (isMinted : Name → Bool) : Stmt → Bool
  | .declare _ bindings _ => bindings.any (isMinted ·.name)
  | _ => false

mutual
def Stmt.withoutMinted (isMinted : Name → Bool) : Stmt → Stmt
  | .define span name params returns body =>
      .define span name params returns (body.withoutMinted isMinted)
  | .branch span condition body => .branch span condition (body.withoutMinted isMinted)
  | .switch span subject cases =>
      .switch span subject (Stmt.casesWithoutMinted isMinted cases)
  | .loop span pre condition post body =>
      .loop span (pre.withoutMinted isMinted) condition (post.withoutMinted isMinted)
        (body.withoutMinted isMinted)
  | .block body => .block (body.withoutMinted isMinted)
  | stmt => stmt
/-- The block without all declarations of minted names, at any depth. -/
def Block.withoutMinted (isMinted : Name → Bool) : Block → Block
  | ⟨span, stmts⟩ => ⟨span, Stmt.listWithoutMinted isMinted stmts⟩
def Stmt.listWithoutMinted (isMinted : Name → Bool) : List Stmt → List Stmt
  | [] => []
  | stmt :: rest =>
      if stmt.declaresMinted isMinted then Stmt.listWithoutMinted isMinted rest
      else stmt.withoutMinted isMinted :: Stmt.listWithoutMinted isMinted rest
def Stmt.casesWithoutMinted (isMinted : Name → Bool) : List Case → List Case
  | [] => []
  | ⟨span, label, body⟩ :: rest =>
      ⟨span, label, body.withoutMinted isMinted⟩ :: Stmt.casesWithoutMinted isMinted rest
end

variable {isMinted : Name → Bool}

/-- Hoists of minted names disappear. -/
theorem Stmt.listWithoutMinted_hoists {hoists : List Hoist} {rest : List Stmt}
    (minted : ∀ hoist ∈ hoists, isMinted hoist.name = true)
    : Stmt.listWithoutMinted isMinted (hoists.map Hoist.toStmt ++ rest)
      = Stmt.listWithoutMinted isMinted rest := by
  induction hoists with
  | nil => rfl
  | cons hoist hoists ih =>
      obtain ⟨here, there⟩ := List.forall_mem_cons.mp minted
      have declares : hoist.toStmt.declaresMinted isMinted = true := by
        simp [Hoist.toStmt, Declaration.single, Declaration.toStmt, Stmt.declaresMinted, here]
      rw [List.map_cons, List.cons_append, Stmt.listWithoutMinted, if_pos declares]
      exact ih there

/-- A statement whose names are not minted declares no minted name, however it is extended. -/
theorem Stmt.Extends.declaresMinted_eq_false {rewrite : Rewrite} {own inner stmt stmt'}
    (inside : Stmt.Extends rewrite own inner stmt stmt')
    (ordinary : ∀ name ∈ stmt.names, isMinted name = false)
    : stmt'.declaresMinted isMinted = false := by
  cases inside with
  | declare | declareUnset =>
      simp only [Stmt.names, List.forall_mem_append, List.forall_mem_map] at ordinary
      simpa [Stmt.declaresMinted] using ordinary.1
  | _ => rfl

mutual
/-- A statement that is extended by hoists of minted names alone is not extended at all without
them, by induction over the extension.
-/
theorem Stmt.Extends.withoutMinted {own inner stmt stmt'}
    : Stmt.Extends (.keeping dialect) own inner stmt stmt'
      → (∀ hoist ∈ inner, isMinted hoist.name = true)
      → (∀ name ∈ stmt.names, isMinted name = false)
      → stmt.Extends (.keeping dialect) [] [] (stmt'.withoutMinted isMinted)
  | .expr kept, _, _ => .expr kept
  | .assign kept, _, _ => .assign kept
  | .declare kept, _, _ => .declare kept
  | .declareUnset, _, _ => .declareUnset
  | .breakLoop, _, _ => .breakLoop
  | .continueLoop, _, _ => .continueLoop
  | .leave, _, _ => .leave
  | .define inside, minted, ordinary => by
      rw [Stmt.names, List.forall_mem_append] at ordinary
      exact .define (inside.withoutMinted minted ordinary.2)
  | .block inside, minted, ordinary => .block (inside.withoutMinted minted ordinary)
  | .branch kept inside, minted, ordinary => by
      rw [Stmt.names, List.forall_mem_append] at ordinary
      exact .branch kept (inside.withoutMinted minted ordinary.2)
  | .switch kept inside, minted, ordinary => by
      rw [Stmt.names, List.forall_mem_append] at ordinary
      exact .switch kept (inside.withoutMinted minted ordinary.2)
  | .loop first second third, minted, ordinary => by
      simp only [List.forall_mem_append] at minted
      simp only [Stmt.names, List.forall_mem_append] at ordinary
      obtain ⟨mintedPre, mintedPost, mintedBody⟩ := minted
      obtain ⟨⟨⟨pre, -⟩, post⟩, body⟩ := ordinary
      exact .loop (first.withoutMinted mintedPre pre) (second.withoutMinted mintedPost post)
        (third.withoutMinted mintedBody body)
theorem Block.Extends.withoutMinted {hoists block block'}
    : Block.Extends (.keeping dialect) hoists block block'
      → (∀ hoist ∈ hoists, isMinted hoist.name = true)
      → (∀ name ∈ block.names, isMinted name = false)
      → block.Extends (.keeping dialect) [] (block'.withoutMinted isMinted)
  | .mk inside, minted, ordinary => .mk (inside.withoutMinted minted ordinary)
theorem Stmt.ListExtends.withoutMinted {hoists stmts stmts'}
    : Stmt.ListExtends (.keeping dialect) hoists stmts stmts'
      → (∀ hoist ∈ hoists, isMinted hoist.name = true)
      → (∀ name ∈ Stmt.listNames stmts, isMinted name = false)
      → Stmt.ListExtends (.keeping dialect) [] stmts (Stmt.listWithoutMinted isMinted stmts')
  | .nil, _, _ => .nil
  | .cons first rest, minted, ordinary => by
      simp only [List.forall_mem_append] at minted
      rw [Stmt.listNames, List.forall_mem_append] at ordinary
      obtain ⟨⟨mintedOwn, mintedInner⟩, mintedLater⟩ := minted
      -- The hoists of the statement go, and the statement itself stays.
      have stays := first.declaresMinted_eq_false ordinary.1
      rw [Stmt.listWithoutMinted_hoists mintedOwn, Stmt.listWithoutMinted, stays]
      exact .cons (first.withoutMinted mintedInner ordinary.1)
        (rest.withoutMinted mintedLater ordinary.2)
theorem Stmt.CasesExtend.withoutMinted {hoists cases cases'}
    : Stmt.CasesExtend (.keeping dialect) hoists cases cases'
      → (∀ hoist ∈ hoists, isMinted hoist.name = true)
      → (∀ name ∈ Stmt.caseNames cases, isMinted name = false)
      → Stmt.CasesExtend (.keeping dialect) [] cases (Stmt.casesWithoutMinted isMinted cases')
  | .nil, _, _ => .nil
  | .cons first rest, minted, ordinary => by
      rw [List.forall_mem_append] at minted
      rw [Stmt.caseNames, List.forall_mem_append] at ordinary
      exact .cons (first.withoutMinted minted.1 ordinary.1)
        (rest.withoutMinted minted.2 ordinary.2)
end

-----------------------------------------------------------------------------------------
-- Reached calls
-----------------------------------------------------------------------------------------

theorem Stmt.reachedInList_append (front back : List Stmt)
    : Stmt.reachedInList dialect (front ++ back)
      = Stmt.reachedInList dialect front ++ Stmt.reachedInList dialect back := by
  induction front with
  | nil => rfl
  | cons stmt rest ih => simp [Stmt.reachedInList, ih]

/-- The calls that a split reaches in hoists, in the order of the hoists. -/
def Hoist.reachedCalls (dialect : Dialect) (hoists : List Hoist) : List Call :=
  Stmt.reachedInList dialect (hoists.map Hoist.toStmt)

theorem Hoist.reachedCalls_append (front back : List Hoist)
    : Hoist.reachedCalls dialect (front ++ back)
      = Hoist.reachedCalls dialect front ++ Hoist.reachedCalls dialect back := by
  rw [Hoist.reachedCalls, List.map_append, Stmt.reachedInList_append]
  rfl

theorem Hoist.reachedCalls_singleton (hoist : Hoist)
    : Hoist.reachedCalls dialect [hoist] = hoist.value.reachedCalls dialect :=
  List.append_nil _

/-- Nothing is reached in arguments that are flat. -/
theorem Expr.reachedInArgs_of_argsFlat {args : List Expr} {slots : List Slot}
    (flat : Expr.argsFlat slots args = true)
    : Expr.reachedInArgs dialect slots args = [] := by
  induction args generalizing slots with
  | nil => rcases slots with - | ⟨_ | _, _⟩ <;> rfl
  | cons arg args ih =>
      rcases slots with - | ⟨_ | _, slots⟩
      · rfl
      · exact ih flat
      · rw [argsFlat, Bool.and_eq_true] at flat
        rw [reachedInArgs, ih flat.2]
        cases arg with
        | ident => rfl
        | literal | call => cases flat.1

mutual
/-- The calls of an expression stand in the hoists and then in what is left in place, in the order
in which they are evaluated, by induction over the derivation.
-/
theorem Expr.Flattens.reachedCalls {start expr hoists flat finish}
    : Expr.Flattens dialect start expr hoists flat finish
      → List.Forall₂ (Call.Keeps dialect) (expr.evaluatedCalls dialect)
          (Hoist.reachedCalls dialect hoists ++ flat.reachedCalls dialect)
  | .ident | .literal => .nil
  | .call classified outlined => by
      simp only [Expr.evaluatedCalls, Expr.reachedCalls, classified,
        outlined.slots_eq classified, Expr.reachedInArgs_of_argsFlat outlined.argsFlat]
      -- The arguments have moved in front of the call, which is evaluated last.
      exact List.rel_append outlined.reachedCalls (.cons (outlined.keeps_call classified) .nil)
theorem Expr.ArgsOutline.reachedCalls {start slots args hoists flat finish}
    : Expr.ArgsOutline dialect start slots args hoists flat finish
      → List.Forall₂ (Call.Keeps dialect) (Expr.evaluatedInArgs dialect slots args)
          (Hoist.reachedCalls dialect hoists)
  | .nil => .nil
  | .literalOnly rest => rest.reachedCalls
  | .outlinable rest first => by
      rw [Expr.evaluatedInArgs, Hoist.reachedCalls_append]
      exact List.rel_append rest.reachedCalls first.reachedCalls
theorem Expr.Outlines.reachedCalls {start expr hoists ref finish}
    : Expr.Outlines dialect start expr hoists ref finish
      → List.Forall₂ (Call.Keeps dialect) (expr.evaluatedCalls dialect)
          (Hoist.reachedCalls dialect hoists)
  | .ident => .nil
  | .bind _ flattened _ => by
      rw [Hoist.reachedCalls_append, Hoist.reachedCalls_singleton]
      exact flattened.reachedCalls
end

theorem Expr.Outlines.reachedCalls_ref {start expr hoists ref finish}
    (derived : Expr.Outlines dialect start expr hoists ref finish)
    : ref.reachedCalls dialect = [] := by
  obtain ⟨i, rfl⟩ := derived.eq_ident
  rfl

mutual
theorem Stmt.Splits.reachedCalls {start stmt hoists stmt' finish}
    : Stmt.Splits dialect start stmt hoists stmt' finish
      → List.Forall₂ (Call.Keeps dialect)
          (stmt.visitedExprs.flatMap (Expr.evaluatedCalls dialect))
          (Hoist.reachedCalls dialect hoists ++ stmt'.reachedCalls dialect)
  | .expr flattened | .assign flattened => by
      rw [Stmt.visitedExprs, List.flatMap_singleton]
      exact flattened.reachedCalls
  | .declare flattened => by
      rw [Stmt.visitedExprs, Option.toList_some, List.flatMap_singleton]
      exact flattened.reachedCalls
  | .declareUnset | .breakLoop | .continueLoop | .leave => .nil
  | .define inner | .block inner => inner.reachedCalls
  | .branch outlined inner => by
      rw [Stmt.visitedExprs, List.flatMap_cons, Stmt.reachedCalls, outlined.reachedCalls_ref]
      exact List.rel_append outlined.reachedCalls inner.reachedCalls
  | .switch outlined inner => by
      rw [Stmt.visitedExprs, List.flatMap_cons, Stmt.reachedCalls, outlined.reachedCalls_ref]
      exact List.rel_append outlined.reachedCalls inner.reachedCalls
  | .loop first second third => by
      rw [Stmt.visitedExprs, List.flatMap_append, List.flatMap_append]
      exact List.rel_append (List.rel_append first.reachedCalls second.reachedCalls)
        third.reachedCalls
theorem Block.Splits.reachedCalls {start block block' finish}
    : Block.Splits dialect start block block' finish
      → List.Forall₂ (Call.Keeps dialect) (block.evaluatedCalls dialect)
          (block'.reachedCalls dialect)
  | .mk inner => inner.reachedCalls
theorem Stmt.ListSplits.reachedCalls {start stmts stmts' finish}
    : Stmt.ListSplits dialect start stmts stmts' finish
      → List.Forall₂ (Call.Keeps dialect)
          ((Stmt.visitedInList stmts).flatMap (Expr.evaluatedCalls dialect))
          (Stmt.reachedInList dialect stmts')
  | .nil => .nil
  | .cons first rest => by
      rw [Stmt.visitedInList, List.flatMap_append, Stmt.reachedInList_append,
        Stmt.reachedInList, ← List.append_assoc]
      exact List.rel_append first.reachedCalls rest.reachedCalls
theorem Stmt.CasesSplit.reachedCalls {start cases cases' finish}
    : Stmt.CasesSplit dialect start cases cases' finish
      → List.Forall₂ (Call.Keeps dialect)
          ((Stmt.visitedInCases cases).flatMap (Expr.evaluatedCalls dialect))
          (Stmt.reachedInCases dialect cases')
  | .nil => .nil
  | .cons first rest => by
      rw [Stmt.visitedInCases, List.flatMap_append]
      exact List.rel_append first.reachedCalls rest.reachedCalls
end

/-- Without the declarations of minted names, a split block is the block itself but for arguments
in outlinable slots, conditions of branches and subjects, and of these no identifier has changed.
The calls that a split reaches, in the order of evaluation, are one by one the calls of the split
block, in place or in hoists. Each keeps its span, its callee, all its arguments in literal-only
slots and all that are identifiers.
-/
theorem Block.split_keeps {block block' : Block} {start finish : NameSupply}
    (split : block.split dialect start = .ok block' finish) (known : start.Knows block.names)
    : block.Extends (.keeping dialect) []
          (block'.withoutMinted (NameSupply.minted start finish))
      ∧ List.Forall₂ (Call.Keeps dialect) (block.evaluatedCalls dialect)
          (block'.reachedCalls dialect)
      ∧ (block.evaluatedCalls dialect).Perm (block.reachedCalls dialect) := by
  have derivation := Block.split_eq_ok_iff.mp split
  obtain ⟨hoists, inside, record⟩ := derivation.exists_extends Rewrite.keeping_allows
  refine ⟨inside.withoutMinted ?_ ?_, derivation.reachedCalls, block.evaluatedCalls_perm⟩
  · intro hoist member
    exact record.handed.minted_iff.mpr (List.mem_map_of_mem member)
  · intro name member
    exact NameSupply.minted_eq_false_of_mem (known name member)

/-- A block with two calls of `setimmutable`, one of them with a call in place of a literal:
`switch f(k()) case 1 { y := f(setimmutable(h(), k(1), x), setimmutable(g(), "B", y)) }`.
-/
def Block.immutableInCase : Block :=
  .ofStmts [.switch .null
    (.call .null (.ofName "f") [.call .null (.ofName "k") []])
    [.labelled (.number "1") (.ofStmts [.assign .null [.ofName "y"]
      (.call .null (.ofName "f") [
        .call .null (.builtin .null ⟨40⟩) [
          .call .null (.ofName "h") [],
          .call .null (.ofName "k") [.literal (.number "1")],
          .ofName "x"
        ],
        .call .null (.builtin .null ⟨40⟩) [
          .call .null (.ofName "g") [],
          .literal (.string "B"),
          .ofName "y"
        ]
      ])])]]

/-- Of seven reached calls, only the one that is assigned is left in place. The second call of
`setimmutable` moves before the first, with `"B"` and `y`, and then the first, with `k(1)` and `x`.
-/
theorem Block.split_keeps_immutableInCase
    : ∃ block' finish,
        immutableInCase.split .stack (.ofBlock immutableInCase) = .ok block' finish
        ∧ block'.withoutMinted (NameSupply.minted (.ofBlock immutableInCase) finish)
          = .ofStmts [.switch .null (.ofName "_2")
              [.labelled (.number "1") (.ofStmts [.assign .null [.ofName "y"]
                (.call .null (.ofName "f") [.ofName "_6", .ofName "_4"])])]]
        ∧ immutableInCase.Extends (.keeping .stack) []
            (block'.withoutMinted (NameSupply.minted (.ofBlock immutableInCase) finish))
        ∧ (block'.reachedCalls .stack).map (fun call => (call.callee, call.args))
          = [
            (.ofName "k", []),
            (.ofName "f", [.ofName "_1"]),
            (.ofName "g", []),
            (.builtin .null ⟨40⟩, [.ofName "_3", .literal (.string "B"), .ofName "y"]),
            (.ofName "h", []),
            (.builtin .null ⟨40⟩, [
              .ofName "_5", .call .null (.ofName "k") [.literal (.number "1")], .ofName "x"
            ]),
            (.ofName "f", [.ofName "_6", .ofName "_4"])
          ]
        ∧ List.Forall₂ (Call.Keeps .stack) (immutableInCase.evaluatedCalls .stack)
            (block'.reachedCalls .stack)
        ∧ (immutableInCase.evaluatedCalls .stack).Perm (immutableInCase.reachedCalls .stack) := by
  have split : immutableInCase.split .stack (.ofBlock immutableInCase) = .ok _ _ := rfl
  have known : (NameSupply.ofBlock immutableInCase).Knows immutableInCase.names :=
    fun _ => NameSupply.mem_used_ofBlock.mpr
  rcases split_keeps split known with ⟨same, kept, sameCalls⟩
  exact ⟨_, _, split, by decide, same, by decide, kept, sameCalls⟩

end StackIR
