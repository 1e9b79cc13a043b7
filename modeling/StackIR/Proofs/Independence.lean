import StackIR.Proofs.Faults
import StackIR.Proofs.Renaming

/-! The supply of a split decides about the choice of names, and about nothing else.

Two splits of one block go in lockstep: whatever the supplies hand out, a renaming of the names
of one to the names of the other turns one result into the other: `Block.Splits.lockstep`. So
two splits agree on success, on faults and on split form, and their results differ by a renaming
that is one to one: `Work.split_supply_independent`.
-/

namespace StackIR

/-- Two runs take equally many names from their supplies, and what is `related` are all
renamings of the names of the first run to those of the second, in the order in which they are
handed out.
-/
def Lockstep (dialect : Dialect) (start₁ finish₁ start₂ finish₂ : NameSupply)
    (related : (Name → Name) → Prop) : Prop :=
  ∃ names₁ names₂,
    start₁.Hands dialect names₁ finish₁
    ∧ start₂.Hands dialect names₂ finish₂
    ∧ names₁.length = names₂.length
    ∧ ∀ rename : Name → Name, names₁.map rename = names₂ → related rename

variable {dialect : Dialect} {start₁ middle₁ finish₁ start₂ middle₂ finish₂ : NameSupply}
  {related next : (Name → Name) → Prop}

namespace Lockstep

/-- Runs that take no names relate what always holds. -/
theorem of_forall (holds : ∀ rename, related rename)
    : Lockstep dialect start₁ start₁ start₂ start₂ related :=
  ⟨[], [], .nil, .nil, rfl, fun rename _ => holds rename⟩

/-- Runs that take one name each relate these names. -/
theorem of_fresh? {name₁ name₂ : Name} (handed₁ : start₁.fresh? dialect = some (name₁, finish₁))
    (handed₂ : start₂.fresh? dialect = some (name₂, finish₂))
    : Lockstep dialect start₁ finish₁ start₂ finish₂ fun rename => rename name₁ = name₂ :=
  ⟨[name₁], [name₂], NameSupply.hands_singleton handed₁, NameSupply.hands_singleton handed₂, rfl,
    fun _ same => List.singleton_inj.mp same⟩

theorem mono (both : Lockstep dialect start₁ finish₁ start₂ finish₂ related)
    (implies : ∀ rename, related rename → next rename)
    : Lockstep dialect start₁ finish₁ start₂ finish₂ next := by
  obtain ⟨names₁, names₂, handed₁, handed₂, sameLength, relates⟩ := both
  exact ⟨names₁, names₂, handed₁, handed₂, sameLength,
    fun rename same => implies rename (relates rename same)⟩

/-- Runs in two parts stay in lockstep if both parts do. Witness: the first parts take equally
many names, so that a renaming of all names renames those of each part.
-/
theorem andThen (first : Lockstep dialect start₁ middle₁ start₂ middle₂ related)
    (second : Lockstep dialect middle₁ finish₁ middle₂ finish₂ next)
    : Lockstep dialect start₁ finish₁ start₂ finish₂ fun rename =>
        related rename ∧ next rename := by
  obtain ⟨front₁, front₂, inFront₁, inFront₂, sameFront, relates⟩ := first
  obtain ⟨back₁, back₂, inBack₁, inBack₂, sameBack, relatesNext⟩ := second
  refine ⟨front₁ ++ back₁, front₂ ++ back₂, inFront₁.append inBack₁, inFront₂.append inBack₂,
    ?_, ?_⟩
  · rw [List.length_append, List.length_append, sameFront, sameBack]
  · intro rename same
    rw [List.map_append] at same
    obtain ⟨frontSame, backSame⟩ :=
      List.append_inj same ((List.length_map _).trans sameFront)
    exact ⟨relates rename frontSame, relatesNext rename backSame⟩

end Lockstep

-----------------------------------------------------------------------------------------
-- Splits go in lockstep
-----------------------------------------------------------------------------------------

mutual
/-- Two derivations for one expression go in lockstep, by induction over the first. -/
theorem Expr.Flattens.lockstep {expr hoists₁ flat₁ hoists₂ flat₂ start₁ finish₁ start₂ finish₂}
    : Expr.Flattens dialect start₁ expr hoists₁ flat₁ finish₁
      → Expr.Flattens dialect start₂ expr hoists₂ flat₂ finish₂
      → Lockstep dialect start₁ finish₁ start₂ finish₂ fun rename =>
          expr.rename rename = expr
          → hoists₁.map (Hoist.rename rename) = hoists₂ ∧ flat₁.rename rename = flat₂
  | .ident, .ident | .literal, .literal =>
      .of_forall fun rename fixed => ⟨rfl, fixed⟩
  | .call classified₁ outlined₁, .call classified₂ outlined₂ => by
      cases classified₁.symm.trans classified₂
      refine (outlined₁.lockstep outlined₂).mono ?_
      intro rename follows fixed
      obtain ⟨-, sameCallee, fixedArgs⟩ := Expr.call.inj fixed
      obtain ⟨sameHoists, sameFlat⟩ := follows fixedArgs
      exact ⟨sameHoists, by rw [Expr.rename, sameCallee, sameFlat]⟩
theorem Expr.ArgsOutline.lockstep
    {slots args hoists₁ flat₁ hoists₂ flat₂ start₁ finish₁ start₂ finish₂}
    : Expr.ArgsOutline dialect start₁ slots args hoists₁ flat₁ finish₁
      → Expr.ArgsOutline dialect start₂ slots args hoists₂ flat₂ finish₂
      → Lockstep dialect start₁ finish₁ start₂ finish₂ fun rename =>
          Expr.renameArgs rename args = args
          → hoists₁.map (Hoist.rename rename) = hoists₂ ∧ Expr.renameArgs rename flat₁ = flat₂
  | .nil, .nil => .of_forall fun rename fixed => ⟨rfl, rfl⟩
  | .literalOnly rest₁, .literalOnly rest₂ => by
      refine (rest₁.lockstep rest₂).mono ?_
      intro rename follows fixed
      obtain ⟨fixedArg, fixedArgs⟩ := List.cons.inj fixed
      obtain ⟨sameHoists, sameFlat⟩ := follows fixedArgs
      exact ⟨sameHoists, by rw [Expr.renameArgs, fixedArg, sameFlat]⟩
  | .outlinable rest₁ first₁, .outlinable rest₂ first₂ => by
      refine ((rest₁.lockstep rest₂).andThen (first₁.lockstep first₂)).mono ?_
      intro rename follows fixed
      obtain ⟨fixedArg, fixedArgs⟩ := List.cons.inj fixed
      obtain ⟨sameLater, sameFlat⟩ := follows.1 fixedArgs
      obtain ⟨sameHoists, sameRef⟩ := follows.2 fixedArg
      rw [List.map_append, sameLater, sameHoists, Expr.renameArgs, sameRef, sameFlat]
      exact ⟨rfl, rfl⟩
theorem Expr.Outlines.lockstep {expr hoists₁ ref₁ hoists₂ ref₂ start₁ finish₁ start₂ finish₂}
    : Expr.Outlines dialect start₁ expr hoists₁ ref₁ finish₁
      → Expr.Outlines dialect start₂ expr hoists₂ ref₂ finish₂
      → Lockstep dialect start₁ finish₁ start₂ finish₂ fun rename =>
          expr.rename rename = expr
          → hoists₁.map (Hoist.rename rename) = hoists₂ ∧ ref₁.rename rename = ref₂
  | .ident, .ident => .of_forall fun rename fixed => ⟨rfl, fixed⟩
  | .bind complex flattened₁ handed₁, .bind _ flattened₂ handed₂ => by
      refine ((flattened₁.lockstep flattened₂).andThen (.of_fresh? handed₁ handed₂)).mono ?_
      intro rename follows fixed
      obtain ⟨sameHoists, sameFlat⟩ := follows.1 fixed
      simp [Hoist.rename, Expr.rename, Ident.rename, sameHoists, sameFlat, follows.2]
end

mutual
theorem Stmt.Splits.lockstep {stmt hoists₁ stmt₁ hoists₂ stmt₂ start₁ finish₁ start₂ finish₂}
    : Stmt.Splits dialect start₁ stmt hoists₁ stmt₁ finish₁
      → Stmt.Splits dialect start₂ stmt hoists₂ stmt₂ finish₂
      → Lockstep dialect start₁ finish₁ start₂ finish₂ fun rename =>
          stmt.rename rename = stmt
          → hoists₁.map (Hoist.rename rename) = hoists₂ ∧ stmt₁.rename rename = stmt₂
  | .expr flattened₁, .expr flattened₂ => by
      refine (flattened₁.lockstep flattened₂).mono ?_
      intro rename follows fixed
      obtain ⟨-, fixedValue⟩ := Stmt.expr.inj fixed
      obtain ⟨sameHoists, sameValue⟩ := follows fixedValue
      exact ⟨sameHoists, by rw [Stmt.rename, sameValue]⟩
  | .assign flattened₁, .assign flattened₂ => by
      refine (flattened₁.lockstep flattened₂).mono ?_
      intro rename follows fixed
      obtain ⟨-, fixedTargets, fixedValue⟩ := Stmt.assign.inj fixed
      obtain ⟨sameHoists, sameValue⟩ := follows fixedValue
      exact ⟨sameHoists, by rw [Stmt.rename, fixedTargets, sameValue]⟩
  | .declare flattened₁, .declare flattened₂ => by
      refine (flattened₁.lockstep flattened₂).mono ?_
      intro rename follows fixed
      obtain ⟨-, fixedBindings, fixedValue⟩ := Stmt.declare.inj fixed
      obtain ⟨sameHoists, sameValue⟩ := follows (Option.some.inj fixedValue)
      exact ⟨sameHoists, by rw [Stmt.rename, fixedBindings, Option.map_some, sameValue]⟩
  | .declareUnset, .declareUnset | .breakLoop, .breakLoop | .continueLoop, .continueLoop
  | .leave, .leave => .of_forall fun rename fixed => ⟨rfl, fixed⟩
  | .define inner₁, .define inner₂ => by
      refine (inner₁.lockstep inner₂).mono ?_
      intro rename follows fixed
      obtain ⟨-, fixedName, fixedParams, fixedReturns, fixedBody⟩ := Stmt.define.inj fixed
      exact ⟨rfl, by rw [Stmt.rename, fixedName, fixedParams, fixedReturns, follows fixedBody]⟩
  | .branch outlined₁ inner₁, .branch outlined₂ inner₂ => by
      refine ((outlined₁.lockstep outlined₂).andThen (inner₁.lockstep inner₂)).mono ?_
      intro rename follows fixed
      obtain ⟨-, fixedCondition, fixedBody⟩ := Stmt.branch.inj fixed
      obtain ⟨sameHoists, sameRef⟩ := follows.1 fixedCondition
      exact ⟨sameHoists, by rw [Stmt.rename, sameRef, follows.2 fixedBody]⟩
  | .switch outlined₁ inner₁, .switch outlined₂ inner₂ => by
      refine ((outlined₁.lockstep outlined₂).andThen (inner₁.lockstep inner₂)).mono ?_
      intro rename follows fixed
      obtain ⟨-, fixedSubject, fixedCases⟩ := Stmt.switch.inj fixed
      obtain ⟨sameHoists, sameRef⟩ := follows.1 fixedSubject
      exact ⟨sameHoists, by rw [Stmt.rename, sameRef, follows.2 fixedCases]⟩
  | .loop first₁ second₁ third₁, .loop first₂ second₂ third₂ => by
      refine (((first₁.lockstep first₂).andThen (second₁.lockstep second₂)).andThen
        (third₁.lockstep third₂)).mono ?_
      intro rename follows fixed
      obtain ⟨-, fixedPre, fixedCondition, fixedPost, fixedBody⟩ := Stmt.loop.inj fixed
      obtain ⟨⟨followsPre, followsPost⟩, followsBody⟩ := follows
      refine ⟨rfl, ?_⟩
      rw [Stmt.rename, followsPre fixedPre, fixedCondition, followsPost fixedPost,
        followsBody fixedBody]
  | .block inner₁, .block inner₂ => by
      refine (inner₁.lockstep inner₂).mono ?_
      intro rename follows fixed
      exact ⟨rfl, by rw [Stmt.rename, follows (Stmt.block.inj fixed)]⟩
/-- Two splits of one block go in lockstep. -/
theorem Block.Splits.lockstep {block block₁ block₂ start₁ finish₁ start₂ finish₂}
    : Block.Splits dialect start₁ block block₁ finish₁
      → Block.Splits dialect start₂ block block₂ finish₂
      → Lockstep dialect start₁ finish₁ start₂ finish₂ fun rename =>
          block.rename rename = block → block₁.rename rename = block₂
  | .mk inner₁, .mk inner₂ => by
      refine (inner₁.lockstep inner₂).mono ?_
      intro rename follows fixed
      obtain ⟨-, fixedStmts⟩ := Block.mk.inj fixed
      rw [Block.rename, follows fixedStmts]
theorem Stmt.ListSplits.lockstep {stmts stmts₁ stmts₂ start₁ finish₁ start₂ finish₂}
    : Stmt.ListSplits dialect start₁ stmts stmts₁ finish₁
      → Stmt.ListSplits dialect start₂ stmts stmts₂ finish₂
      → Lockstep dialect start₁ finish₁ start₂ finish₂ fun rename =>
          Stmt.renameList rename stmts = stmts → Stmt.renameList rename stmts₁ = stmts₂
  | .nil, .nil => .of_forall fun rename fixed => fixed
  | .cons first₁ rest₁, .cons first₂ rest₂ => by
      refine ((first₁.lockstep first₂).andThen (rest₁.lockstep rest₂)).mono ?_
      intro rename follows fixed
      obtain ⟨fixedStmt, fixedRest⟩ := List.cons.inj fixed
      obtain ⟨sameHoists, sameStmt⟩ := follows.1 fixedStmt
      have sameRest := follows.2 fixedRest
      rw [Stmt.renameList_append, Hoist.renameList_toStmt, sameHoists, Stmt.renameList,
        sameStmt, sameRest]
theorem Stmt.CasesSplit.lockstep {cases cases₁ cases₂ start₁ finish₁ start₂ finish₂}
    : Stmt.CasesSplit dialect start₁ cases cases₁ finish₁
      → Stmt.CasesSplit dialect start₂ cases cases₂ finish₂
      → Lockstep dialect start₁ finish₁ start₂ finish₂ fun rename =>
          Stmt.renameCases rename cases = cases → Stmt.renameCases rename cases₁ = cases₂
  | .nil, .nil => .of_forall fun rename fixed => fixed
  | .cons first₁ rest₁, .cons first₂ rest₂ => by
      refine ((first₁.lockstep first₂).andThen (rest₁.lockstep rest₂)).mono ?_
      intro rename follows fixed
      obtain ⟨fixedCase, fixedRest⟩ := List.cons.inj fixed
      obtain ⟨-, -, fixedBody⟩ := Case.mk.inj fixedCase
      rw [Stmt.renameCases, follows.1 fixedBody, follows.2 fixedRest]
end

-----------------------------------------------------------------------------------------
-- How two splits of one block compare
-----------------------------------------------------------------------------------------

variable {block : Block}

/-- Whether a split succeeds, and which fault it reports if not, is the same for all supplies
that have names left for the values of the block.
-/
theorem Work.split_ends_alike
    (enough₁ : (block.boundValues dialect).length ≤ start₁.freeLeft dialect)
    (enough₂ : (block.boundValues dialect).length ≤ start₂.freeLeft dialect)
    : (∃ after₁ after₂,
        Work.split dialect ⟨block, start₁⟩ = .ok () after₁
        ∧ Work.split dialect ⟨block, start₂⟩ = .ok () after₂)
      ∨ ∃ error after₁ after₂,
          Work.split dialect ⟨block, start₁⟩ = .error (.failed error) after₁
          ∧ Work.split dialect ⟨block, start₂⟩ = .error (.failed error) after₂ := by
  cases broken : block.firstFault? dialect with
  | none =>
      obtain ⟨block₁, finish₁, -, split₁, -, -⟩ := Block.exists_split_eq_ok enough₁ broken
      obtain ⟨block₂, finish₂, -, split₂, -, -⟩ := Block.exists_split_eq_ok enough₂ broken
      refine .inl ⟨⟨block₁, finish₁⟩, ⟨block₂, finish₂⟩, ?_, ?_⟩
      · exact Work.split_eq_ok_iff.mpr split₁
      · exact Work.split_eq_ok_iff.mpr split₂
  | some fault =>
      obtain ⟨finish₁, -, fails₁, -, -⟩ :=
        @Work.exists_split_eq_error dialect ⟨block, start₁⟩ fault enough₁ broken
      obtain ⟨finish₂, -, fails₂, -, -⟩ :=
        @Work.exists_split_eq_error dialect ⟨block, start₂⟩ fault enough₂ broken
      exact .inr ⟨fault.toError, _, _, fails₁, fails₂⟩

/-- If two supplies know the names of a block, the results of its splits are the same up to an
injective renaming of the names that were handed out. Witness: these are as many on both sides,
distinct, and no names of the block.
-/
theorem Block.Splits.exists_rename {block₁ block₂ : Block}
    (split₁ : block.Splits dialect start₁ block₁ finish₁)
    (split₂ : block.Splits dialect start₂ block₂ finish₂)
    (known₁ : start₁.Knows block.names) (known₂ : start₂.Knows block.names)
    : ∃ (names₁ names₂ : List Name) (rename : Name → Name),
        start₁.Hands dialect names₁ finish₁
        ∧ start₂.Hands dialect names₂ finish₂
        ∧ Function.Injective rename
        ∧ (∀ name ∈ block.names, rename name = name)
        ∧ names₁.map rename = names₂
        ∧ block₁.rename rename = block₂ := by
  obtain ⟨names₁, names₂, handed₁, handed₂, sameLength, relates⟩ := split₁.lockstep split₂
  obtain ⟨distinct₁, unused₁⟩ := handed₁.nodup
  obtain ⟨distinct₂, unused₂⟩ := handed₂.nodup
  obtain ⟨rename, injective, maps, fixes⟩ :=
    exists_injective_map_eq distinct₁ distinct₂ sameLength
  have fixesBlock : ∀ name ∈ block.names, rename name = name := by
    intro name occurs
    have old₁ : name ∉ names₁ := fun minted => unused₁ name minted (known₁ name occurs)
    have old₂ : name ∉ names₂ := fun minted => unused₂ name minted (known₂ name occurs)
    exact fixes name old₁ old₂
  have renamed : block₁.rename rename = block₂ :=
    relates rename maps ((Block.rename_eq_iff rename block).mpr fixesBlock)
  exact ⟨names₁, names₂, rename, handed₁, handed₂, injective, fixesBlock, maps, renamed⟩

/-- The supply decides about nothing but the choice of names. If neither split runs out of names,
as `Block.split_runs_out_iff` has it, both succeed, or both fail with one error. If they succeed
and the supplies know all names of the block, the results depart from split form in the same
ways, and an injective renaming turns one into the other. It fixes the names of the block, and
sends the names that the first supply hands out to those that the second does, in order.
-/
theorem Work.split_supply_independent
    (enough₁ : (block.boundValues dialect).length ≤ start₁.freeLeft dialect)
    (enough₂ : (block.boundValues dialect).length ≤ start₂.freeLeft dialect)
    : ((∃ after₁ after₂,
          Work.split dialect ⟨block, start₁⟩ = .ok () after₁
          ∧ Work.split dialect ⟨block, start₂⟩ = .ok () after₂)
        ∨ ∃ error after₁ after₂,
            Work.split dialect ⟨block, start₁⟩ = .error (.failed error) after₁
            ∧ Work.split dialect ⟨block, start₂⟩ = .error (.failed error) after₂)
      ∧ ∀ after₁ after₂,
          Work.split dialect ⟨block, start₁⟩ = .ok () after₁
          → Work.split dialect ⟨block, start₂⟩ = .ok () after₂
          → (∀ name ∈ block.nameSet, name ∈ start₁.used)
          → (∀ name ∈ block.nameSet, name ∈ start₂.used)
          → after₁.block.violations dialect = after₂.block.violations dialect
            ∧ ∃ (names₁ names₂ : List Name) (rename : Name → Name),
                start₁.Hands dialect names₁ after₁.names
                ∧ start₂.Hands dialect names₂ after₂.names
                ∧ Function.Injective rename
                ∧ (∀ name ∈ block.nameSet, rename name = name)
                ∧ names₁.map rename = names₂
                ∧ after₁.block.rename rename = after₂.block := by
  refine ⟨Work.split_ends_alike enough₁ enough₂, ?_⟩
  intro after₁ after₂ succeeds₁ succeeds₂ known₁ known₂
  have split₁ := Block.split_eq_ok_iff.mp (Work.split_eq_ok_iff.mp succeeds₁)
  have split₂ := Block.split_eq_ok_iff.mp (Work.split_eq_ok_iff.mp succeeds₂)
  simp only [Block.mem_nameSet] at known₁ known₂ ⊢
  obtain ⟨names₁, names₂, rename, handed₁, handed₂, injective, fixes, maps, renamed⟩ :=
    split₁.exists_rename split₂ known₁ known₂
  have sameViolations := Block.violations_rename rename dialect after₁.block
  rw [renamed] at sameViolations
  exact ⟨sameViolations.symm, names₁, names₂, rename, handed₁, handed₂, injective, fixes, maps,
    renamed⟩

/-- The block `let _2 := f(g(1), h(_2))`, `datasize(g(k(3)))`. -/
def Block.numbered : Block := .ofStmts [
    .declareName "_2" (.call .null (.ofName "f") [
      .call .null (.ofName "g") [.literal (.number "1")],
      .call .null (.ofName "h") [.ofName "_2"]
    ]),
    .expr .null (.call .null (.builtin .null ⟨37⟩) [
      .call .null (.ofName "g") [.call .null (.ofName "k") [.literal (.number "3")]]
    ])
  ]

/-- Where `_1` is used elsewhere, the second name that is handed out is the third one here. -/
theorem Work.split_supply_independent_numbered
    : ∃ after₁ after₂,
        Work.split .stack (.ofBlock .numbered) = .ok () after₁
        ∧ Work.split .stack ⟨.numbered, (NameSupply.ofBlock .numbered).markUsed "_1"⟩
          = .ok () after₂
        ∧ after₁.block.stmts.take 3 = [
            .declareName "_1" (.call .null (.ofName "h") [.ofName "_2"]),
            .declareName "_3" (.literal (.number "1")),
            .declareName "_4" (.call .null (.ofName "g") [.ofName "_3"])]
        ∧ after₂.block.stmts.take 3 = [
            .declareName "_3" (.call .null (.ofName "h") [.ofName "_2"]),
            .declareName "_4" (.literal (.number "1")),
            .declareName "_5" (.call .null (.ofName "g") [.ofName "_4"])]
        ∧ after₁.block.violations .stack = after₂.block.violations .stack
        ∧ ∃ rename : Name → Name,
            Function.Injective rename
            ∧ (∀ name ∈ Block.numbered.nameSet, rename name = name)
            ∧ after₁.block.rename rename = after₂.block := by
  have reserves := Dialect.ofTable_reservesOnly "stack" Dialect.stackBuiltins .ofHandle []
  have split₁ : Work.split .stack (.ofBlock .numbered) = .ok () _ := rfl
  have split₂ : Work.split .stack
      ⟨.numbered, (NameSupply.ofBlock .numbered).markUsed "_1"⟩ = .ok () _ := rfl
  have enough₁ : (Block.numbered.boundValues .stack).length
      ≤ (NameSupply.ofBlock .numbered).freeLeft .stack :=
    NameSupply.le_freeLeft reserves (by decide)
  have enough₂ : (Block.numbered.boundValues .stack).length
      ≤ ((NameSupply.ofBlock .numbered).markUsed "_1").freeLeft .stack :=
    NameSupply.le_freeLeft reserves (by decide)
  obtain ⟨-, compare⟩ := Work.split_supply_independent enough₁ enough₂
  obtain ⟨sameViolations, -, -, rename, -, -, injective, fixes, -, renamed⟩ :=
    compare _ _ split₁ split₂ (fun _ occurs => occurs)
      (fun _ occurs => NameSupply.mem_used_markUsed.mpr (.inr occurs))
  exact ⟨_, _, split₁, split₂, by decide, by decide, sameViolations, rename, injective, fixes,
    renamed⟩

end StackIR
