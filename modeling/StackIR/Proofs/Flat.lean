import StackIR.Dialect.Stack
import StackIR.Pass
import StackIR.Proofs.Derivation

/-! Flat blocks: the fixed points of splitting.

In a flat block a split reaches well-formed calls alone, and finds identifiers wherever it
outlines. Every split leaves a flat block, and a split changes nothing about a flat block and
takes no name for it: `Block.isFlat_iff`. So splitting twice is splitting once.
-/

namespace StackIR

/-- The arguments in outlinable slots are identifiers. -/
def Expr.argsFlat : List Slot → List Expr → Bool
  | .literalOnly :: slots, _ :: args => Expr.argsFlat slots args
  | .outlinable :: slots, arg :: args => arg.isIdent && Expr.argsFlat slots args
  | _, _ => true

/-- The expression has no argument to outline, and if it is a call, it is well-formed. -/
def Expr.isFlat (dialect : Dialect) : Expr → Bool
  | .ident _ | .literal _ => true
  | .call span callee args =>
      match dialect.slots ⟨span, callee, args⟩ with
      | .ok slots => Expr.argsFlat slots args
      | .error _ => false

mutual
def Stmt.isFlat (dialect : Dialect) : Stmt → Bool
  | .expr _ value => value.isFlat dialect
  | .assign _ _ value => value.isFlat dialect
  | .declare _ _ value => value.all (Expr.isFlat dialect)
  | .define _ _ _ _ body => body.isFlat dialect
  | .branch _ condition body => condition.isIdent && body.isFlat dialect
  | .switch _ subject cases => subject.isIdent && Stmt.casesFlat dialect cases
  | .loop _ pre _ post body => pre.isFlat dialect && post.isFlat dialect && body.isFlat dialect
  | .breakLoop _ | .continueLoop _ | .leave _ => true
  | .block body => body.isFlat dialect
/-- Nothing in the block is left to outline. Loop conditions and the contents of literal-only
slots may be of any form, since a split leaves them alone.
-/
def Block.isFlat (dialect : Dialect) : Block → Bool
  | ⟨_, stmts⟩ => Stmt.listFlat dialect stmts
def Stmt.listFlat (dialect : Dialect) : List Stmt → Bool
  | [] => true
  | stmt :: rest => stmt.isFlat dialect && Stmt.listFlat dialect rest
def Stmt.casesFlat (dialect : Dialect) : List Case → Bool
  | [] => true
  | ⟨_, _, body⟩ :: rest => body.isFlat dialect && Stmt.casesFlat dialect rest
end

variable {dialect : Dialect}

theorem Stmt.listFlat_append (front back : List Stmt)
    : Stmt.listFlat dialect (front ++ back)
      = (Stmt.listFlat dialect front && Stmt.listFlat dialect back) := by
  induction front with
  | nil => rfl
  | cons stmt rest ih => simp [Stmt.listFlat, ih, Bool.and_assoc]

/-- Hoists are flat statements if their values are flat. -/
theorem Stmt.listFlat_hoists {hoists : List Hoist}
    (flat : ∀ hoist ∈ hoists, hoist.value.isFlat dialect = true)
    : Stmt.listFlat dialect (hoists.map Hoist.toStmt) = true := by
  induction hoists with
  | nil => rfl
  | cons hoist hoists ih =>
      obtain ⟨here, there⟩ := List.forall_mem_cons.mp flat
      rw [List.map_cons, Stmt.listFlat, ih there, Bool.and_true]
      simpa [Hoist.toStmt, Declaration.single, Declaration.toStmt, Stmt.isFlat] using here

-----------------------------------------------------------------------------------------
-- A split leaves a flat block
-----------------------------------------------------------------------------------------

/-- Outlining keeps the number of arguments. -/
theorem Expr.ArgsOutline.length_eq {args : List Expr} {start slots hoists flat finish}
    (derived : Expr.ArgsOutline dialect start slots args hoists flat finish)
    : flat.length = args.length := by
  induction args generalizing start slots hoists flat finish with
  | nil =>
      cases derived
      rfl
  | cons arg args ih =>
      cases derived with
      | literalOnly rest | outlinable rest => exact congrArg Nat.succ (ih rest)

/-- Arguments none of which may be outlined stay as they are. -/
theorem Expr.ArgsOutline.eq_of_literalOnly {args : List Expr} {start slots hoists flat finish}
    (derived : Expr.ArgsOutline dialect start slots args hoists flat finish)
    (literalOnly : ∀ slot ∈ slots, slot = .literalOnly)
    : flat = args := by
  induction args generalizing start slots hoists flat finish with
  | nil =>
      cases derived
      rfl
  | cons arg args ih =>
      obtain - | rest | rest := derived
      · exact congrArg (arg :: ·) (ih rest (List.forall_mem_cons.mp literalOnly).2)
      · cases (List.forall_mem_cons.mp literalOnly).1

/-- A call has the same slots after its arguments are outlined: they depend on how many
arguments there are, and on the arguments themselves only where none is outlined.
-/
theorem Expr.ArgsOutline.slots_eq {start span callee args slots hoists flat finish}
    (classified : dialect.slots ⟨span, callee, args⟩ = .ok slots)
    (derived : Expr.ArgsOutline dialect start slots args hoists flat finish)
    : dialect.slots ⟨span, callee, flat⟩ = .ok slots := by
  have sameLength := derived.length_eq
  cases callee with
  | builtin calleeSpan handle =>
      simp only [Dialect.slots] at classified ⊢
      cases known : dialect.builtin? handle with
      | none => simp [known] at classified
      | some builtin =>
          simp only [known] at classified
          obtain ⟨arity, slotsEq⟩ := Builtin.slots_eq_ok_iff.mp classified
          refine Builtin.slots_eq_ok_iff.mpr ⟨?_, ?_⟩
          · exact arity.trans sameLength.symm
          · rw [slotsEq, sameLength]
  | verbatim calleeSpan handle =>
      obtain ⟨-, -, -, slotsEq⟩ := VerbatimFunction.slots_eq_ok_iff.mp classified
      have literalOnly : ∀ slot ∈ slots, slot = .literalOnly := by simp [slotsEq]
      rw [derived.eq_of_literalOnly literalOnly]
      exact classified
  | user ident =>
      simp only [Dialect.slots, Except.ok.injEq, List.map_const'] at classified ⊢
      rw [sameLength, classified]

/-- Outlined arguments are identifiers in their outlinable slots. -/
theorem Expr.ArgsOutline.argsFlat {args : List Expr} {start slots hoists flat finish}
    (derived : Expr.ArgsOutline dialect start slots args hoists flat finish)
    : Expr.argsFlat slots flat = true := by
  induction args generalizing start slots hoists flat finish with
  | nil =>
      cases derived
      rfl
  | cons arg args ih =>
      cases derived with
      | literalOnly rest =>
          rw [Expr.argsFlat]
          exact ih rest
      | outlinable rest first =>
          obtain ⟨i, rfl⟩ := first.eq_ident
          simpa [Expr.argsFlat, Expr.isIdent] using ih rest

/-- What an outlined call leaves in place is flat. -/
theorem Expr.ArgsOutline.isFlat {start span callee args slots hoists flat finish}
    (classified : dialect.slots ⟨span, callee, args⟩ = .ok slots)
    (derived : Expr.ArgsOutline dialect start slots args hoists flat finish)
    : Expr.isFlat dialect (.call span callee flat) = true := by
  simp only [Expr.isFlat, derived.slots_eq classified]
  exact derived.argsFlat

theorem Expr.Flattens.isFlat {start expr hoists flat finish}
    (derived : Expr.Flattens dialect start expr hoists flat finish)
    : flat.isFlat dialect = true := by
  cases derived with
  | ident | literal => rfl
  | call classified outlined => exact outlined.isFlat classified

mutual
/-- The values of hoists are flat, by induction over the derivation. -/
theorem Expr.Flattens.hoists_isFlat {start expr hoists flat finish}
    : Expr.Flattens dialect start expr hoists flat finish
      → ∀ hoist ∈ hoists, hoist.value.isFlat dialect = true
  | .ident | .literal => nofun
  | .call _ outlined => outlined.hoists_isFlat
theorem Expr.ArgsOutline.hoists_isFlat {start slots args hoists flat finish}
    : Expr.ArgsOutline dialect start slots args hoists flat finish
      → ∀ hoist ∈ hoists, hoist.value.isFlat dialect = true
  | .nil => nofun
  | .literalOnly rest => rest.hoists_isFlat
  | .outlinable rest first =>
      List.forall_mem_append.mpr ⟨rest.hoists_isFlat, first.hoists_isFlat⟩
theorem Expr.Outlines.hoists_isFlat {start expr hoists ref finish}
    : Expr.Outlines dialect start expr hoists ref finish
      → ∀ hoist ∈ hoists, hoist.value.isFlat dialect = true
  | .ident => nofun
  | .bind _ flattened _ => by
      refine List.forall_mem_append.mpr ⟨flattened.hoists_isFlat, ?_⟩
      exact List.forall_mem_singleton.mpr flattened.isFlat
end

theorem Stmt.Splits.hoists_isFlat {start stmt hoists stmt' finish}
    (derived : Stmt.Splits dialect start stmt hoists stmt' finish)
    : Stmt.listFlat dialect (hoists.map Hoist.toStmt) = true := by
  cases derived with
  | expr flattened | assign flattened | declare flattened =>
      exact Stmt.listFlat_hoists flattened.hoists_isFlat
  | declareUnset | breakLoop | continueLoop | leave | define | block | loop => rfl
  | branch outlined | switch outlined => exact Stmt.listFlat_hoists outlined.hoists_isFlat

mutual
theorem Stmt.Splits.isFlat {start stmt hoists stmt' finish}
    : Stmt.Splits dialect start stmt hoists stmt' finish → stmt'.isFlat dialect = true
  | .expr flattened | .assign flattened | .declare flattened => flattened.isFlat
  | .declareUnset | .breakLoop | .continueLoop | .leave => rfl
  | .define inner | .block inner => inner.isFlat
  | .branch outlined inner => by
      obtain ⟨i, rfl⟩ := outlined.eq_ident
      rw [Stmt.isFlat, inner.isFlat]
      rfl
  | .switch outlined inner => by
      obtain ⟨i, rfl⟩ := outlined.eq_ident
      rw [Stmt.isFlat, inner.casesFlat]
      rfl
  | .loop first second third => by
      rw [Stmt.isFlat, first.isFlat, second.isFlat, third.isFlat]
      rfl
theorem Block.Splits.isFlat {start block block' finish}
    : Block.Splits dialect start block block' finish → block'.isFlat dialect = true
  | .mk inner => inner.listFlat
theorem Stmt.ListSplits.listFlat {start stmts stmts' finish}
    : Stmt.ListSplits dialect start stmts stmts' finish
      → Stmt.listFlat dialect stmts' = true
  | .nil => rfl
  | .cons first rest => by
      rw [Stmt.listFlat_append, first.hoists_isFlat, Stmt.listFlat, first.isFlat,
        rest.listFlat]
      rfl
theorem Stmt.CasesSplit.casesFlat {start cases cases' finish}
    : Stmt.CasesSplit dialect start cases cases' finish
      → Stmt.casesFlat dialect cases' = true
  | .nil => rfl
  | .cons first rest => by
      rw [Stmt.casesFlat, first.isFlat, rest.casesFlat]
      rfl
end

-----------------------------------------------------------------------------------------
-- A split leaves a flat block as it is
-----------------------------------------------------------------------------------------

variable {supply : NameSupply}

/-- Flat arguments are outlined into themselves, by induction on the arguments. -/
theorem Expr.argsOutline_self {args : List Expr} {slots : List Slot}
    (sameLength : slots.length = args.length) (flat : Expr.argsFlat slots args = true)
    : Expr.ArgsOutline dialect supply slots args [] args supply := by
  induction args generalizing slots with
  | nil =>
      obtain rfl := List.length_eq_zero_iff.mp sameLength
      exact .nil
  | cons arg args ih =>
      obtain - | ⟨slot, slots⟩ := slots
      · cases sameLength
      have below := Nat.succ.inj sameLength
      cases slot with
      | literalOnly => exact .literalOnly (ih below flat)
      | outlinable =>
          rw [argsFlat, Bool.and_eq_true] at flat
          obtain ⟨atom, flatBelow⟩ := flat
          cases arg with
          | ident i => exact .outlinable (ih below flatBelow) .ident
          | literal | call => cases atom

theorem Expr.flattens_self {expr : Expr} (flat : expr.isFlat dialect = true)
    : expr.Flattens dialect supply [] expr supply := by
  cases expr with
  | ident i => exact .ident
  | literal l => exact .literal
  | call span callee args =>
      rw [isFlat] at flat
      split at flat
      · next slots classified =>
          have sameLength := Dialect.length_of_slots_eq_ok classified
          exact .call classified (argsOutline_self sameLength flat)
      · cases flat

theorem Expr.outlines_self {expr : Expr} (atom : expr.isIdent = true)
    : expr.Outlines dialect supply [] expr supply := by
  cases expr with
  | ident i => exact .ident
  | literal | call => cases atom

mutual
/-- A flat statement is split into itself, by induction on the statement. -/
theorem Stmt.splits_self
    : ∀ {stmt : Stmt}, stmt.isFlat dialect = true → stmt.Splits dialect supply [] stmt supply
  | .expr _ value, flat => .expr (Expr.flattens_self flat)
  | .assign _ _ value, flat => .assign (Expr.flattens_self flat)
  | .declare _ _ (some value), flat => .declare (Expr.flattens_self flat)
  | .declare _ _ none, _ => .declareUnset
  | .define _ _ _ _ body, flat => .define (Block.splits_self flat)
  | .branch _ condition body, flat => by
      rw [Stmt.isFlat, Bool.and_eq_true] at flat
      exact .branch (Expr.outlines_self flat.1) (Block.splits_self flat.2)
  | .switch _ subject cases, flat => by
      rw [Stmt.isFlat, Bool.and_eq_true] at flat
      exact .switch (Expr.outlines_self flat.1) (Stmt.casesSplit_self flat.2)
  | .loop _ pre _ post body, flat => by
      rw [Stmt.isFlat, Bool.and_eq_true, Bool.and_eq_true] at flat
      exact .loop (Block.splits_self flat.1.1) (Block.splits_self flat.1.2)
        (Block.splits_self flat.2)
  | .breakLoop _, _ => .breakLoop
  | .continueLoop _, _ => .continueLoop
  | .leave _, _ => .leave
  | .block body, flat => .block (Block.splits_self flat)
termination_by structural x => x
theorem Block.splits_self
    : ∀ {block : Block}, block.isFlat dialect = true
      → block.Splits dialect supply block supply
  | ⟨_, _⟩, flat => .mk (Stmt.listSplits_self flat)
termination_by structural x => x
theorem Stmt.listSplits_self
    : ∀ {stmts : List Stmt}, Stmt.listFlat dialect stmts = true
      → Stmt.ListSplits dialect supply stmts stmts supply
  | [], _ => .nil
  | stmt :: rest, flat => by
      rw [Stmt.listFlat, Bool.and_eq_true] at flat
      exact .cons (Stmt.splits_self flat.1) (Stmt.listSplits_self flat.2)
termination_by structural x => x
theorem Stmt.casesSplit_self
    : ∀ {cases : List Case}, Stmt.casesFlat dialect cases = true
      → Stmt.CasesSplit dialect supply cases cases supply
  | [], _ => .nil
  | ⟨_, _, body⟩ :: rest, flat => by
      rw [Stmt.casesFlat, Bool.and_eq_true] at flat
      exact .cons (Block.splits_self flat.1) (Stmt.casesSplit_self flat.2)
termination_by structural x => x
end

/-- The flat blocks are those that a split leaves as they are, without taking a name. -/
theorem Block.isFlat_iff {block : Block} (supply : NameSupply)
    : block.isFlat dialect = true
      ↔ block.split dialect supply = .ok block supply := by
  rw [Block.split_eq_ok_iff]
  exact ⟨Block.splits_self, Block.Splits.isFlat⟩

namespace Work

/-- What a split leaves is left as it is by every further split, from whatever supply, and no
name is taken from that supply.
-/
theorem split_split {program after : Program}
    (split : Work.split dialect program = .ok () after) (names : NameSupply)
    : Work.split dialect ⟨after.block, names⟩ = .ok () ⟨after.block, names⟩ := by
  have first := Work.split_eq_ok_iff.mp split
  have flat := (Block.split_eq_ok_iff.mp first).isFlat
  exact Work.split_eq_ok_iff.mpr ((Block.isFlat_iff names).mp flat)

/-- The program `for { } f(g()) { } { if setimmutable(h(), k(1), 2) { } }`, with a nested
loop condition and with a call in place of a literal.
-/
def immutableInLoop : Program :=
  .ofBlock (.ofStmts [.loop .null .empty
    (.call .null (.ofName "f") [.call .null (.ofName "g") []]) .empty
    (.ofStmts [.branch .null
      (.call .null (.builtin .null ⟨40⟩) [
        .call .null (.ofName "h") [],
        .call .null (.ofName "k") [.literal (.number "1")],
        .literal (.number "2")
      ])
      .empty])])

/-- A split takes three names in the body of the loop. A split of the result takes none, not
even from a supply that does not know these names.
-/
theorem split_split_immutableInLoop
    : ∃ after,
        Work.split .stack immutableInLoop = .ok () after
        ∧ after.block = .ofStmts [.loop .null .empty
            (.call .null (.ofName "f") [.call .null (.ofName "g") []]) .empty
            (.ofStmts [
              .declareName "_1" (.literal (.number "2")),
              .declareName "_2" (.call .null (.ofName "h") []),
              .declareName "_3" (.call .null (.builtin .null ⟨40⟩) [
                .ofName "_2",
                .call .null (.ofName "k") [.literal (.number "1")],
                .ofName "_1"
              ]),
              .branch .null (.ofName "_3") .empty])]
        ∧ Work.split .stack ⟨after.block, .ofNames ["_2", "f"]⟩
          = .ok () ⟨after.block, .ofNames ["_2", "f"]⟩ := by
  have split : Work.split .stack immutableInLoop = .ok () _ := rfl
  exact ⟨_, split, by decide, split_split split _⟩

end Work
end StackIR
