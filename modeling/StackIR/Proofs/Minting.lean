import StackIR.Proofs.Derivation

/-! The names that a split takes from its supply.

A supply only grows. A name is minted between two states of a supply if it is used in the
later one only; so each name is minted at most once, and every hoist has a minted name.
-/

namespace StackIR

namespace NameSupply

/-- The name was handed out between the two states of the supply. -/
def minted (before after : NameSupply) (name : Name) : Bool :=
  after.isUsed name && !before.isUsed name

/-- Every name that was used before is used after. -/
def Grows (before after : NameSupply) : Prop := ∀ name ∈ before.used, name ∈ after.used

/-- All of the names are used. -/
def Knows (supply : NameSupply) (names : List Name) : Prop := ∀ name ∈ names, name ∈ supply.used

variable {before middle after : NameSupply} {name other : Name} {dialect : Dialect}

theorem minted_iff : minted before after name = true
    ↔ name ∈ after.used ∧ name ∉ before.used := by
  simp [minted, ← isUsed_iff]

theorem minted_eq_false_of_mem (known : name ∈ before.used)
    : minted before after name = false :=
  Bool.eq_false_iff.mpr fun isMinted => (minted_iff.mp isMinted).2 known

theorem minted_self (supply : NameSupply) : minted supply supply name = false :=
  Bool.eq_false_iff.mpr fun isMinted => (minted_iff.mp isMinted).2 (minted_iff.mp isMinted).1

theorem Grows.refl (supply : NameSupply) : Grows supply supply := fun _ used => used

theorem Grows.trans (first : Grows before middle) (second : Grows middle after)
    : Grows before after :=
  fun name used => second name (first name used)

theorem Knows.grow {names : List Name} (known : before.Knows names) (grows : Grows before after)
    : after.Knows names :=
  fun name member => grows name (known name member)

theorem knows_append {front back : List Name}
    : before.Knows (front ++ back) ↔ before.Knows front ∧ before.Knows back :=
  List.forall_mem_append

/-- What is minted on the way is minted in its first part or in its second. -/
theorem Grows.minted_eq_or (first : Grows before middle) (second : Grows middle after)
    : minted before after name = (minted before middle name || minted middle after name) := by
  rw [Bool.eq_iff_iff, Bool.or_eq_true, minted_iff, minted_iff, minted_iff]
  have into := first name
  have onward := second name
  grind

/-- No name is minted twice. -/
theorem minted_eq_false_of_minted (first : minted before middle name = true)
    : minted middle after name = false :=
  minted_eq_false_of_mem (minted_iff.mp first).1

theorem grows_of_fresh? (handed : before.fresh? dialect = some (name, after))
    : Grows before after :=
  fun _ used => (mem_used_of_freshFor? handed).mpr (.inr used)

/-- The name that is handed out is the one that is minted. -/
theorem minted_of_fresh? (handed : before.fresh? dialect = some (name, after))
    : minted before after other = decide (other = name) := by
  rw [Bool.eq_iff_iff, minted_iff, decide_eq_true_iff, mem_used_of_freshFor? handed]
  constructor
  · intro holds
    rcases holds with ⟨rfl | used, unused⟩
    · rfl
    · exact absurd used unused
  · intro same
    subst same
    exact ⟨.inl rfl, (isFree_iff.mp (isFree_of_freshFor? handed)).2.1⟩

end NameSupply

-----------------------------------------------------------------------------------------
-- Supplies along a split
-----------------------------------------------------------------------------------------

open NameSupply

variable {dialect : Dialect}

mutual
theorem Expr.Flattens.grows {start expr hoists flat finish}
    : Expr.Flattens dialect start expr hoists flat finish → Grows start finish
  | .ident | .literal => .refl _
  | .call _ outlined => outlined.grows
theorem Expr.ArgsOutline.grows {start slots args hoists flat finish}
    : Expr.ArgsOutline dialect start slots args hoists flat finish → Grows start finish
  | .nil => .refl _
  | .literalOnly rest => rest.grows
  | .outlinable rest first => rest.grows.trans first.grows
theorem Expr.Outlines.grows {start expr hoists ref finish}
    : Expr.Outlines dialect start expr hoists ref finish → Grows start finish
  | .ident => .refl _
  | .bind _ flattened handed => flattened.grows.trans (grows_of_fresh? handed)
end

mutual
theorem Stmt.Splits.grows {start stmt hoists stmt' finish}
    : Stmt.Splits dialect start stmt hoists stmt' finish → Grows start finish
  | .expr flattened | .assign flattened | .declare flattened => flattened.grows
  | .declareUnset | .breakLoop | .continueLoop | .leave => .refl _
  | .define inner | .block inner => inner.grows
  | .branch outlined inner => outlined.grows.trans inner.grows
  | .switch outlined inner => outlined.grows.trans inner.grows
  | .loop first second third => (first.grows.trans second.grows).trans third.grows
theorem Block.Splits.grows {start block block' finish}
    : Block.Splits dialect start block block' finish → Grows start finish
  | .mk inner => inner.grows
theorem Stmt.ListSplits.grows {start stmts stmts' finish}
    : Stmt.ListSplits dialect start stmts stmts' finish → Grows start finish
  | .nil => .refl _
  | .cons first rest => first.grows.trans rest.grows
theorem Stmt.CasesSplit.grows {start cases cases' finish}
    : Stmt.CasesSplit dialect start cases cases' finish → Grows start finish
  | .nil => .refl _
  | .cons first rest => first.grows.trans rest.grows
end

/-- All hoists have names that were minted between the two states. -/
def Hoist.Minted (before after : NameSupply) (hoists : List Hoist) : Prop :=
  ∀ hoist ∈ hoists, NameSupply.minted before after hoist.name = true

theorem Hoist.Minted.grow {before middle after : NameSupply} {hoists : List Hoist}
    (minted : Minted before middle hoists) (first : Grows before middle)
    (second : Grows middle after)
    : Minted before after hoists := by
  intro hoist member
  rw [first.minted_eq_or second, minted hoist member, Bool.true_or]

/-- No hoist has a name that was used before. -/
theorem Hoist.Minted.ne_of_mem_used {before after : NameSupply} {hoists : List Hoist}
    {name : Name} (minted : Minted before after hoists) (used : name ∈ before.used)
    : ∀ hoist ∈ hoists, hoist.name ≠ name := by
  rintro hoist member rfl
  exact (minted_iff.mp (minted hoist member)).2 used

theorem Hoist.Minted.append {before middle after : NameSupply} {front back : List Hoist}
    (first : Grows before middle) (second : Grows middle after)
    (frontMinted : Minted before middle front) (backMinted : Minted middle after back)
    : Minted before after (front ++ back) := by
  simp only [Minted, List.forall_mem_append, first.minted_eq_or second, Bool.or_eq_true]
  exact ⟨fun hoist member => .inl (frontMinted hoist member),
    fun hoist member => .inr (backMinted hoist member)⟩

mutual
theorem Expr.Flattens.hoists_minted {start expr hoists flat finish}
    : Expr.Flattens dialect start expr hoists flat finish → Hoist.Minted start finish hoists
  | .ident | .literal => nofun
  | .call _ outlined => outlined.hoists_minted
theorem Expr.ArgsOutline.hoists_minted {start slots args hoists flat finish}
    : Expr.ArgsOutline dialect start slots args hoists flat finish
      → Hoist.Minted start finish hoists
  | .nil => nofun
  | .literalOnly rest => rest.hoists_minted
  | .outlinable rest first =>
      .append rest.grows first.grows rest.hoists_minted first.hoists_minted
theorem Expr.Outlines.hoists_minted {start expr hoists ref finish}
    : Expr.Outlines dialect start expr hoists ref finish → Hoist.Minted start finish hoists
  | .ident => nofun
  | .bind _ flattened handed => by
      refine .append flattened.grows (grows_of_fresh? handed) flattened.hoists_minted ?_
      simp [Hoist.Minted, minted_of_fresh? handed]
end

theorem Stmt.Splits.hoists_minted {start stmt hoists stmt' finish}
    (derived : Stmt.Splits dialect start stmt hoists stmt' finish)
    : Hoist.Minted start finish hoists := by
  cases derived with
  | expr flattened | assign flattened | declare flattened => exact flattened.hoists_minted
  | declareUnset | breakLoop | continueLoop | leave | define | block | loop => nofun
  | branch outlined inner => exact outlined.hoists_minted.grow outlined.grows inner.grows
  | switch outlined inner => exact outlined.hoists_minted.grow outlined.grows inner.grows

end StackIR
