import Mathlib.Data.List.DropRight
import StackIR.Proofs.Steps

/-! The values that a split outlines, and the hoists that hold them.

The values are read off the block, in the order in which a split binds them: `Block.outlined`.
The n-th hoist holds the n-th value. The values outlined inside it come right before it, and it
refers to their hoists: `Hoist.Holds`.
-/

namespace StackIR

variable {dialect : Dialect}

-----------------------------------------------------------------------------------------
-- Outlined values
-----------------------------------------------------------------------------------------

/-- The values that are outlined inside an expression that stays in place. -/
def Expr.outlinedInside (dialect : Dialect) (expr : Expr) : List Expr :=
  SplitStep.values (expr.flattenSteps dialect)

/-- The values that are outlined in the arguments of a call with the given slots, from the last
argument to the first.
-/
def Expr.outlinedInArgs (dialect : Dialect) (slots : List Slot) (args : List Expr)
    : List Expr :=
  SplitStep.values (Expr.argSteps dialect slots args)

/-- The values that are outlined for an expression that does not stay in place: those inside it
and then itself, unless it is an identifier.
-/
def Expr.outlinedWhole (dialect : Dialect) (expr : Expr) : List Expr :=
  SplitStep.values (expr.outlineSteps dialect)

def Stmt.outlined (dialect : Dialect) (stmt : Stmt) : List Expr :=
  SplitStep.values (stmt.splitSteps dialect)

/-- The values that are outlined in a block at any depth, in the order of evaluation. -/
def Block.outlined (dialect : Dialect) (block : Block) : List Expr :=
  SplitStep.values (block.splitSteps dialect)

def Stmt.listOutlined (dialect : Dialect) (stmts : List Stmt) : List Expr :=
  SplitStep.values (Stmt.listSteps dialect stmts)

def Stmt.caseOutlined (dialect : Dialect) (cases : List Case) : List Expr :=
  SplitStep.values (Stmt.caseSteps dialect cases)

theorem SplitStep.values_append (front back : List SplitStep)
    : values (front ++ back) = values front ++ values back :=
  List.filterMap_append

theorem Expr.outlinedInside_call {span : Span} {callee : Callee} {args : List Expr}
    {slots : List Slot} (classified : dialect.slots ⟨span, callee, args⟩ = .ok slots)
    : Expr.outlinedInside dialect (.call span callee args)
      = Expr.outlinedInArgs dialect slots args := by
  simp only [outlinedInside, flattenSteps, classified, SplitStep.values, List.filterMap_cons,
    SplitStep.value?, outlinedInArgs]

theorem Expr.outlinedInArgs_outlinable (slots : List Slot) (arg : Expr) (args : List Expr)
    : Expr.outlinedInArgs dialect (.outlinable :: slots) (arg :: args)
      = Expr.outlinedInArgs dialect slots args ++ arg.outlinedWhole dialect :=
  SplitStep.values_append _ _

theorem Expr.outlinedWhole_of_complex {expr : Expr} (complex : expr.isIdent = false)
    : expr.outlinedWhole dialect = expr.outlinedInside dialect ++ [expr] := by
  rw [outlinedWhole, outlineSteps, SplitStep.values_append]
  cases expr with
  | ident i => cases complex
  | literal | call => rfl

-----------------------------------------------------------------------------------------
-- References and hoists
-----------------------------------------------------------------------------------------

/-- What takes the place of an outlined expression: the reference to the last of its hoists, or
the expression itself if it needs none.
-/
def Expr.refTo (hoists : List Hoist) (expr : Expr) : Expr :=
  (hoists.getLast?.map Hoist.ref).getD expr

/-- The arguments with references in the place of what is outlined. The hoists are those of the
arguments in outlinable slots, from the last argument to the first.
-/
def Expr.argsWithRefs (dialect : Dialect)
    : List Slot → List Expr → List Hoist → List Expr
  | .literalOnly :: slots, arg :: args, hoists =>
      arg :: Expr.argsWithRefs dialect slots args hoists
  | .outlinable :: slots, arg :: args, hoists =>
      let later := (Expr.outlinedInArgs dialect slots args).length
      arg.refTo (hoists.drop later) :: Expr.argsWithRefs dialect slots args (hoists.take later)
  | _, args, _ => args

/-- The expression with references in the place of the arguments that are outlined. The hoists
are those of the values outlined inside it.
-/
def Expr.withRefs (dialect : Dialect) (hoists : List Hoist) : Expr → Expr
  | .call span callee args =>
      match dialect.slots ⟨span, callee, args⟩ with
      | .ok slots => .call span callee (Expr.argsWithRefs dialect slots args hoists)
      | .error _ => .call span callee args
  | atom => atom

/-- The hoist holds the value, at its place, with references to the last hoists `before` it in
the place of the values that are outlined inside it. These are the last of the `earlier` values.
-/
structure Hoist.Holds (dialect : Dialect) (earlier : List Expr) (before : List Hoist)
    (value : Expr) (hoist : Hoist)
    : Prop where
  span_eq : hoist.span = value.span
  inside : value.outlinedInside dialect <:+ earlier
  value_eq
    : hoist.value
      = value.withRefs dialect (before.rtake (value.outlinedInside dialect).length)

/-- Each hoist holds the value of the same number. -/
inductive Hoist.HoldAll (dialect : Dialect) : List Expr → List Hoist → Prop
  | nil : Hoist.HoldAll dialect [] []
  | concat {values hoists value hoist} (front : Hoist.HoldAll dialect values hoists)
    (last : hoist.Holds dialect values hoists value)
    : Hoist.HoldAll dialect (values ++ [value]) (hoists ++ [hoist])

theorem Expr.span_withRefs (expr : Expr) (hoists : List Hoist)
    : (expr.withRefs dialect hoists).span = expr.span := by
  cases expr with
  | ident | literal => rfl
  | call span callee args =>
      rw [withRefs]
      split <;> rfl

namespace Hoist

variable {values values' : List Expr} {hoists hoists' : List Hoist} {value : Expr}
  {hoist : Hoist}

theorem HoldAll.length_eq (hold : HoldAll dialect values hoists)
    : hoists.length = values.length := by
  induction hold with
  | nil => rfl
  | concat front last ih =>
      rw [List.length_append, List.length_append, ih]
      rfl

/-- What a hoist refers to does not change if more hoists are put in front of all. -/
theorem Holds.behind (holds : hoist.Holds dialect values' hoists' value)
    (sameLength : hoists'.length = values'.length)
    : hoist.Holds dialect (values ++ values') (hoists ++ hoists') value := by
  have enough := holds.inside.length_le
  refine ⟨holds.span_eq, holds.inside.trans (List.suffix_append _ _), ?_⟩
  rw [holds.value_eq, List.rtake, List.rtake, List.length_append,
    Nat.add_sub_assoc (sameLength ▸ enough), List.drop_length_add_append]

theorem HoldAll.append (first : HoldAll dialect values hoists)
    (second : HoldAll dialect values' hoists')
    : HoldAll dialect (values ++ values') (hoists ++ hoists') := by
  induction second with
  | nil => simpa using first
  | concat front last ih =>
      rw [← List.append_assoc, ← List.append_assoc]
      exact .concat ih (last.behind front.length_eq)

/-- The n-th hoist holds the n-th value, behind the values and hoists with smaller numbers. -/
theorem HoldAll.exists_holds (hold : HoldAll dialect values hoists) {number : Nat}
    (stands : values[number]? = some value)
    : ∃ hoist,
        hoists[number]? = some hoist
        ∧ hoist.Holds dialect (values.take number) (hoists.take number) value := by
  induction hold with
  | nil => cases stands
  | @concat values hoists last hoist front holds ih =>
      have sameLength := front.length_eq
      rcases Nat.lt_or_ge number values.length with inFront | atEnd
      · rw [List.getElem?_append_left inFront] at stands
        obtain ⟨found, place, holdsFound⟩ := ih stands
        refine ⟨found, ?_, ?_⟩
        · rwa [List.getElem?_append_left (sameLength ▸ inFront)]
        · rwa [List.take_append_of_le_length (Nat.le_of_lt inFront),
            List.take_append_of_le_length (sameLength ▸ Nat.le_of_lt inFront)]
      · rw [List.getElem?_append_right atEnd, List.getElem?_singleton] at stands
        split at stands
        · next isLast =>
            cases stands
            obtain rfl : number = values.length := by omega
            refine ⟨hoist, ?_, ?_⟩
            · simp [← sameLength]
            · rwa [List.take_left, ← sameLength, List.take_left]
        · cases stands

end Hoist

-----------------------------------------------------------------------------------------
-- Outlining leaves hoists of the outlined values
-----------------------------------------------------------------------------------------

/-- The hoists hold the values, and have the names that the supply hands out, in order. -/
structure Hoist.Record (dialect : Dialect) (start : NameSupply) (values : List Expr)
    (hoists : List Hoist) (finish : NameSupply)
    : Prop where
  hold : Hoist.HoldAll dialect values hoists
  handed : start.Hands dialect (hoists.map Hoist.name) finish

theorem Hoist.Record.nil {start : NameSupply} : Hoist.Record dialect start [] [] start :=
  ⟨.nil, .nil⟩

theorem Hoist.Record.append_nil {start finish : NameSupply} {values : List Expr}
    {hoists : List Hoist} (record : Record dialect start values hoists finish)
    : Record dialect start values (hoists ++ []) finish := by
  rwa [List.append_nil]

theorem Hoist.Record.append {values values' : List Expr} {hoists hoists' : List Hoist}
    {start middle finish : NameSupply} (first : Record dialect start values hoists middle)
    (second : Record dialect middle values' hoists' finish)
    : Record dialect start (values ++ values') (hoists ++ hoists') finish := by
  refine ⟨first.hold.append second.hold, ?_⟩
  rw [List.map_append]
  exact first.handed.append second.handed

mutual
/-- Flattening outlines the values inside an expression, by induction over the derivation. -/
theorem Expr.Flattens.outlined {start expr hoists flat finish}
    : Expr.Flattens dialect start expr hoists flat finish
      → Hoist.Record dialect start (expr.outlinedInside dialect) hoists finish
        ∧ flat = expr.withRefs dialect hoists
  | .ident | .literal => ⟨.nil, rfl⟩
  | .call classified outlined => by
      obtain ⟨record, rfl⟩ := outlined.outlined
      rw [Expr.outlinedInside_call classified, Expr.withRefs, classified]
      exact ⟨record, rfl⟩
theorem Expr.ArgsOutline.outlined {start slots args hoists flat finish}
    : Expr.ArgsOutline dialect start slots args hoists flat finish
      → Hoist.Record dialect start (Expr.outlinedInArgs dialect slots args) hoists finish
        ∧ flat = Expr.argsWithRefs dialect slots args hoists
  | .nil => ⟨.nil, rfl⟩
  | .literalOnly rest => by
      obtain ⟨record, rfl⟩ := rest.outlined
      exact ⟨record, rfl⟩
  | .outlinable rest first => by
      obtain ⟨inRest, rfl⟩ := rest.outlined
      obtain ⟨inFirst, rfl⟩ := first.outlined
      rw [Expr.outlinedInArgs_outlinable]
      refine ⟨inRest.append inFirst, ?_⟩
      rw [Expr.argsWithRefs, ← inRest.hold.length_eq, List.drop_left, List.take_left]
theorem Expr.Outlines.outlined {start expr hoists ref finish}
    : Expr.Outlines dialect start expr hoists ref finish
      → Hoist.Record dialect start (expr.outlinedWhole dialect) hoists finish
        ∧ ref = expr.refTo hoists
  | .ident => ⟨.nil, rfl⟩
  | .bind complex flattened handed => by
      obtain ⟨inside, rfl⟩ := flattened.outlined
      have whole := inside.hold.length_eq
      rw [Expr.outlinedWhole_of_complex complex]
      refine ⟨⟨.concat inside.hold ⟨rfl, List.suffix_refl _, ?_⟩, ?_⟩, ?_⟩
      · rw [← whole, List.rtake, Nat.sub_self, List.drop_zero]
      · rw [List.map_append]
        exact inside.handed.append (NameSupply.hands_singleton handed)
      · simp [Expr.refTo, Hoist.ref]
end

end StackIR
