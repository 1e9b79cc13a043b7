import StackIR.Proofs.Flat
import StackIR.Proofs.Violations

/-! What the check of split form tells of a split.

A block in split form has identifiers wherever a split outlines. So a split that succeeds changes
something, or leaves a call in place of a literal, exactly if the check objects to the block:
`Work.accepted_iff_split_self`. Whether it succeeds depends on the top-level calls alone.
-/

namespace StackIR

mutual
/-- The calls that expression statements, assignments and declarations evaluate by themselves, and
not as an argument of another call.
-/
def Stmt.topCalls : Stmt → List Call
  | .expr _ value | .assign _ _ value => value.asCall?.toList
  | .declare _ _ value => (value.bind Expr.asCall?).toList
  | .define _ _ _ _ body | .branch _ _ body | .block body => body.topCalls
  | .switch _ _ cases => Stmt.topCallsInCases cases
  | .loop _ pre _ post body => pre.topCalls ++ post.topCalls ++ body.topCalls
  | .breakLoop _ | .continueLoop _ | .leave _ => []
/-- The top-level calls of a block, at any depth of blocks. -/
def Block.topCalls : Block → List Call
  | ⟨_, stmts⟩ => Stmt.topCallsInList stmts
def Stmt.topCallsInList : List Stmt → List Call
  | [] => []
  | stmt :: rest => stmt.topCalls ++ Stmt.topCallsInList rest
def Stmt.topCallsInCases : List Case → List Call
  | [] => []
  | ⟨_, _, body⟩ :: rest => body.topCalls ++ Stmt.topCallsInCases rest
end

/-- The dialect finds nothing wrong with the call and assigns slots to its arguments. -/
def Call.IsWellFormed (dialect : Dialect) (call : Call) : Prop :=
  ∃ slots, dialect.slots call = .ok slots

variable {dialect : Dialect}

-----------------------------------------------------------------------------------------
-- What the check accepts is flat
-----------------------------------------------------------------------------------------

/-- Arguments to which nothing is objected are identifiers wherever the callee requires no literal,
by induction on the arguments.
-/
theorem Expr.argsFlat_of_violations_eq_nil {callee : Callee} {args : List Expr}
    {position : Nat} (clean : Expr.argumentsViolations dialect callee position args = [])
    : Expr.argsFlat ((List.range' position args.length).map (dialect.slotAt callee)) args
      = true := by
  induction args generalizing position with
  | nil => rfl
  | cons arg args ih =>
      rw [argumentsViolations, List.append_eq_nil_iff] at clean
      obtain ⟨here, there⟩ := clean
      have below := ih there
      rw [List.length_cons, List.range'_succ, List.map_cons]
      cases required : dialect.requiresLiteral callee position with
      | true =>
          have slot : dialect.slotAt callee position = .literalOnly := by
            simp [Dialect.slotAt, required]
          rw [slot, argsFlat]
          exact below
      | false =>
          have slot : dialect.slotAt callee position = .outlinable := by
            simp [Dialect.slotAt, required]
          rw [slot, argsFlat, below, Bool.and_true]
          cases arg with
          | ident => rfl
          | literal | call => simp [argumentViolations, required] at here

/-- A top-level expression to which nothing is objected is flat, if it is no malformed call. -/
theorem Expr.isFlat_of_violations_eq_nil {expr : Expr} (clean : expr.violations dialect = [])
    (sound : ∀ call ∈ expr.asCall?.toList, call.IsWellFormed dialect)
    : expr.isFlat dialect = true := by
  cases expr with
  | ident | literal => rfl
  | call span callee args =>
      obtain ⟨slots, classified⟩ := List.forall_mem_singleton.mp sound
      simp only [isFlat, classified]
      rw [Dialect.slots_eq classified]
      exact argsFlat_of_violations_eq_nil clean

/-- A condition to which nothing is objected is an identifier. -/
theorem Expr.isIdent_of_conditionViolations_eq_nil {condition : Expr}
    (clean : condition.conditionViolations = [])
    : condition.isIdent = true := by
  cases condition with
  | ident => rfl
  | literal | call => cases clean

mutual
/-- What the check accepts is flat if its top-level calls are well-formed, by induction on the
statement.
-/
theorem Stmt.isFlat_of_violations_eq_nil
    : ∀ {stmt : Stmt}, stmt.violations dialect = []
      → (∀ call ∈ stmt.topCalls, call.IsWellFormed dialect) → stmt.isFlat dialect = true
  | .expr _ value, clean, sound | .assign _ _ value, clean, sound
  | .declare _ _ (some value), clean, sound =>
      Expr.isFlat_of_violations_eq_nil clean sound
  | .declare _ _ none, _, _ | .breakLoop _, _, _ | .continueLoop _, _, _ | .leave _, _, _ => rfl
  | .define _ _ _ _ body, clean, sound | .block body, clean, sound =>
      Block.isFlat_of_violations_eq_nil clean sound
  | .branch _ condition body, clean, sound => by
      rw [Stmt.violations, List.append_eq_nil_iff] at clean
      rw [Stmt.isFlat, Expr.isIdent_of_conditionViolations_eq_nil clean.1,
        Block.isFlat_of_violations_eq_nil clean.2 sound]
      rfl
  | .switch _ subject cases, clean, sound => by
      rw [Stmt.violations, List.append_eq_nil_iff] at clean
      rw [Stmt.isFlat, Expr.isIdent_of_conditionViolations_eq_nil clean.1,
        Stmt.casesFlat_of_violations_eq_nil clean.2 sound]
      rfl
  | .loop _ pre _ post body, clean, sound => by
      simp only [Stmt.violations, List.append_eq_nil_iff] at clean
      simp only [Stmt.topCalls, List.forall_mem_append] at sound
      rw [Stmt.isFlat, Block.isFlat_of_violations_eq_nil clean.1.1 sound.1.1,
        Block.isFlat_of_violations_eq_nil clean.1.2 sound.1.2,
        Block.isFlat_of_violations_eq_nil clean.2 sound.2]
      rfl
termination_by structural x => x
theorem Block.isFlat_of_violations_eq_nil
    : ∀ {block : Block}, block.violations dialect = []
      → (∀ call ∈ block.topCalls, call.IsWellFormed dialect) → block.isFlat dialect = true
  | ⟨_, _⟩, clean, sound => Stmt.listFlat_of_violations_eq_nil clean sound
termination_by structural x => x
theorem Stmt.listFlat_of_violations_eq_nil
    : ∀ {stmts : List Stmt}, Stmt.listViolations dialect stmts = []
      → (∀ call ∈ Stmt.topCallsInList stmts, call.IsWellFormed dialect)
      → Stmt.listFlat dialect stmts = true
  | [], _, _ => rfl
  | stmt :: rest, clean, sound => by
      simp only [Stmt.listViolations, List.append_eq_nil_iff] at clean
      simp only [Stmt.topCallsInList, List.forall_mem_append] at sound
      rw [Stmt.listFlat, Stmt.isFlat_of_violations_eq_nil clean.1 sound.1,
        Stmt.listFlat_of_violations_eq_nil clean.2 sound.2]
      rfl
termination_by structural x => x
theorem Stmt.casesFlat_of_violations_eq_nil
    : ∀ {cases : List Case}, Stmt.caseViolations dialect cases = []
      → (∀ call ∈ Stmt.topCallsInCases cases, call.IsWellFormed dialect)
      → Stmt.casesFlat dialect cases = true
  | [], _, _ => rfl
  | ⟨_, _, body⟩ :: rest, clean, sound => by
      simp only [Stmt.caseViolations, List.append_eq_nil_iff] at clean
      simp only [Stmt.topCallsInCases, List.forall_mem_append] at sound
      rw [Stmt.casesFlat, Block.isFlat_of_violations_eq_nil clean.1 sound.1,
        Stmt.casesFlat_of_violations_eq_nil clean.2 sound.2]
      rfl
termination_by structural x => x
end

-----------------------------------------------------------------------------------------
-- A split that succeeds has found the top-level calls well-formed
-----------------------------------------------------------------------------------------

theorem Expr.Flattens.isWellFormed {start expr hoists flat finish}
    (derived : Expr.Flattens dialect start expr hoists flat finish)
    : ∀ call ∈ expr.asCall?.toList, call.IsWellFormed dialect := by
  cases derived with
  | ident | literal => nofun
  | call classified => exact List.forall_mem_singleton.mpr ⟨_, classified⟩

mutual
/-- The top-level calls behind a derivation are well-formed, by induction over the derivation. -/
theorem Stmt.Splits.topCalls_wellFormed {start stmt hoists stmt' finish}
    : Stmt.Splits dialect start stmt hoists stmt' finish
      → ∀ call ∈ stmt.topCalls, call.IsWellFormed dialect
  | .expr flattened | .assign flattened | .declare flattened => flattened.isWellFormed
  | .declareUnset | .breakLoop | .continueLoop | .leave => nofun
  | .define inner | .block inner => inner.topCalls_wellFormed
  | .branch _ inner => inner.topCalls_wellFormed
  | .switch _ inner => inner.topCalls_wellFormed
  | .loop first second third =>
      List.forall_mem_append.mpr
        ⟨List.forall_mem_append.mpr ⟨first.topCalls_wellFormed, second.topCalls_wellFormed⟩,
          third.topCalls_wellFormed⟩
theorem Block.Splits.topCalls_wellFormed {start block block' finish}
    : Block.Splits dialect start block block' finish
      → ∀ call ∈ block.topCalls, call.IsWellFormed dialect
  | .mk inner => inner.topCalls_wellFormed
theorem Stmt.ListSplits.topCalls_wellFormed {start stmts stmts' finish}
    : Stmt.ListSplits dialect start stmts stmts' finish
      → ∀ call ∈ Stmt.topCallsInList stmts, call.IsWellFormed dialect
  | .nil => nofun
  | .cons first rest =>
      List.forall_mem_append.mpr ⟨first.topCalls_wellFormed, rest.topCalls_wellFormed⟩
theorem Stmt.CasesSplit.topCalls_wellFormed {start cases cases' finish}
    : Stmt.CasesSplit dialect start cases cases' finish
      → ∀ call ∈ Stmt.topCallsInCases cases, call.IsWellFormed dialect
  | .nil => nofun
  | .cons first rest =>
      List.forall_mem_append.mpr ⟨first.topCalls_wellFormed, rest.topCalls_wellFormed⟩
end

-----------------------------------------------------------------------------------------
-- Splits that change nothing
-----------------------------------------------------------------------------------------

namespace Work

variable {program : Program}

/-- A split leaves a program in split form as it is if the top-level calls are well-formed. -/
theorem split_self_of_accepted (clean : program.block.violations dialect = [])
    (sound : ∀ call ∈ program.block.topCalls, call.IsWellFormed dialect)
    : Work.split dialect program = .ok () program :=
  Work.split_eq_ok_iff.mpr
    ((Block.isFlat_iff program.names).mp (Block.isFlat_of_violations_eq_nil clean sound))

/-- Of a split that succeeds, the check of split form accepts the block exactly if the split leaves
block and names as they are and no reached builtin call has a call in place of a literal. A split
of an accepted program succeeds, and changes nothing, as soon as the top-level calls are
well-formed.
-/
theorem accepted_iff_split_self (dialect : Dialect) (program : Program)
    : (∀ after, Work.split dialect program = .ok () after
        → (program.block.violations dialect = []
          ↔ after = program ∧ program.block.LiteralSlotsHold dialect))
      ∧ (program.block.violations dialect = []
        → (∀ call ∈ program.block.topCalls, call.IsWellFormed dialect)
        → Work.split dialect program = .ok () program) := by
  refine ⟨?_, split_self_of_accepted⟩
  intro after split
  have derived := Block.split_eq_ok_iff.mp (Work.split_eq_ok_iff.mp split)
  constructor
  · intro clean
    have self := split_self_of_accepted clean derived.topCalls_wellFormed
    cases split.symm.trans self
    exact ⟨rfl, Block.literalSlotsHold_of_violations_eq_nil clean⟩
  · intro holds
    rcases holds with ⟨rfl, hold⟩
    exact Block.isSplitForm_iff.mp (derived.isSplitForm_iff.mpr hold)

/-- The program `let s := datasize("A")`, `for { } f(g()) { } { if c { setimmutable(x, "n", y) } }`.
-/
def acceptedLoop : Program :=
  .ofBlock (.ofStmts [
    .declareName "s" (.call .null (.builtin .null ⟨37⟩) [.literal (.string "A")]),
    .loop .null .empty (.call .null (.ofName "f") [.call .null (.ofName "g") []]) .empty
      (.ofStmts [.branch .null (.ofName "c") (.ofStmts [
        .expr .null (.call .null (.builtin .null ⟨40⟩)
          [.ofName "x", .literal (.string "n"), .ofName "y"])
      ])])
  ])

/-- The nested call in the loop condition is not objected to, and it stays. -/
theorem accepted_iff_split_self_loop
    : Work.split .stack acceptedLoop = .ok () acceptedLoop
      ∧ acceptedLoop.block.LiteralSlotsHold .stack := by
  obtain ⟨ofSplit, self⟩ := accepted_iff_split_self .stack acceptedLoop
  have clean : acceptedLoop.block.violations .stack = [] := by decide
  have split := self clean
    (List.forall_mem_cons.mpr ⟨⟨_, rfl⟩, List.forall_mem_singleton.mpr ⟨_, rfl⟩⟩)
  exact ⟨split, ((ofSplit _ split).mp clean).2⟩

end Work
end StackIR
