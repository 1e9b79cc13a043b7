import StackIR.Proofs.Simulation

/-! Splitting preserves the meaning of programs.

A hoist brings a variable into scope under a name that the program does not use. So a split
program simulates the program, statement by statement, each behind its hoists. At the end of
a block the variables of its hoists are out of scope, and both runs end in the same state.
-/

namespace StackIR

variable {Value World Result : Type} {machine : Machine Value World}
variable {dialect : Dialect} {supply start finish : NameSupply} {names : List Name}

/-- Runs hoists as statements are run. -/
def Hoist.runAll (machine : Machine Value World) (hoists : List Hoist)
    : Run Value World Unit :=
  fun state =>
    match Hoist.runAll? machine hoists state with
    | some state => .ok ((), state)
    | none => .error .failed

theorem Hoist.runAll_nil : Hoist.runAll machine [] = pure () := rfl

/-- A hoist runs as its declaration does. -/
theorem Hoist.exec_toStmt (hoist : Hoist) (fuel : Nat) (state : State Value World)
    : hoist.toStmt.exec machine fuel state
      = match hoist.run? machine state with
        | some state => .ok (.normal, state)
        | none => .error .failed := by
  simp only [toStmt, Declaration.single, Declaration.toStmt, Stmt.exec, Bind.bind, StateT.bind,
    Run.compute, run?, Expr.evalOne]
  cases hoist.value.eval machine state.env state.world with
  | none => rfl
  | some result =>
      rcases result with ⟨values, world⟩
      rcases values with _ | ⟨value, _ | ⟨second, values⟩⟩
      · rfl
      · simp only [Option.bind_some, exactlyOne, Run.update, Except.bind, List.map_cons,
          List.map_nil, Env.updateAll?]
        cases state.env.declare? machine.mayHide hoist.name value with
        | none => rfl
        | some env => rfl
      · simp only [Option.bind_some, Option.bind_none, exactlyOne, Run.update, Except.bind,
          List.map_cons, List.map_nil, Env.updateAll?, Option.bind_fun_none]

/-- Hoists in front of statements are run first. -/
theorem Stmt.execList_hoists (hoists : List Hoist) (rest : List Stmt) (fuel : Nat)
    : Stmt.execList machine fuel (hoists.map Hoist.toStmt ++ rest)
      = (do
          Hoist.runAll machine hoists
          Stmt.execList machine fuel rest) := by
  induction hoists with
  | nil => rfl
  | cons hoist hoists ih =>
      funext state
      rw [List.map_cons, List.cons_append, Stmt.execList, ih]
      simp only [Bind.bind, StateT.bind, Hoist.exec_toStmt, Hoist.runAll, Hoist.runAll?]
      cases hoist.run? machine state with
      | none => rfl
      | some after => rfl

/-- Minted hoists add no variable that the supply before them knows. -/
theorem Hoist.Minted.restrict_eq {hoists : List Hoist} {state after : State Value World}
    (minted : Hoist.Minted start finish hoists) (grows : supply.Grows start)
    (ran : Hoist.runAll? machine hoists state = some after)
    : after.env.restrict supply = state.env.restrict supply := by
  obtain ⟨added, same, fresh⟩ := minted.exists_of_runAll? ran
  have dropped : Env.restrict supply added = [] := by
    rw [Env.restrict, List.filter_eq_nil_iff]
    intro entry member used
    exact (NameSupply.minted_iff.mp (fresh entry member)).2
      (grows _ (NameSupply.isUsed_iff.mp used))
  rw [same, Env.restrict_append, dropped, List.nil_append]

/-- The names in scope extend those that were in scope before, and the supply knows them. -/
def NameSupply.Extends (supply : NameSupply) (before after : List Name) : Prop :=
  before <:+ after ∧ supply.Knows after

/-- A value that is computed behind hoists simulates the value in one go. -/
theorem Simulates.hoisted {hoists : List Hoist}
    {result? result?' : Env Value → World → Option (Result × World)}
    (minted : Hoist.Minted start finish hoists) (grows : start.Grows finish)
    (old : supply.Grows start) (scope : start.Knows names)
    (agree : ∀ state : State Value World, state.names = names
      → result? (state.env.restrict supply) state.world
        = (Hoist.runAll? machine hoists state).bind fun after =>
            result?' after.env after.world)
    : Simulates supply names (finish.Extends names) (Run.compute result?)
        (Hoist.runAll machine hoists >>= fun _ => Run.compute result?') := by
  intro state inScope
  subst inScope
  simp only [Bind.bind, StateT.bind, Hoist.runAll, Run.compute, State.restrict, agree state rfl]
  cases ran : Hoist.runAll? machine hoists state with
  | none => exact .stops .failed
  | some after =>
      simp only [Option.bind_some, Except.bind]
      cases result?' after.env after.world with
      | none => exact .stops .failed
      | some result =>
          obtain ⟨added, same, -⟩ := minted.exists_of_runAll? ran
          have extended : state.names <:+ after.names :=
            ⟨Env.names added, by simp [State.names, Env.names, same]⟩
          rw [← minted.restrict_eq old ran]
          have known := minted.knows grows ran scope
          exact .ends result.1 { after with world := result.2 } ⟨extended, known⟩

namespace NameSupply.Extends

variable {before between after : List Name}

theorem refl (known : supply.Knows names) : supply.Extends names names :=
  ⟨List.suffix_rfl, known⟩

theorem grow (extended : start.Extends before after) (grows : start.Grows finish)
    : finish.Extends before after :=
  ⟨extended.1, extended.2.grow grows⟩

theorem trans (first : start.Extends before between) (second : finish.Extends between after)
    : finish.Extends before after :=
  ⟨first.1.trans second.1, second.2⟩

end NameSupply.Extends

/-- A run that leaves the scope as it was leaves it extended as before. -/
theorem Simulates.extends {before : List Name} {run run' : Run Value World Result}
    (simulates : Simulates supply names (· = names) run run')
    (scope : finish.Extends before names)
    : Simulates supply names (finish.Extends before) run run' := by
  apply simulates.mono
  intro after same
  rw [same]
  exact scope

/-- What follows a value may follow it behind hoists as well. -/
theorem Simulates.behind {hoists : List Hoist} {mid post : List Name → Prop}
    {first first' : Run Value World Result} {next next' : Result → Run Value World Mode}
    (simulates : Simulates supply names mid first
      (Hoist.runAll machine hoists >>= fun _ => first'))
    (continues : ∀ result names, mid names
      → Simulates supply names post (next result) (next' result))
    : Simulates supply names post (first >>= next)
        (Hoist.runAll machine hoists >>= fun _ => first' >>= next') := by
  rw [← bind_assoc]
  exact simulates.bind continues

section
variable {before targets : List Name} {values : List Value}

/-- Updates of known names simulate themselves among the known variables. -/
theorem Simulates.updateAll {update? : Env Value → Name → Value → Option (Env Value)}
    (commutes : ∀ name ∈ targets, ∀ value env,
      update? (Env.restrict supply env) name value
        = (update? env name value).map (Env.restrict supply))
    (keeps : ∀ name ∈ targets, ∀ value env env',
      update? env name value = some env' → finish.Extends before (Env.names env)
        → finish.Extends before (Env.names env'))
    (scope : finish.Extends before names)
    : Simulates supply names (finish.Extends before)
        (Run.update fun env => env.updateAll? update? targets values : Run Value World Unit)
        (Run.update fun env => env.updateAll? update? targets values) := by
  refine .update (fun env _ => Env.updateAll?_restrict commutes values env) ?_
  intro env env' same updated
  subst same
  exact Env.updateAll?_keeps (fun env => finish.Extends before env.names) keeps updated scope

theorem Simulates.assign (known : supply.Knows targets) (scope : finish.Extends before names)
    : Simulates supply names (finish.Extends before)
        (Run.update fun env => env.updateAll? Env.assign? targets values : Run Value World Unit)
        (Run.update fun env => env.updateAll? Env.assign? targets values) := by
  refine .updateAll (fun name member => Env.assign?_restrict (known name member)) ?_ scope
  intro name _ value env env' assigned scope
  rw [Env.names_of_assign? assigned]
  exact scope

theorem Simulates.declare (known : supply.Knows targets) (grows : supply.Grows finish)
    (scope : finish.Extends before names)
    : Simulates supply names (finish.Extends before)
        (Run.update fun env => env.updateAll? (Env.declare? machine.mayHide) targets values
          : Run Value World Unit)
        (Run.update fun env =>
          env.updateAll? (Env.declare? machine.mayHide) targets values) := by
  refine .updateAll (fun name member => Env.declare?_restrict (known name member)) ?_ scope
  intro name member value env env' declared scope
  obtain ⟨-, rfl⟩ := Env.declare?_eq_some_iff.mp declared
  exact ⟨scope.1.trans (List.suffix_cons _ _),
    List.forall_mem_cons.mpr ⟨grows name (known name member), scope.2⟩⟩

end

theorem Expr.Flattens.simulates {expr hoists flat}
    (derived : Expr.Flattens dialect start expr hoists flat finish)
    (held : ∀ call ∈ expr.reachedCalls dialect, call.literalSlotCalls dialect = [])
    (known : supply.Knows expr.names) (old : supply.Grows start) (scope : start.Knows names)
    : Simulates supply names (finish.Extends names)
        (Run.compute fun env => expr.eval machine env : Run Value World (List Value))
        (Hoist.runAll machine hoists >>= fun _ =>
          Run.compute fun env => flat.eval machine env) := by
  apply Simulates.hoisted derived.hoists_minted derived.grows old scope
  intro state inScope
  rw [Expr.eval_restrict known]
  exact derived.eval_eq held (known.grow old) (inScope ▸ scope)

theorem Expr.Outlines.simulates {expr hoists ref}
    (derived : Expr.Outlines dialect start expr hoists ref finish)
    (held : ∀ call ∈ expr.reachedCalls dialect, call.literalSlotCalls dialect = [])
    (known : supply.Knows expr.names) (old : supply.Grows start) (scope : start.Knows names)
    : Simulates supply names (finish.Extends names)
        (Run.compute fun env => expr.evalOne machine env : Run Value World Value)
        (Hoist.runAll machine hoists >>= fun _ =>
          Run.compute fun env => ref.evalOne machine env) := by
  apply Simulates.hoisted derived.hoists_minted derived.grows old scope
  intro state inScope
  rw [Expr.evalOne_restrict known]
  exact derived.evalOne_eq held (known.grow old) (inScope ▸ scope)

-----------------------------------------------------------------------------------------
-- Statements
-----------------------------------------------------------------------------------------

variable {fuel : Nat}

/-- A case runs its own body, or serves the other cases as their default, or neither. -/
theorem Simulates.switchCase {span : Span} {label : Option Literal} {body body' : Block}
    {cases cases' : List Case} {value : Value} {otherwise otherwise' : Run Value World Mode}
    {post : List Name → Prop}
    (inBody : Simulates supply names post (body.exec machine fuel) (body'.exec machine fuel))
    (inOtherwise : Simulates supply names post otherwise otherwise')
    (inRest : ∀ otherwise otherwise', Simulates supply names post otherwise otherwise'
      → Simulates supply names post (Stmt.execCases machine fuel value cases otherwise)
          (Stmt.execCases machine fuel value cases' otherwise'))
    : Simulates supply names post
        (Stmt.execCases machine fuel value (⟨span, label, body⟩ :: cases) otherwise)
        (Stmt.execCases machine fuel value (⟨span, label, body'⟩ :: cases') otherwise') := by
  cases label with
  | none => exact inRest _ _ inBody
  | some label =>
      rw [Stmt.execCases, Stmt.execCases]
      split
      · exact inBody
      · exact inRest _ _ inOtherwise

mutual
/-- A split statement behind its hoists simulates the statement, by induction over the
derivation. The variables of the program are those that `supply` knows, the supply before the
whole split; `start` knows those of earlier hoists besides.
-/
theorem Stmt.Splits.simulates {start stmt hoists stmt' finish} {names : List Name}
    : Stmt.Splits dialect start stmt hoists stmt' finish
      → (∀ call ∈ stmt.reachedCalls dialect, call.literalSlotCalls dialect = [])
      → supply.Knows stmt.names → supply.Grows start → start.Knows names
      → Simulates supply names (finish.Extends names) (stmt.exec machine fuel)
          (Hoist.runAll machine hoists >>= fun _ => stmt'.exec machine fuel)
  | .expr flattened, held, known, old, scope => by
      rw [Stmt.exec, Stmt.exec]
      exact .behind (flattened.simulates held known old scope) fun _ _ scope => .pure _ scope
  | .assign flattened, held, known, old, scope => by
      obtain ⟨knownTargets, known⟩ := NameSupply.knows_append.mp known
      rw [Stmt.exec, Stmt.exec]
      apply Simulates.behind (flattened.simulates held known old scope)
      intro values _ scope
      exact (Simulates.assign knownTargets scope).bind fun _ _ scope => .pure _ scope
  | .declare flattened, held, known, old, scope => by
      obtain ⟨knownBindings, known⟩ := NameSupply.knows_append.mp known
      rw [Stmt.exec, Stmt.exec]
      apply Simulates.behind (flattened.simulates held known old scope)
      intro values _ scope
      exact (Simulates.declare knownBindings (old.trans flattened.grows) scope).bind
        fun _ _ scope => .pure _ scope
  | .declareUnset, _, known, old, scope => by
      obtain ⟨knownBindings, -⟩ := NameSupply.knows_append.mp known
      rw [Hoist.runAll_nil, pure_bind, Stmt.exec]
      exact (Simulates.declare knownBindings old (.refl scope)).bind
        fun _ _ scope => .pure _ scope
  | .define inner, _, _, _, scope => by
      rw [Hoist.runAll_nil, pure_bind, Stmt.exec, Stmt.exec]
      exact .pure _ (.refl (scope.grow inner.grows))
  | .branch outlined inner, held, known, old, scope => by
      obtain ⟨knownHere, knownBelow⟩ := NameSupply.knows_append.mp known
      obtain ⟨heldHere, heldBelow⟩ := List.forall_mem_append.mp held
      rw [Stmt.exec, Stmt.exec]
      apply Simulates.behind (outlined.simulates heldHere knownHere old scope)
      intro value _ scope
      split
      · have below := inner.simulates heldBelow knownBelow (old.trans outlined.grows) scope.2
        exact below.extends (scope.grow inner.grows)
      · exact .pure _ (scope.grow inner.grows)
  | .switch outlined inner, held, known, old, scope => by
      obtain ⟨knownHere, knownBelow⟩ := NameSupply.knows_append.mp known
      obtain ⟨heldHere, heldBelow⟩ := List.forall_mem_append.mp held
      rw [Stmt.exec, Stmt.exec]
      apply Simulates.behind (outlined.simulates heldHere knownHere old scope)
      intro value _ scope
      refine Simulates.extends ?_ (scope.grow inner.grows)
      exact inner.simulates heldBelow knownBelow (old.trans outlined.grows) scope.2 (.pure _ rfl)
  | .loop (.mk first) second third, held, known, old, scope => by
      obtain ⟨known, knownBody⟩ := NameSupply.knows_append.mp known
      obtain ⟨known, knownPost⟩ := NameSupply.knows_append.mp known
      obtain ⟨knownPre, knownCondition⟩ := NameSupply.knows_append.mp known
      obtain ⟨held, heldBody⟩ := List.forall_mem_append.mp held
      obtain ⟨heldPre, heldPost⟩ := List.forall_mem_append.mp held
      have oldPost := old.trans first.grows
      have oldBody := oldPost.trans second.grows
      have grows := (first.grows.trans second.grows).trans third.grows
      rw [Hoist.runAll_nil, pure_bind, Stmt.exec, Stmt.exec]
      refine Simulates.extends (.inScope ?_) (.refl (scope.grow grows))
      have inPre := first.simulates heldPre knownPre old scope
      apply inPre.inLoop (fun _ => And.left)
      intro inner scope
      -- All iterations start with the variables that the first block leaves in scope.
      have inBody := third.simulates heldBody knownBody oldBody (scope.2.grow second.grows)
      have inPost := second.simulates heldPost knownPost oldPost scope.2
      apply (Simulates.iterate knownCondition inBody inPost fuel).mono
      intro after same
      rw [same]
      exact scope.1
  | .breakLoop, _, _, _, scope | .continueLoop, _, _, _, scope | .leave, _, _, _, scope => by
      rw [Hoist.runAll_nil, pure_bind, Stmt.exec]
      exact .pure _ (.refl scope)
  | .block inner, held, known, old, scope => by
      rw [Hoist.runAll_nil, pure_bind, Stmt.exec, Stmt.exec]
      exact (inner.simulates held known old scope).extends (.refl (scope.grow inner.grows))
/-- A split block simulates the block, and its hoists are out of scope at its end. -/
theorem Block.Splits.simulates {start block block' finish} {names : List Name}
    : Block.Splits dialect start block block' finish
      → (∀ call ∈ block.reachedCalls dialect, call.literalSlotCalls dialect = [])
      → supply.Knows block.names → supply.Grows start → start.Knows names
      → Simulates supply names (· = names) (block.exec machine fuel) (block'.exec machine fuel)
  | .mk inner, held, known, old, scope => by
      rw [Block.exec, Block.exec]
      exact .inScope ((inner.simulates held known old scope).mono fun _ => And.left)
theorem Stmt.ListSplits.simulates {start stmts stmts' finish} {names : List Name}
    : Stmt.ListSplits dialect start stmts stmts' finish
      → (∀ call ∈ Stmt.reachedInList dialect stmts, call.literalSlotCalls dialect = [])
      → supply.Knows (Stmt.listNames stmts) → supply.Grows start → start.Knows names
      → Simulates supply names (finish.Extends names) (Stmt.execList machine fuel stmts)
          (Stmt.execList machine fuel stmts')
  | .nil, _, _, _, scope => .pure _ (.refl scope)
  | .cons first rest, held, known, old, scope => by
      obtain ⟨knownHere, knownBelow⟩ := NameSupply.knows_append.mp known
      obtain ⟨heldHere, heldBelow⟩ := List.forall_mem_append.mp held
      rw [Stmt.execList_hoists, Stmt.execList, Stmt.execList, ← bind_assoc]
      apply (first.simulates heldHere knownHere old scope).bind
      intro mode names scope
      cases mode with
      | normal =>
          have below := rest.simulates heldBelow knownBelow (old.trans first.grows) scope.2
          exact below.mono fun _ => scope.trans
      | broke | continued | left => exact .pure _ (scope.grow rest.grows)
theorem Stmt.CasesSplit.simulates {start cases cases' finish} {names : List Name}
    {value : Value} {otherwise otherwise' : Run Value World Mode}
    : Stmt.CasesSplit dialect start cases cases' finish
      → (∀ call ∈ Stmt.reachedInCases dialect cases, call.literalSlotCalls dialect = [])
      → supply.Knows (Stmt.caseNames cases) → supply.Grows start → start.Knows names
      → Simulates supply names (· = names) otherwise otherwise'
      → Simulates supply names (· = names)
          (Stmt.execCases machine fuel value cases otherwise)
          (Stmt.execCases machine fuel value cases' otherwise')
  | .nil, _, _, _, _, simulates => simulates
  | .cons first rest, held, known, old, scope, simulates => by
      obtain ⟨knownHere, knownBelow⟩ := NameSupply.knows_append.mp known
      obtain ⟨heldHere, heldBelow⟩ := List.forall_mem_append.mp held
      refine .switchCase (first.simulates heldHere knownHere old scope) simulates ?_
      intro otherwise otherwise' simulates
      exact rest.simulates heldBelow knownBelow (old.trans first.grows) (scope.grow first.grows)
        simulates
end

-----------------------------------------------------------------------------------------
-- Programs
-----------------------------------------------------------------------------------------

/-- A block simulated by a block that leaves the scope as it was runs like it. -/
theorem Simulates.eq_of_known {run run' : Run Value World Result} {state : State Value World}
    (simulates : Simulates supply state.names (· = state.names) run run')
    (known : supply.Knows state.names)
    : run' state = run state := by
  have same := simulates state rfl
  rw [State.restrict, Env.restrict_eq_self known] at same
  generalize run state = outcome, run' state = outcome' at same
  cases same with
  | stops halt => rfl
  | ends result final scope =>
      rw [State.restrict, Env.restrict_eq_self]
      intro name member
      exact known name (scope ▸ member)

/-- Splitting preserves meaning. On every machine, with any fuel and from every state, the
split block does what the block does: it ends in the same mode with the same world and the
same variables, or stops for the same reason. The supply has to know the names of the block
and of the variables in scope; and no reached builtin call may have a call in place of a
literal, since calls there are evaluated late.
-/
theorem exec_split {block block' : Block}
    (split : block.split dialect start = .ok block' finish)
    (held : block.LiteralSlotsHold dialect) (known : start.Knows block.names)
    (machine : Machine Value World) (fuel : Nat) (state : State Value World)
    (scope : start.Knows state.names)
    : block'.exec machine fuel state = block.exec machine fuel state := by
  have derived := Block.split_eq_ok_iff.mp split
  refine Simulates.eq_of_known ?_ scope
  exact derived.simulates held known (.refl start) scope

/-- A machine whose values are numbers and whose world is a clock. Each call reads the clock
and advances it, so that values depend on the order of calls.
-/
def Machine.clock : Machine Nat Nat where
  constant literal := literal.value.length
  unset := 0
  isTrue value := value % 2 = 1
  selects value label := value = label.value.length
  ask _ values time := some ([values.foldl (10 * · + ·) time], time + 1)
  mayHide := false

/-- The loop `for { let i := f(x, g(1)) } h(i) { i := g(f(i)) }` with the body
`{ if setimmutable(f(), 1, g(x)) { x := g(f(i), h()) break } }`.
-/
def Block.callingLoop : Block :=
  .ofStmts [.loop .null
    (.ofStmts [.declareName "i" (.call .null (.ofName "f")
      [.ofName "x", .call .null (.ofName "g") [.literal (.number "1")]])])
    (.call .null (.ofName "h") [.ofName "i"])
    (.ofStmts [.assign .null [.ofName "i"]
      (.call .null (.ofName "g") [.call .null (.ofName "f") [.ofName "i"]])])
    (.ofStmts [.branch .null
      (.call .null (.builtin .null ⟨40⟩)
        [.call .null (.ofName "f") [], .literal (.number "1"),
          .call .null (.ofName "g") [.ofName "x"]])
      (.ofStmts [
        .assign .null [.ofName "x"] (.call .null (.ofName "g")
          [.call .null (.ofName "f") [.ofName "i"], .call .null (.ofName "h") []]),
        .breakLoop .null])])]

/-- The loop breaks in its second iteration, split or not, when the clock shows 9. -/
theorem exec_split_callingLoop
    : ∃ block' finish,
        Block.callingLoop.split .stack (.ofNames ("x" :: Block.callingLoop.names))
          = .ok block' finish
        ∧ Block.callingLoop.LiteralSlotsHold .stack
        ∧ block' ≠ .callingLoop
        ∧ block'.exec .clock 5 ⟨[("x", 3)], 0⟩ = .ok (.normal, ⟨[("x", 2816)], 9⟩)
        ∧ block'.exec .clock 5 ⟨[("x", 3)], 0⟩
          = Block.callingLoop.exec .clock 5 ⟨[("x", 3)], 0⟩ := by
  have split : Block.callingLoop.split .stack (.ofNames ("x" :: Block.callingLoop.names))
      = .ok _ _ := rfl
  have held : Block.callingLoop.LiteralSlotsHold .stack := by decide
  have known : (NameSupply.ofNames ("x" :: Block.callingLoop.names)).Knows
      Block.callingLoop.names :=
    fun name member => NameSupply.mem_used_ofNames.mpr (List.mem_cons_of_mem _ member)
  have scope : (NameSupply.ofNames ("x" :: Block.callingLoop.names)).Knows ["x"] :=
    fun name member => NameSupply.mem_used_ofNames.mpr (by simp_all)
  have same := exec_split split held known .clock 5 ⟨[("x", 3)], 0⟩ scope
  exact ⟨_, _, split, held, by decide, same.trans rfl, same⟩

end StackIR
