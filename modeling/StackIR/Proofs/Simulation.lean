import StackIR.Proofs.Evaluation

/-! Simulation of a run by a run with more variables.

A split program has the variables of the program and those of its hoists. A run of the one
simulates a run of the other if it does the same, seen from the names that the supply knew
before the split. Each way to build runs has a rule that simulates it part by part.
-/

namespace StackIR

variable {Value World : Type}

namespace Env

/-- The variables whose names the supply knows. -/
def restrict (supply : NameSupply) (env : Env Value) : Env Value :=
  env.filter fun entry => supply.isUsed entry.1

variable {supply : NameSupply}

theorem restrict_eq_self {env : Env Value} (known : supply.Knows env.names)
    : env.restrict supply = env := by
  rw [restrict, List.filter_eq_self]
  exact fun entry member => NameSupply.isUsed_iff.mpr (known _ (List.mem_map_of_mem member))

theorem restrict_append (front back : Env Value)
    : restrict supply (front ++ back) = restrict supply front ++ restrict supply back :=
  List.filter_append front back

theorem restrict_cons_of_used {name : Name} (used : name ∈ supply.used) (value : Value)
    (env : Env Value)
    : restrict supply ((name, value) :: env) = (name, value) :: restrict supply env :=
  List.filter_cons_of_pos (NameSupply.isUsed_iff.mpr used)

theorem restrict_cons_of_not_used {name : Name} (unused : name ∉ supply.used) (value : Value)
    (env : Env Value)
    : restrict supply ((name, value) :: env) = restrict supply env :=
  List.filter_cons_of_neg fun used => unused (NameSupply.isUsed_iff.mp used)

theorem read?_restrict {name : Name} (used : name ∈ supply.used) (env : Env Value)
    : (env.restrict supply).read? name = env.read? name := by
  induction env with
  | nil => rfl
  | cons entry env ih =>
      rcases entry with ⟨bound, value⟩
      by_cases known : bound ∈ supply.used
      · rw [restrict_cons_of_used known, read?_cons, read?_cons, ih]
      · have other : name ≠ bound := fun same => known (same ▸ used)
        rw [restrict_cons_of_not_used known, read?_cons, if_neg other, ih]

theorem names_restrict (env : Env Value)
    : (env.restrict supply).names = env.names.filter supply.isUsed := by
  rw [restrict, names, names, List.filter_map]
  rfl

theorem assign?_restrict {name : Name} (used : name ∈ supply.used) (value : Value)
    (env : Env Value)
    : (env.restrict supply).assign? name value
      = (env.assign? name value).map (restrict supply) := by
  induction env with
  | nil => rfl
  | cons entry env ih =>
      rcases entry with ⟨bound, old⟩
      by_cases known : bound ∈ supply.used
      · rw [restrict_cons_of_used known, assign?, assign?, ih]
        split
        · rw [Option.map_some, restrict_cons_of_used known]
        · rw [Option.map_map, Option.map_map]
          exact congrArg (Option.map · _) (funext fun _ => (restrict_cons_of_used known ..).symm)
      · have other : bound ≠ name := fun same => known (same ▸ used)
        rw [restrict_cons_of_not_used known, assign?, if_neg other, ih, Option.map_map]
        exact congrArg (Option.map · _)
          (funext fun _ => (restrict_cons_of_not_used known ..).symm)

theorem names_of_assign? {env env' : Env Value} {name : Name} {value : Value}
    (assigned : env.assign? name value = some env')
    : env'.names = env.names := by
  induction env generalizing env' with
  | nil => contradiction
  | cons entry env ih =>
      rcases entry with ⟨bound, old⟩
      rw [assign?] at assigned
      split at assigned
      · cases assigned
        rfl
      · obtain ⟨rest, found, rfl⟩ := Option.map_eq_some_iff.mp assigned
        rw [names_cons, names_cons, ih found]

theorem declare?_restrict {mayHide : Bool} {name : Name} (used : name ∈ supply.used)
    (value : Value) (env : Env Value)
    : (env.restrict supply).declare? mayHide name value
      = (env.declare? mayHide name value).map (restrict supply) := by
  have sameBound : (env.restrict supply).names.contains name = env.names.contains name := by
    rw [names_restrict, Bool.eq_iff_iff, List.contains_iff_mem, List.contains_iff_mem,
      List.mem_filter, and_iff_left (NameSupply.isUsed_iff.mpr used)]
  rw [declare?, declare?, sameBound]
  split
  · rfl
  · rw [Option.map_some, restrict_cons_of_used used]

/-- Updates of known names do the same to the known variables. -/
theorem updateAll?_restrict {update? : Env Value → Name → Value → Option (Env Value)}
    {names : List Name}
    (commutes : ∀ name ∈ names, ∀ value env,
      update? (restrict supply env) name value = (update? env name value).map (restrict supply))
    (values : List Value) (env : Env Value)
    : updateAll? update? (restrict supply env) names values
      = (updateAll? update? env names values).map (restrict supply) := by
  induction names generalizing values env with
  | nil => cases values <;> rfl
  | cons name names ih =>
      obtain ⟨here, there⟩ := List.forall_mem_cons.mp commutes
      cases values with
      | nil => rfl
      | cons value values =>
          rw [updateAll?, updateAll?, here, Option.bind_map, Option.map_bind]
          exact Option.bind_congr fun env _ => ih there values env

/-- Updates keep what each of them keeps. -/
theorem updateAll?_keeps {update? : Env Value → Name → Value → Option (Env Value)}
    (Kept : Env Value → Prop) {names : List Name}
    (step : ∀ name ∈ names, ∀ value env env',
      update? env name value = some env' → Kept env → Kept env')
    {values : List Value} {env env' : Env Value}
    (updated : updateAll? update? env names values = some env') (kept : Kept env)
    : Kept env' := by
  induction names generalizing values env with
  | nil =>
      cases values with
      | nil =>
          cases updated
          exact kept
      | cons => contradiction
  | cons name names ih =>
      obtain ⟨here, there⟩ := List.forall_mem_cons.mp step
      cases values with
      | nil => contradiction
      | cons value values =>
          obtain ⟨middle, first, rest⟩ := Option.bind_eq_some_iff.mp updated
          exact ih there rest (here value env middle first kept)

/-- At the end of a scope the outer variables are left. -/
theorem leave_append {front back outer : Env Value} (same : back.names = outer.names)
    : leave (front ++ back) outer = back := by
  have sameLength : back.length = outer.length := by
    simpa [names] using congrArg List.length same
  rw [leave, List.length_append, sameLength, Nat.add_sub_cancel, List.drop_left]

/-- The end of a scope does the same to the known variables. -/
theorem leave_restrict {inner outer : Env Value} (within : outer.names <:+ inner.names)
    : (inner.leave outer).names = outer.names
      ∧ (inner.restrict supply).leave (outer.restrict supply)
        = (inner.leave outer).restrict supply := by
  rcases within with ⟨added, split⟩
  obtain ⟨front, back, rfl, -, same⟩ := List.map_eq_append_iff.mp split.symm
  rw [leave_append same, restrict_append, leave_append]
  · exact ⟨same, rfl⟩
  · rw [names_restrict, names_restrict, names, same]

end Env

/-- An expression of known names has the same values among the known variables. -/
theorem Expr.eval_restrict {machine : Machine Value World} {supply : NameSupply} {expr : Expr}
    (known : supply.Knows expr.names) (env : Env Value)
    : expr.eval machine (env.restrict supply) = expr.eval machine env :=
  Expr.eval_congr fun name member => Env.read?_restrict (known name member) env

theorem Expr.evalOne_restrict {machine : Machine Value World} {supply : NameSupply} {expr : Expr}
    (known : supply.Knows expr.names) (env : Env Value)
    : expr.evalOne machine (env.restrict supply) = expr.evalOne machine env :=
  Expr.evalOne_congr fun name member => Env.read?_restrict (known name member) env

-----------------------------------------------------------------------------------------
-- Simulation
-----------------------------------------------------------------------------------------

/-- The state without the variables whose names the supply does not know. -/
def State.restrict (supply : NameSupply) (state : State Value World) : State Value World :=
  { state with env := state.env.restrict supply }

/-- Two runs stop alike, or end with one result in states that are the same to the supply. The
names in scope at the end satisfy a condition.
-/
inductive SameEnd {Result : Type} (supply : NameSupply) (post : List Name → Prop)
    : Except Halt (Result × State Value World) → Except Halt (Result × State Value World)
      → Prop
  | stops (halt : Halt) : SameEnd supply post (.error halt) (.error halt)
  | ends (result : Result) (state : State Value World) (scope : post state.names)
    : SameEnd supply post (.ok (result, state.restrict supply)) (.ok (result, state))

/-- From any state with the given names in scope, the second run ends as the first run does
without the variables that the supply does not know.
-/
def Simulates {Result : Type} (supply : NameSupply) (names : List Name)
    (post : List Name → Prop) (run run' : Run Value World Result)
    : Prop :=
  ∀ state : State Value World, state.names = names
    → SameEnd supply post (run (state.restrict supply)) (run' state)

variable {Result Result' : Type} {supply : NameSupply} {names : List Name}
variable {post post' : List Name → Prop}

theorem SameEnd.mono {run run' : Except Halt (Result × State Value World)}
    (same : SameEnd supply post run run') (weaker : ∀ names, post names → post' names)
    : SameEnd supply post' run run' := by
  cases same with
  | stops halt => exact .stops halt
  | ends result state scope => exact .ends result state (weaker _ scope)

theorem SameEnd.bind {run run' : Except Halt (Result × State Value World)}
    {next next' : Result × State Value World → Except Halt (Result' × State Value World)}
    (same : SameEnd supply post run run')
    (continues : ∀ result state, post state.names
      → SameEnd supply post' (next (result, state.restrict supply)) (next' (result, state)))
    : SameEnd supply post' (run >>= next) (run' >>= next') := by
  cases same with
  | stops halt => exact .stops halt
  | ends result state scope => exact continues result state scope

namespace Simulates

theorem mono {run run' : Run Value World Result}
    (simulates : Simulates supply names post run run')
    (weaker : ∀ names, post names → post' names)
    : Simulates supply names post' run run' :=
  fun state inScope => (simulates state inScope).mono weaker

theorem pure (result : Result) (scope : post names)
    : Simulates supply names post (Pure.pure result : Run Value World Result)
        (Pure.pure result) := by
  intro state inScope
  subst inScope
  exact .ends result state scope

theorem stop (halt : Halt)
    : Simulates supply names post (throw halt : Run Value World Result) (throw halt) :=
  fun _ _ => .stops halt

theorem bind {first first' : Run Value World Result}
    {second second' : Result → Run Value World Result'}
    (simulates : Simulates supply names post first first')
    (next : ∀ result names, post names
      → Simulates supply names post' (second result) (second' result))
    : Simulates supply names post' (first >>= second) (first' >>= second') :=
  fun state inScope =>
    (simulates state inScope).bind fun result state scope => next result _ scope state rfl

/-- Computations that agree on the known variables simulate each other. -/
theorem compute {result? result?' : Env Value → World → Option (Result × World)}
    (agree : ∀ env, Env.names env = names → result? (env.restrict supply) = result?' env)
    : Simulates supply names (· = names) (Run.compute result?) (Run.compute result?') := by
  intro state inScope
  subst inScope
  rw [Run.compute, Run.compute, State.restrict, agree state.env rfl]
  cases result?' state.env state.world with
  | none => exact .stops .failed
  | some result => exact .ends result.1 { state with world := result.2 } rfl

/-- Changes that do the same to the known variables simulate each other. -/
theorem update {env? env?' : Env Value → Option (Env Value)}
    (agree : ∀ env, Env.names env = names
      → env? (env.restrict supply) = (env?' env).map (Env.restrict supply))
    (scope : ∀ env env', Env.names env = names → env?' env = some env' → post env'.names)
    : Simulates supply names post (Run.update env? : Run Value World Unit)
        (Run.update env?') := by
  intro state inScope
  subst inScope
  rw [Run.update, Run.update, State.restrict, agree state.env rfl]
  cases changed : env?' state.env with
  | none => exact .stops .failed
  | some env => exact .ends () { state with env } (scope _ _ rfl changed)

/-- Behind a scope the variables are those before it. -/
theorem inScope {run run' : Run Value World Mode}
    (simulates : Simulates supply names (names <:+ ·) run run')
    : Simulates supply names (· = names) (Run.inScope run) (Run.inScope run') := by
  intro outer same
  subst same
  apply (simulates outer rfl).bind
  intro mode inner scope
  obtain ⟨sameNames, sameEnv⟩ := Env.leave_restrict scope
  have ended : SameEnd supply (· = outer.names) _ _ :=
    .ends mode { inner with env := inner.env.leave outer.env } sameNames
  rw [State.restrict, ← sameEnv] at ended
  exact ended

theorem inLoop {block block' next next' : Run Value World Mode}
    (simulates : Simulates supply names post block block')
    (weaker : ∀ names, post names → post' names)
    (continues : ∀ names, post names → Simulates supply names post' next next')
    : Simulates supply names post' (Run.inLoop block next) (Run.inLoop block' next') := by
  apply simulates.bind
  intro mode names scope
  cases mode with
  | normal | continued => exact continues names scope
  | broke | left => exact .pure _ (weaker names scope)

theorem evalOne {machine : Machine Value World} {expr : Expr} (known : supply.Knows expr.names)
    : Simulates supply names (· = names) (Run.compute fun env => expr.evalOne machine env)
        (Run.compute fun env => expr.evalOne machine env) :=
  .compute fun env _ => Expr.evalOne_restrict known env

/-- Loops simulate each other whose blocks do. The induction is on the fuel. -/
theorem iterate {machine : Machine Value World} {condition : Expr}
    {body body' post post' : Run Value World Mode} (known : supply.Knows condition.names)
    (inBody : Simulates supply names (· = names) body body')
    (inPost : Simulates supply names (· = names) post post') (fuel : Nat)
    : Simulates supply names (· = names) (Run.iterate machine condition body post fuel)
        (Run.iterate machine condition body' post' fuel) := by
  induction fuel with
  | zero => exact .stop .outOfFuel
  | succ fuel ih =>
      apply (evalOne known).bind
      intro value names same
      subst same
      split
      · apply inBody.inLoop (fun _ => id)
        intro names same
        subst same
        apply inPost.inLoop (fun _ => id)
        intro names same
        subst same
        exact ih
      · exact .pure _ rfl

end Simulates

end StackIR
