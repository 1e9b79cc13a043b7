import StackIR.Stmt

/-! The meaning of programs.

A machine fixes everything that the language leaves open: the values, the constants, and what
calls do. Calls read and change a world and see no variables. Their arguments are evaluated
from last to first.
-/

namespace StackIR

/-- What a run depends on besides the program, the variables in scope and the world. -/
structure Machine (Value World : Type) where
  constant : Literal → Value
  /-- The value of a variable that is declared without one. -/
  unset : Value
  isTrue : Value → Bool
  /-- Whether a value selects the case with the label. -/
  selects : Value → Literal → Bool
  /-- The values that a call gives and the world that it leaves, unless it fails. -/
  ask : Callee → List Value → World → Option (List Value × World)
  /-- Whether a declaration may hide a variable in scope; if not, it fails. -/
  mayHide : Bool

variable {Value World : Type}

/-- The variables in scope, the innermost one first. -/
abbrev Env (Value : Type) := List (Name × Value)

namespace Env

def names (env : Env Value) : List Name := env.map Prod.fst

theorem names_cons (name : Name) (value : Value) (env : Env Value)
    : names ((name, value) :: env) = name :: names env :=
  rfl

def read? (env : Env Value) (name : Name) : Option Value := env.lookup name

theorem read?_cons (bound name : Name) (value : Value) (env : Env Value)
    : read? ((bound, value) :: env) name
      = if name = bound then some value else read? env name := by
  by_cases same : name = bound
  · subst same
    simp [read?]
  · rw [if_neg same, read?, List.lookup_cons, beq_false_of_ne same]
    rfl

/-- Gives a new value to the innermost variable of the name. -/
def assign? : Env Value → Name → Value → Option (Env Value)
  | [], _, _ => none
  | (bound, old) :: env, name, value =>
      if bound = name then
        some ((bound, value) :: env)
      else
        (assign? env name value).map ((bound, old) :: ·)

/-- Brings a new variable into scope. -/
def declare? (mayHide : Bool) (env : Env Value) (name : Name) (value : Value)
    : Option (Env Value) :=
  if !mayHide && env.names.contains name then none else some ((name, value) :: env)

/-- Updates one name after the other; there must be a value for each of them. -/
def updateAll? (update? : Env Value → Name → Value → Option (Env Value))
    : Env Value → List Name → List Value → Option (Env Value)
  | env, [], [] => some env
  | env, name :: names, value :: values =>
      (update? env name value).bind fun env => updateAll? update? env names values
  | _, _, _ => none

theorem declare?_eq_some_iff {mayHide : Bool} {env env' : Env Value} {name : Name}
    {value : Value}
    : declare? mayHide env name value = some env'
      ↔ (mayHide = true ∨ name ∉ env.names) ∧ env' = (name, value) :: env := by
  rw [declare?]
  cases mayHide <;> by_cases bound : name ∈ env.names <;> simp [bound, eq_comm (b := env')]

/-- What remains of `inner` at the end of a scope that was entered with `outer`. -/
def leave (inner outer : Env Value) : Env Value := inner.drop (inner.length - outer.length)

end Env

structure State (Value World : Type) where
  env : Env Value
  world : World

/-- The names of the variables in scope. -/
def State.names (state : State Value World) : List Name := state.env.names

/-- The value of an expression that must give exactly one. -/
def exactlyOne : List Value × World → Option (Value × World)
  | ([value], world) => some (value, world)
  | _ => none

mutual
/-- The values of an expression, and the world after its evaluation. -/
def Expr.eval (machine : Machine Value World) (env : Env Value)
    : Expr → World → Option (List Value × World)
  | .ident i, world => (env.read? i.name).map fun value => ([value], world)
  | .literal l, world => some ([machine.constant l], world)
  | .call _ callee args, world =>
      (Expr.evalArgs machine env args world).bind fun (values, world) =>
        machine.ask callee values world
/-- The values of arguments, which are evaluated from last to first. -/
def Expr.evalArgs (machine : Machine Value World) (env : Env Value)
    : List Expr → World → Option (List Value × World)
  | [], world => some ([], world)
  | arg :: args, world =>
      (Expr.evalArgs machine env args world).bind fun (values, world) =>
        ((arg.eval machine env world).bind exactlyOne).map fun (value, world) =>
          (value :: values, world)
end

/-- The one value of an expression. -/
def Expr.evalOne (machine : Machine Value World) (env : Env Value) (expr : Expr)
    (world : World)
    : Option (Value × World) :=
  (expr.eval machine env world).bind exactlyOne

/-- Why a run stops without a result. -/
inductive Halt where
  /-- A call fails, a number of values is wrong, or a variable is not in scope. -/
  | failed
  /-- A loop is not done after all of its iterations. -/
  | outOfFuel
deriving DecidableEq, Repr

/-- How a statement ends, and where the run goes on. -/
inductive Mode where
  | normal
  | broke
  | continued
  | left
deriving DecidableEq, Repr

/-- A computation that reads and changes the state, or stops. -/
abbrev Run (Value World : Type) := StateT (State Value World) (Except Halt)

namespace Run

/-- Computes a result, which may change the world but no variables. -/
def compute {Result : Type} (result? : Env Value → World → Option (Result × World))
    : Run Value World Result :=
  fun state =>
    match result? state.env state.world with
    | some (result, world) => .ok (result, { state with world })
    | none => .error .failed

/-- Changes variables and nothing else. -/
def update (env? : Env Value → Option (Env Value)) : Run Value World Unit :=
  fun state =>
    match env? state.env with
    | some env => .ok ((), { state with env })
    | none => .error .failed

/-- Ends the scope of all variables that the run brings into scope. -/
def inScope (run : Run Value World Mode) : Run Value World Mode := do
  let outer ← get
  let mode ← run
  modify fun inner => { inner with env := inner.env.leave outer.env }
  return mode

/-- Runs a block of a loop, and what comes after it unless the block ends the loop. -/
def inLoop (block next : Run Value World Mode) : Run Value World Mode := do
  match ← block with
  | .broke => return .normal
  | .left => return .left
  | .normal | .continued => next

/-- Iterates a loop, at most as often as there is fuel. -/
def iterate (machine : Machine Value World) (condition : Expr)
    (body post : Run Value World Mode)
    : Nat → Run Value World Mode
  | 0 => throw .outOfFuel
  | fuel + 1 => do
      let value ← compute fun env => condition.evalOne machine env
      if machine.isTrue value then
        inLoop body (inLoop post (iterate machine condition body post fuel))
      else
        return .normal

end Run

open Run

mutual
/-- Runs a statement; each loop may iterate `fuel` times. -/
def Stmt.exec (machine : Machine Value World) (fuel : Nat) : Stmt → Run Value World Mode
  | .expr _ value => do
      let _ ← compute fun env => value.eval machine env
      return .normal
  | .assign _ targets value => do
      let values ← compute fun env => value.eval machine env
      update fun env => env.updateAll? Env.assign? (targets.map Ident.name) values
      return .normal
  | .declare _ bindings (some value) => do
      let values ← compute fun env => value.eval machine env
      update fun env =>
        env.updateAll? (Env.declare? machine.mayHide) (bindings.map Binding.name) values
      return .normal
  | .declare _ bindings none => do
      update fun env =>
        env.updateAll? (Env.declare? machine.mayHide) (bindings.map Binding.name)
          (bindings.map fun _ => machine.unset)
      return .normal
  | .define _ _ _ _ _ => return .normal
  | .branch _ condition body => do
      let value ← compute fun env => condition.evalOne machine env
      if machine.isTrue value then body.exec machine fuel else return .normal
  | .switch _ subject cases => do
      let value ← compute fun env => subject.evalOne machine env
      Stmt.execCases machine fuel value cases (return .normal)
  | .loop _ ⟨_, pre⟩ condition post body =>
      inScope (inLoop (Stmt.execList machine fuel pre)
        (iterate machine condition (body.exec machine fuel) (post.exec machine fuel) fuel))
  | .breakLoop _ => return .broke
  | .continueLoop _ => return .continued
  | .leave _ => return .left
  | .block body => body.exec machine fuel
/-- Runs the statements of a block in a scope of their own. -/
def Block.exec (machine : Machine Value World) (fuel : Nat) : Block → Run Value World Mode
  | ⟨_, stmts⟩ => inScope (Stmt.execList machine fuel stmts)
/-- Runs statements in order until one of them does not end normally. -/
def Stmt.execList (machine : Machine Value World) (fuel : Nat)
    : List Stmt → Run Value World Mode
  | [] => return .normal
  | stmt :: stmts => do
      match ← stmt.exec machine fuel with
      | .normal => Stmt.execList machine fuel stmts
      | mode => return mode
/-- Runs the first case whose label the value selects. If there is none, runs the default
case, or `otherwise` without one.
-/
def Stmt.execCases (machine : Machine Value World) (fuel : Nat) (value : Value)
    : List Case → Run Value World Mode → Run Value World Mode
  | [], otherwise => otherwise
  | ⟨_, some label, body⟩ :: cases, otherwise =>
      if machine.selects value label then
        body.exec machine fuel
      else
        Stmt.execCases machine fuel value cases otherwise
  | ⟨_, none, body⟩ :: cases, _ =>
      Stmt.execCases machine fuel value cases (body.exec machine fuel)
end

end StackIR
