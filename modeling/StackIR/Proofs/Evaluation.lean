import StackIR.Proofs.Semantics
import StackIR.Proofs.Uses
import StackIR.Proofs.Violations

/-! Evaluation of outlined expressions.

An expression has the value of the flat expression that a split leaves, evaluated behind its
hoists: `Expr.Flattens.eval_eq`. The arguments that a split leaves are names and literals.
They are read after all hoists, and the hoists change none of them.
-/

namespace StackIR

variable {Value World : Type} {machine : Machine Value World}

mutual
theorem Expr.eval_congr {env env' : Env Value}
    : ∀ {expr : Expr}, (∀ name ∈ expr.names, env.read? name = env'.read? name)
      → expr.eval machine env = expr.eval machine env'
  | .ident i, same => by
      funext world
      rw [Expr.eval, Expr.eval, same i.name (by simp [Expr.names])]
  | .literal _, _ => rfl
  | .call _ _ args, same => by
      funext world
      simp only [Expr.names, List.forall_mem_append] at same
      rw [Expr.eval, Expr.eval, Expr.evalArgs_congr same.2]
theorem Expr.evalArgs_congr {env env' : Env Value}
    : ∀ {args : List Expr}, (∀ name ∈ Expr.argNames args, env.read? name = env'.read? name)
      → Expr.evalArgs machine env args = Expr.evalArgs machine env' args
  | [], _ => rfl
  | arg :: args, same => by
      funext world
      simp only [Expr.argNames, List.forall_mem_append] at same
      rw [Expr.evalArgs, Expr.evalArgs, Expr.eval_congr same.1, Expr.evalArgs_congr same.2]
end

theorem Expr.evalOne_congr {env env' : Env Value} {expr : Expr}
    (same : ∀ name ∈ expr.names, env.read? name = env'.read? name)
    : expr.evalOne machine env = expr.evalOne machine env' := by
  funext world
  rw [Expr.evalOne, Expr.evalOne, Expr.eval_congr same]

theorem Expr.evalArgs_cons (env : Env Value) (arg : Expr) (args : List Expr) (world : World)
    : Expr.evalArgs machine env (arg :: args) world
      = (Expr.evalArgs machine env args world).bind fun (values, world) =>
          (arg.evalOne machine env world).map fun (value, world) => (value :: values, world) :=
  by rw [Expr.evalArgs]; rfl

/-- The value of an expression that calls nothing. -/
def Expr.readAtom? (machine : Machine Value World) (env : Env Value) : Expr → Option Value
  | .ident i => env.read? i.name
  | .literal l => some (machine.constant l)
  | .call _ _ _ => none

/-- The values of arguments that call nothing. -/
def Expr.readAtoms? (machine : Machine Value World) (env : Env Value)
    : List Expr → Option (List Value)
  | [] => some []
  | arg :: args =>
      (Expr.readAtoms? machine env args).bind fun values =>
        (arg.readAtom? machine env).map (· :: values)

theorem Expr.evalOne_atom {env : Env Value} {expr : Expr} (atom : expr.asCall? = none)
    (world : World)
    : expr.evalOne machine env world = (expr.readAtom? machine env).map (·, world) := by
  cases expr with
  | ident i =>
      rw [evalOne, eval, readAtom?, Option.bind_map, Option.map_eq_bind]
      rfl
  | literal l => rfl
  | call => contradiction

theorem Expr.evalArgs_atoms {env : Env Value} {args : List Expr}
    (atoms : ∀ arg ∈ args, arg.asCall? = none) (world : World)
    : Expr.evalArgs machine env args world
      = (Expr.readAtoms? machine env args).map (·, world) := by
  induction args with
  | nil => rfl
  | cons arg args ih =>
      obtain ⟨here, there⟩ := List.forall_mem_cons.mp atoms
      rw [evalArgs_cons, ih there, readAtoms?]
      simp [Option.bind_map, Option.map_bind, Function.comp_def, evalOne_atom here]

theorem Expr.readAtoms?_congr {env env' : Env Value} {args : List Expr}
    (same : ∀ name ∈ Expr.argNames args, env.read? name = env'.read? name)
    : Expr.readAtoms? machine env args = Expr.readAtoms? machine env' args := by
  induction args with
  | nil => rfl
  | cons arg args ih =>
      simp only [argNames, List.forall_mem_append] at same
      rw [readAtoms?, readAtoms?, ih same.2]
      cases arg with
      | ident i => rw [readAtom?, readAtom?, same.1 i.name (by simp [names])]
      | literal | call => rfl

-----------------------------------------------------------------------------------------
-- Hoists
-----------------------------------------------------------------------------------------

namespace Hoist

/-- Evaluates the value of a hoist and declares its name. -/
def run? (machine : Machine Value World) (hoist : Hoist) (state : State Value World)
    : Option (State Value World) :=
  (hoist.value.evalOne machine state.env state.world).bind fun (value, world) =>
    (state.env.declare? machine.mayHide hoist.name value).map fun env => ⟨env, world⟩

theorem run?_eq_some_iff {hoist : Hoist} {state after : State Value World}
    : hoist.run? machine state = some after
      ↔ (machine.mayHide = true ∨ hoist.name ∉ state.names)
        ∧ ∃ value world, hoist.value.evalOne machine state.env state.world = some (value, world)
          ∧ after = ⟨(hoist.name, value) :: state.env, world⟩ := by
  simp only [run?, Option.bind_eq_some_iff, Option.map_eq_some_iff, Env.declare?_eq_some_iff,
    Prod.exists]
  constructor
  · intro holds
    rcases holds with ⟨value, world, computed, _, ⟨mayDeclare, rfl⟩, rfl⟩
    exact ⟨mayDeclare, value, world, computed, rfl⟩
  · intro holds
    rcases holds with ⟨mayDeclare, value, world, computed, rfl⟩
    exact ⟨value, world, computed, _, ⟨mayDeclare, rfl⟩, rfl⟩

/-- Runs hoists one after the other. -/
def runAll? (machine : Machine Value World)
    : List Hoist → State Value World → Option (State Value World)
  | [], state => some state
  | hoist :: hoists, state => (hoist.run? machine state).bind (runAll? machine hoists)

theorem runAll?_append (front back : List Hoist) (state : State Value World)
    : runAll? machine (front ++ back) state
      = (runAll? machine front state).bind (runAll? machine back) := by
  induction front generalizing state with
  | nil => rfl
  | cons hoist front ih =>
      rw [List.cons_append, runAll?, runAll?, Option.bind_assoc]
      exact Option.bind_congr fun middle _ => ih middle

theorem runAll?_singleton (hoist : Hoist) (state : State Value World)
    : runAll? machine [hoist] state = hoist.run? machine state := by
  simp [runAll?]

/-- The reference to a hoist has behind it the value of the hoist. -/
theorem evalOne_ref (hoist : Hoist) {state : State Value World}
    (fresh : hoist.name ∉ state.names)
    : hoist.value.evalOne machine state.env state.world
      = (hoist.run? machine state).bind fun after =>
          hoist.ref.evalOne machine after.env after.world := by
  cases computed : hoist.value.evalOne machine state.env state.world with
  | none => rw [run?, computed, Option.bind_none, Option.bind_none]
  | some result =>
      rcases result with ⟨value, world⟩
      rw [run?_eq_some_iff.mpr ⟨.inr fresh, value, world, computed, rfl⟩, Option.bind_some]
      simp [ref, Expr.evalOne, Expr.eval, Env.read?, exactlyOne]

/-- Hoists bring their own names into scope and change no other variable. -/
theorem exists_of_runAll? {hoists : List Hoist} {state after : State Value World}
    (ran : runAll? machine hoists state = some after)
    : ∃ added : Env Value, after.env = added ++ state.env
      ∧ ∀ entry ∈ added, ∃ hoist ∈ hoists, hoist.name = entry.1 := by
  induction hoists generalizing state with
  | nil =>
      cases ran
      exact ⟨[], rfl, nofun⟩
  | cons hoist hoists ih =>
      obtain ⟨middle, first, rest⟩ := Option.bind_eq_some_iff.mp ran
      obtain ⟨-, value, world, -, rfl⟩ := run?_eq_some_iff.mp first
      obtain ⟨added, sameEnv, named⟩ := ih rest
      refine ⟨added ++ [(hoist.name, value)], by simp [sameEnv], ?_⟩
      rw [List.forall_mem_append, List.forall_mem_singleton]
      refine ⟨fun entry member => ?_, ⟨hoist, List.mem_cons_self, rfl⟩⟩
      obtain ⟨other, among, same⟩ := named entry member
      exact ⟨other, List.mem_cons_of_mem _ among, same⟩

end Hoist

section
variable {before after : NameSupply} {hoists : List Hoist} {state state' : State Value World}

/-- What minted hoists add is under names that were not used before. -/
theorem Hoist.Minted.exists_of_runAll? (minted : Hoist.Minted before after hoists)
    (ran : Hoist.runAll? machine hoists state = some state')
    : ∃ added : Env Value, state'.env = added ++ state.env
      ∧ ∀ entry ∈ added, NameSupply.minted before after entry.1 = true := by
  obtain ⟨added, same, named⟩ := Hoist.exists_of_runAll? ran
  refine ⟨added, same, fun entry member => ?_⟩
  obtain ⟨hoist, among, sameName⟩ := named entry member
  exact sameName ▸ minted hoist among

/-- Minted hoists change no variable whose name was used before. -/
theorem Hoist.Minted.read?_eq (minted : Hoist.Minted before after hoists)
    (ran : Hoist.runAll? machine hoists state = some state') {name : Name}
    (used : name ∈ before.used)
    : state'.env.read? name = state.env.read? name := by
  obtain ⟨added, same, fresh⟩ := minted.exists_of_runAll? ran
  have skipped : added.lookup name = none := by
    rw [List.lookup_eq_none_iff]
    intro entry member
    have unused := (NameSupply.minted_iff.mp (fresh entry member)).2
    simpa using fun sameName : name = entry.1 => unused (sameName ▸ used)
  rw [same, Env.read?, List.lookup_append, skipped, Option.none_or]
  rfl

/-- Behind minted hoists the later supply knows all variables in scope. -/
theorem Hoist.Minted.knows (minted : Hoist.Minted before after hoists)
    (grows : before.Grows after) (ran : Hoist.runAll? machine hoists state = some state')
    (scope : before.Knows state.names)
    : after.Knows state'.names := by
  obtain ⟨added, same, fresh⟩ := minted.exists_of_runAll? ran
  rw [State.names, same, Env.names, List.map_append, NameSupply.knows_append]
  refine ⟨fun name member => ?_, scope.grow grows⟩
  obtain ⟨entry, among, rfl⟩ := List.mem_map.mp member
  exact (NameSupply.minted_iff.mp (fresh entry among)).1

end

-----------------------------------------------------------------------------------------
-- Outlined expressions
-----------------------------------------------------------------------------------------

variable {dialect : Dialect}

/-- The arguments that outlining leaves call nothing if no call stands in place of a literal.
-/
theorem Expr.ArgsOutline.atoms {start span callee args slots hoists flat finish}
    (classified : dialect.slots ⟨span, callee, args⟩ = .ok slots)
    (derived : Expr.ArgsOutline dialect start slots args hoists flat finish)
    (held : Call.literalSlotCalls dialect ⟨span, callee, args⟩ = [])
    : ∀ arg ∈ flat, arg.asCall? = none := by
  have clean : Expr.argumentsViolations dialect callee 0 flat = [] := by
    rw [derived.violations_eq classified, Call.literalSlotViolations, held, List.flatMap_nil]
  exact Expr.argumentsViolations_eq_nil clean

mutual
/-- Behind its hoists a flat expression has the value of the expression, by induction over
the derivation.
-/
theorem Expr.Flattens.eval_eq {start expr hoists flat finish} {state : State Value World}
    : Expr.Flattens dialect start expr hoists flat finish
      → (∀ call ∈ expr.reachedCalls dialect, call.literalSlotCalls dialect = [])
      → start.Knows expr.names → start.Knows state.names
      → expr.eval machine state.env state.world
        = (Hoist.runAll? machine hoists state).bind fun after =>
            flat.eval machine after.env after.world
  | .ident, _, _, _ | .literal, _, _, _ => rfl
  | .call classified outlined, held, known, scope => by
      simp only [Expr.reachedCalls, classified, List.forall_mem_cons] at held
      rw [Expr.eval, outlined.evalArgs_eq (outlined.atoms classified held.1) held.2
        (NameSupply.knows_append.mp known).2 scope, Option.bind_assoc]
      rfl
theorem Expr.ArgsOutline.evalArgs_eq {start slots args hoists flat finish}
    {state : State Value World}
    : Expr.ArgsOutline dialect start slots args hoists flat finish
      → (∀ arg ∈ flat, arg.asCall? = none)
      → (∀ call ∈ Expr.reachedInArgs dialect slots args, call.literalSlotCalls dialect = [])
      → start.Knows (Expr.argNames args) → start.Knows state.names
      → Expr.evalArgs machine state.env args state.world
        = (Hoist.runAll? machine hoists state).bind fun after =>
            Expr.evalArgs machine after.env flat after.world
  | .nil, _, _, _, _ => rfl
  | .literalOnly rest, atoms, held, known, scope => by
      obtain ⟨knownHere, knownThere⟩ := NameSupply.knows_append.mp known
      obtain ⟨-, atoms⟩ := List.forall_mem_cons.mp atoms
      rw [Expr.evalArgs_cons, rest.evalArgs_eq atoms held knownThere scope, Option.bind_assoc]
      apply Option.bind_congr
      intro after ran
      rw [Expr.evalArgs_cons, Expr.evalOne_congr fun name member =>
        rest.hoists_minted.read?_eq ran (knownHere name member)]
  | .outlinable rest first, atoms, held, known, scope => by
      obtain ⟨knownHere, knownThere⟩ := NameSupply.knows_append.mp known
      obtain ⟨atomHere, atoms⟩ := List.forall_mem_cons.mp atoms
      obtain ⟨heldThere, heldHere⟩ := List.forall_mem_append.mp held
      rw [Expr.evalArgs_cons, rest.evalArgs_eq atoms heldThere knownThere scope,
        Option.bind_assoc, Hoist.runAll?_append, Option.bind_assoc]
      apply Option.bind_congr
      intro middle ran
      have value := first.evalOne_eq heldHere (knownHere.grow rest.grows)
        (rest.hoists_minted.knows rest.grows ran scope)
      rw [← Expr.evalOne_congr fun name member =>
        (rest.hoists_minted.read?_eq ran (knownHere name member)).symm] at value
      simp only [Expr.evalArgs_atoms atoms, Option.bind_map, Function.comp_def, value,
        Option.map_bind]
      -- The later arguments are atoms, so the hoists of this one may run before they are read.
      rw [Option.bind_comm]
      apply Option.bind_congr
      intro after ranHere
      rw [Expr.evalArgs_cons, Expr.evalArgs_atoms atoms, Option.bind_map,
        Expr.readAtoms?_congr fun name member => first.hoists_minted.read?_eq ranHere
          (rest.knows_names knownThere name member)]
      rfl
theorem Expr.Outlines.evalOne_eq {start expr hoists ref finish} {state : State Value World}
    : Expr.Outlines dialect start expr hoists ref finish
      → (∀ call ∈ expr.reachedCalls dialect, call.literalSlotCalls dialect = [])
      → start.Knows expr.names → start.Knows state.names
      → expr.evalOne machine state.env state.world
        = (Hoist.runAll? machine hoists state).bind fun after =>
            ref.evalOne machine after.env after.world
  | .ident, _, _, _ => rfl
  | .bind _ flattened handed, held, known, scope => by
      rw [Expr.evalOne, flattened.eval_eq held known scope, Option.bind_assoc,
        Hoist.runAll?_append, Option.bind_assoc]
      apply Option.bind_congr
      intro middle ran
      have known := flattened.hoists_minted.knows flattened.grows ran scope
      have unused := (NameSupply.isFree_iff.mp (NameSupply.isFree_of_freshFor? handed)).2.1
      rw [Hoist.runAll?_singleton]
      exact Hoist.evalOne_ref ⟨_, _, _⟩ fun bound => unused (known _ bound)
end

end StackIR
