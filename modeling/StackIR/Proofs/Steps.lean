import StackIR.Proofs.Handing
import StackIR.Proofs.Reach

/-! The steps of a split, read off the block alone.

A split checks calls and takes names for values. Which calls and values these are, and in which
order, does not depend on the supply or on what was rewritten before: `Block.effect_split`. So
the first fault among the reached calls decides how a split ends, unless the supply has fewer
names left than there are values to bind until then: `SplitStep.runAll_eq`,
`Block.split_runs_out_iff`.
-/

namespace StackIR

/-- What is wrong with a call, if anything is. -/
def Call.fault? (dialect : Dialect) (call : Call) : Option CallFault :=
  match dialect.slots call with
  | .ok _ => none
  | .error fault => some fault

theorem Call.fault?_eq_none_iff {dialect : Dialect} {call : Call}
    : call.fault? dialect = none ↔ ∃ slots, dialect.slots call = .ok slots := by
  rw [fault?]
  cases dialect.slots call <;> simp

theorem Call.fault?_eq_some_iff {dialect : Dialect} {call : Call} {fault : CallFault}
    : call.fault? dialect = some fault ↔ dialect.slots call = .error fault := by
  rw [fault?]
  cases dialect.slots call <;> simp

inductive SplitStep where
  /-- The call is checked. -/
  | check (call : Call)
  /-- A fresh name is taken for the value, whose own arguments are outlined by then. -/
  | bind (value : Expr)

namespace SplitStep

def call? : SplitStep → Option Call
  | .check call => some call
  | .bind _ => none

def value? : SplitStep → Option Expr
  | .check _ => none
  | .bind value => some value

/-- The values for which names are taken, in order. -/
def values (steps : List SplitStep) : List Expr := steps.filterMap value?

def fault? (dialect : Dialect) : SplitStep → Option CallFault
  | .check call => call.fault? dialect
  | .bind _ => none

/-- The steps in front of the first check of a malformed call. -/
def untilFault (dialect : Dialect) (steps : List SplitStep) : List SplitStep :=
  steps.takeWhile fun step => (step.fault? dialect).isNone

/-- What a step does to the supply. -/
def run (dialect : Dialect) : SplitStep → Splitting Unit
  | .check call => (fun _ => ()) <$> Splitting.slots dialect call
  | .bind _ => (fun _ => ()) <$> Splitting.takeName dialect

/-- What steps do to the supply one after the other, up to the first that fails. -/
def runAll (dialect : Dialect) (steps : List SplitStep) : Splitting Unit :=
  forM steps (run dialect)

theorem runAll_cons (dialect : Dialect) (step : SplitStep) (steps : List SplitStep)
    : runAll dialect (step :: steps) = (do run dialect step; runAll dialect steps) :=
  List.forM_cons

theorem runAll_append (dialect : Dialect) (front back : List SplitStep)
    : runAll dialect (front ++ back) = (do runAll dialect front; runAll dialect back) :=
  List.forM_append

end SplitStep

/-- The step that replaces a flat expression by a reference; identifiers need none. -/
def Expr.bindSteps : Expr → List SplitStep
  | .ident _ => []
  | value => [.bind value]

mutual
/-- The steps that outline the arguments of an expression. A call is checked first, and
nothing inside a malformed call is visited.
-/
def Expr.flattenSteps (dialect : Dialect) : Expr → List SplitStep
  | .ident _ | .literal _ => []
  | .call span callee args =>
      .check ⟨span, callee, args⟩
        :: match dialect.slots ⟨span, callee, args⟩ with
          | .ok slots => Expr.argSteps dialect slots args
          | .error _ => []
/-- Arguments are outlined from last to first, each after its own arguments. -/
def Expr.argSteps (dialect : Dialect) : List Slot → List Expr → List SplitStep
  | .literalOnly :: slots, _ :: args => Expr.argSteps dialect slots args
  | .outlinable :: slots, arg :: args =>
      Expr.argSteps dialect slots args ++ (arg.flattenSteps dialect ++ arg.bindSteps)
  | _, _ => []
end

def Expr.outlineSteps (dialect : Dialect) (expr : Expr) : List SplitStep :=
  expr.flattenSteps dialect ++ expr.bindSteps

mutual
def Stmt.splitSteps (dialect : Dialect) : Stmt → List SplitStep
  | .expr _ value => value.flattenSteps dialect
  | .assign _ _ value => value.flattenSteps dialect
  | .declare _ _ value => (value.map (Expr.flattenSteps dialect)).getD []
  | .define _ _ _ _ body => body.splitSteps dialect
  | .branch _ condition body => condition.outlineSteps dialect ++ body.splitSteps dialect
  | .switch _ subject cases => subject.outlineSteps dialect ++ Stmt.caseSteps dialect cases
  | .loop _ pre _ post body =>
      pre.splitSteps dialect ++ (post.splitSteps dialect ++ body.splitSteps dialect)
  | .breakLoop _ | .continueLoop _ | .leave _ => []
  | .block body => body.splitSteps dialect
/-- The steps of a split of a block. The condition of a loop has none. -/
def Block.splitSteps (dialect : Dialect) : Block → List SplitStep
  | ⟨_, stmts⟩ => Stmt.listSteps dialect stmts
def Stmt.listSteps (dialect : Dialect) : List Stmt → List SplitStep
  | [] => []
  | stmt :: rest => stmt.splitSteps dialect ++ Stmt.listSteps dialect rest
def Stmt.caseSteps (dialect : Dialect) : List Case → List SplitStep
  | [] => []
  | ⟨_, _, body⟩ :: rest => body.splitSteps dialect ++ Stmt.caseSteps dialect rest
end

/-- The values that a split of a block binds to fresh names, up to the first malformed call
that it meets.
-/
def Block.boundValues (dialect : Dialect) (block : Block) : List Expr :=
  SplitStep.values (SplitStep.untilFault dialect (block.splitSteps dialect))

variable {dialect : Dialect}

-----------------------------------------------------------------------------------------
-- The checked calls are the reached ones
-----------------------------------------------------------------------------------------

theorem Expr.call?_bindSteps (expr : Expr) : expr.bindSteps.filterMap SplitStep.call? = [] := by
  cases expr <;> rfl

mutual
theorem Expr.call?_flattenSteps : ∀ expr : Expr,
    (expr.flattenSteps dialect).filterMap SplitStep.call? = expr.reachedCalls dialect
  | .ident _ | .literal _ => rfl
  | .call span callee args => by
      rw [Expr.flattenSteps, Expr.reachedCalls, List.filterMap_cons]
      refine congrArg (List.cons _) ?_
      cases dialect.slots ⟨span, callee, args⟩ with
      | ok slots => exact Expr.call?_argSteps slots args
      | error fault => rfl
theorem Expr.call?_argSteps : ∀ (slots : List Slot) (args : List Expr),
    (Expr.argSteps dialect slots args).filterMap SplitStep.call?
      = Expr.reachedInArgs dialect slots args
  | .literalOnly :: slots, _ :: args => Expr.call?_argSteps slots args
  | .outlinable :: slots, arg :: args => by
      simp only [Expr.argSteps, Expr.reachedInArgs, List.filterMap_append,
        Expr.call?_argSteps slots args, Expr.call?_flattenSteps arg, Expr.call?_bindSteps,
        List.append_nil]
  | [], [] | [], _ :: _ | .literalOnly :: _, [] | .outlinable :: _, [] => rfl
end

theorem Expr.call?_outlineSteps (expr : Expr)
    : (expr.outlineSteps dialect).filterMap SplitStep.call? = expr.reachedCalls dialect := by
  rw [outlineSteps, List.filterMap_append, call?_flattenSteps, call?_bindSteps,
    List.append_nil]

mutual
theorem Stmt.call?_splitSteps : ∀ stmt : Stmt,
    (stmt.splitSteps dialect).filterMap SplitStep.call? = stmt.reachedCalls dialect
  | .expr _ value | .assign _ _ value | .declare _ _ (some value) =>
      Expr.call?_flattenSteps value
  | .declare _ _ none | .breakLoop _ | .continueLoop _ | .leave _ => rfl
  | .define _ _ _ _ body | .block body => Block.call?_splitSteps body
  | .branch _ condition body => by
      rw [Stmt.splitSteps, Stmt.reachedCalls, List.filterMap_append,
        Expr.call?_outlineSteps, Block.call?_splitSteps body]
  | .switch _ subject cases => by
      rw [Stmt.splitSteps, Stmt.reachedCalls, List.filterMap_append,
        Expr.call?_outlineSteps, Stmt.call?_caseSteps cases]
  | .loop _ pre _ post body => by
      rw [Stmt.splitSteps, Stmt.reachedCalls, List.filterMap_append, List.filterMap_append,
        Block.call?_splitSteps pre, Block.call?_splitSteps post, Block.call?_splitSteps body,
        List.append_assoc]
termination_by structural x => x
/-- A split checks the calls that it reaches, in the order in which it reaches them. -/
theorem Block.call?_splitSteps : ∀ block : Block,
    (block.splitSteps dialect).filterMap SplitStep.call? = block.reachedCalls dialect
  | ⟨_, stmts⟩ => Stmt.call?_listSteps stmts
termination_by structural x => x
theorem Stmt.call?_listSteps : ∀ stmts : List Stmt,
    (Stmt.listSteps dialect stmts).filterMap SplitStep.call? = Stmt.reachedInList dialect stmts
  | [] => rfl
  | stmt :: rest => by
      rw [Stmt.listSteps, Stmt.reachedInList, List.filterMap_append,
        Stmt.call?_splitSteps stmt, Stmt.call?_listSteps rest]
termination_by structural x => x
theorem Stmt.call?_caseSteps : ∀ cases : List Case,
    (Stmt.caseSteps dialect cases).filterMap SplitStep.call? = Stmt.reachedInCases dialect cases
  | [] => rfl
  | ⟨_, _, body⟩ :: rest => by
      rw [Stmt.caseSteps, Stmt.reachedInCases, List.filterMap_append,
        Block.call?_splitSteps body, Stmt.call?_caseSteps rest]
termination_by structural x => x
end

-----------------------------------------------------------------------------------------
-- A split does what its steps do
-----------------------------------------------------------------------------------------

namespace Splitting

variable {α β : Type}

/-- What a run does to the supply, without its result. -/
def effect (run : Splitting α) : Splitting Unit := (fun _ => ()) <$> run

theorem effect_pure (value : α) : effect (pure value) = pure () := by
  rw [effect, map_pure]

/-- A second part that does the same after all results of the first comes after it. -/
theorem effect_bind_of_ok {first : Splitting α} {second : α → Splitting β}
    {rest : Splitting Unit}
    (same : ∀ start value finish, first start = .ok value finish → effect (second value) = rest)
    : effect (first >>= second) = (do effect first; rest) := by
  funext start
  simp only [effect, Functor.map, EStateM.map, bind, EStateM.bind]
  cases run : first start with
  | ok value middle => exact congrFun (same start value middle run) middle
  | error stop middle => rfl

theorem effect_bind {first : Splitting α} {second : α → Splitting β} {rest : Splitting Unit}
    (same : ∀ value, effect (second value) = rest)
    : effect (first >>= second) = (do effect first; rest) :=
  effect_bind_of_ok fun _ value _ _ => same value

/-- Putting a result in another form has no effect. -/
theorem effect_bind_pure {first : Splitting α} {second : α → Splitting β}
    (none : ∀ value, effect (second value) = pure ())
    : effect (first >>= second) = effect first := by
  rw [effect_bind none, bind_pure_unit]

theorem effect_eq_ok_iff {run : Splitting α} {start finish : NameSupply}
    : effect run start = .ok () finish ↔ ∃ value, run start = .ok value finish := by
  simp only [effect, Functor.map, EStateM.map]
  cases run start <;> simp

theorem effect_eq_error_iff {run : Splitting α} {start finish : NameSupply}
    {stop : Stop CallFault}
    : effect run start = .error stop finish ↔ run start = .error stop finish := by
  simp only [effect, Functor.map, EStateM.map]
  cases run start <;> simp

end Splitting

open Splitting

/-- Binding a flat expression that is no identifier takes a name. -/
theorem Splitting.effect_bindFlat {hoists : List Hoist} {flat : Expr}
    (complex : flat.isIdent = false)
    : effect (bindFlat dialect (hoists, flat)) = effect (takeName dialect) := by
  cases flat with
  | ident i => cases complex
  | literal | call => exact effect_bind_pure fun _ => effect_pure _

/-- Outlining flattens first and then takes a name, unless there is just an identifier. -/
theorem Expr.effect_bindFlat {expr : Expr}
    (flatten : effect (expr.flatten dialect)
      = SplitStep.runAll dialect (expr.flattenSteps dialect))
    : effect (expr.flatten dialect >>= bindFlat dialect)
      = SplitStep.runAll dialect (expr.outlineSteps dialect) := by
  cases complex : expr.isIdent with
  | true =>
      cases expr with
      | ident i => rfl
      | literal | call => cases complex
  | false =>
      have bind : expr.bindSteps = [.bind expr] := by
        cases expr with
        | ident i => cases complex
        | literal | call => rfl
      have takes : ∀ start value finish, expr.flatten dialect start = .ok value finish
          → effect (bindFlat dialect value) = SplitStep.run dialect (.bind expr) := by
        intro start value finish run
        have shape := (Expr.flattens_of_flatten run).shape
        exact Splitting.effect_bindFlat (shape.1.trans complex)
      rw [effect_bind_of_ok takes, flatten, outlineSteps, bind, SplitStep.runAll_append]
      exact congrArg _ (funext fun _ => (bind_pure_unit).symm)

mutual
/-- Flattening has the effect of its steps, by induction on the expression. -/
theorem Expr.effect_flatten : ∀ expr : Expr,
    effect (expr.flatten dialect) = SplitStep.runAll dialect (expr.flattenSteps dialect)
  | .ident _ | .literal _ => rfl
  | .call span callee args => by
      rw [Expr.flatten, Expr.flattenSteps, SplitStep.runAll_cons, SplitStep.run]
      cases classified : dialect.slots ⟨span, callee, args⟩ with
      | ok slots =>
          simp only [Splitting.slots, classified, pure_bind, map_pure]
          rw [effect_bind_pure fun _ => effect_pure _]
          exact Expr.effect_outlineArgs slots args
      | error fault =>
          simp only [Splitting.slots, classified]
          rfl
theorem Expr.effect_outlineArgs : ∀ (slots : List Slot) (args : List Expr),
    effect (Expr.outlineArgs dialect slots args)
      = SplitStep.runAll dialect (Expr.argSteps dialect slots args)
  | .literalOnly :: slots, arg :: args => by
      rw [Expr.outlineArgs, Expr.argSteps, effect_bind_pure fun _ => effect_pure _,
        Expr.effect_outlineArgs slots args]
  | .outlinable :: slots, arg :: args => by
      have first := Expr.effect_bindFlat (Expr.effect_flatten arg)
      rw [Expr.outlineArgs, Expr.argSteps, SplitStep.runAll_append,
        ← Expr.effect_outlineArgs slots args]
      refine effect_bind fun (later, args) => ?_
      dsimp only
      rw [← bind_assoc, effect_bind_pure fun _ => effect_pure _]
      exact first
  | [], [] | [], _ :: _ | .literalOnly :: _, [] | .outlinable :: _, [] => rfl
end

theorem Expr.effect_outline (expr : Expr)
    : effect (expr.outline dialect)
      = SplitStep.runAll dialect (expr.outlineSteps dialect) :=
  Expr.effect_bindFlat (Expr.effect_flatten expr)

mutual
theorem Stmt.effect_split : ∀ stmt : Stmt,
    effect (stmt.split dialect) = SplitStep.runAll dialect (stmt.splitSteps dialect)
  | .expr _ value | .assign _ _ value | .declare _ _ (some value) => by
      rw [Stmt.split, effect_bind_pure fun _ => effect_pure _]
      exact Expr.effect_flatten value
  | .declare _ _ none | .breakLoop _ | .continueLoop _ | .leave _ => rfl
  | .define _ _ _ _ body | .block body => by
      rw [Stmt.split, effect_bind_pure fun _ => effect_pure _]
      exact Block.effect_split body
  | .branch _ condition body => by
      rw [Stmt.split, Stmt.splitSteps, SplitStep.runAll_append, ← Expr.effect_outline condition,
        ← Block.effect_split body]
      exact effect_bind fun _ => effect_bind_pure fun _ => effect_pure _
  | .switch _ subject cases => by
      rw [Stmt.split, Stmt.splitSteps, SplitStep.runAll_append, ← Expr.effect_outline subject,
        ← Stmt.effect_splitCases cases]
      exact effect_bind fun _ => effect_bind_pure fun _ => effect_pure _
  | .loop _ pre _ post body => by
      rw [Stmt.split, Stmt.splitSteps, SplitStep.runAll_append, SplitStep.runAll_append,
        ← Block.effect_split pre, ← Block.effect_split post, ← Block.effect_split body]
      exact effect_bind fun _ => effect_bind fun _ => effect_bind_pure fun _ => effect_pure _
termination_by structural x => x
/-- A split has the effect of its steps, whether it succeeds or stops. -/
theorem Block.effect_split : ∀ block : Block,
    effect (block.split dialect) = SplitStep.runAll dialect (block.splitSteps dialect)
  | ⟨_, stmts⟩ => by
      rw [Block.split, effect_bind_pure fun _ => effect_pure _]
      exact Stmt.effect_splitList stmts
termination_by structural x => x
theorem Stmt.effect_splitList : ∀ stmts : List Stmt,
    effect (Stmt.splitList dialect stmts)
      = SplitStep.runAll dialect (Stmt.listSteps dialect stmts)
  | [] => rfl
  | stmt :: rest => by
      rw [Stmt.splitList, Stmt.listSteps, SplitStep.runAll_append, ← Stmt.effect_split stmt,
        ← Stmt.effect_splitList rest]
      exact effect_bind fun _ => effect_bind_pure fun _ => effect_pure _
termination_by structural x => x
theorem Stmt.effect_splitCases : ∀ cases : List Case,
    effect (Stmt.splitCases dialect cases)
      = SplitStep.runAll dialect (Stmt.caseSteps dialect cases)
  | [] => rfl
  | ⟨_, _, body⟩ :: rest => by
      rw [Stmt.splitCases, Stmt.caseSteps, SplitStep.runAll_append, ← Block.effect_split body,
        ← Stmt.effect_splitCases rest]
      exact effect_bind fun _ => effect_bind_pure fun _ => effect_pure _
termination_by structural x => x
end

-----------------------------------------------------------------------------------------
-- How steps end
-----------------------------------------------------------------------------------------

namespace SplitStep

variable {start finish : NameSupply} {steps : List SplitStep}

theorem run_check_of_ok {call : Call} {slots : List Slot}
    (classified : dialect.slots call = .ok slots)
    : run dialect (.check call) start = .ok () start := by
  rw [run, Splitting.slots, classified]
  rfl

theorem run_check_of_error {call : Call} {fault : CallFault}
    (classified : dialect.slots call = .error fault)
    : run dialect (.check call) start = .error (.failed fault) start := by
  rw [run, Splitting.slots, classified]
  rfl

theorem run_bind_of_some {value : Expr} {name : Name}
    (handed : start.fresh? dialect = some (name, finish))
    : run dialect (.bind value) start = .ok () finish :=
  effect_eq_ok_iff.mpr ⟨name, takeName_eq_ok_iff.mpr handed⟩

theorem run_bind_of_none {value : Expr} (handed : start.fresh? dialect = none)
    : run dialect (.bind value) start = .error .noFreeName start := by
  refine effect_eq_error_iff.mpr ?_
  rw [takeName, handed]

/-- The steps go on behind a step that succeeds. -/
theorem runAll_cons_of_ok {step : SplitStep} {middle : NameSupply}
    (first : run dialect step start = .ok () middle)
    : runAll dialect (step :: steps) start = runAll dialect steps middle := by
  rw [runAll_cons]
  change EStateM.bind _ _ _ = _
  rw [EStateM.bind, first]

/-- The steps end with a step that fails. -/
theorem runAll_cons_of_error {step : SplitStep} {stop : Stop CallFault}
    (first : run dialect step start = .error stop finish)
    : runAll dialect (step :: steps) start = .error stop finish := by
  rw [runAll_cons]
  change EStateM.bind _ _ _ = _
  rw [EStateM.bind, first]

/-- Behind the check of a well-formed call, the same names are taken. -/
theorem values_untilFault_of_ok {call : Call} {slots : List Slot}
    (classified : dialect.slots call = .ok slots)
    : values (untilFault dialect (.check call :: steps)) = values (untilFault dialect steps) := by
  simp [untilFault, fault?, Call.fault?, classified, values, List.filterMap_cons, value?]

/-- Behind the check of a malformed call, no name is taken. -/
theorem values_untilFault_of_error {call : Call} {fault : CallFault}
    (classified : dialect.slots call = .error fault)
    : values (untilFault dialect (.check call :: steps)) = [] := by
  simp [untilFault, fault?, Call.fault?, classified, values]

theorem values_untilFault_bind {value : Expr}
    : values (untilFault dialect (.bind value :: steps))
      = value :: values (untilFault dialect steps) := by
  simp [untilFault, fault?, values, value?]

/-- The end of a run that meets the given fault, or none. -/
def ending (finish : NameSupply) : Option CallFault
    → EStateM.Result (Stop CallFault) NameSupply Unit
  | none => .ok () finish
  | some fault => .error (.failed fault) finish

/-- Steps end with the first fault among them. Up to it they take a name for each value, so
they leave the supply behind as many names, by induction on the steps.
-/
theorem runAll_eq {names : List Name} (handed : start.Hands dialect names finish)
    (count : names.length = (values (untilFault dialect steps)).length)
    : runAll dialect steps start = ending finish (steps.findSome? (fault? dialect)) := by
  induction steps generalizing start names with
  | nil =>
      obtain rfl := List.length_eq_zero_iff.mp count
      cases handed
      rfl
  | cons step steps ih =>
      cases step with
      | check call =>
          cases classified : dialect.slots call with
          | ok slots =>
              have sound : fault? dialect (.check call) = none := by
                simp [fault?, Call.fault?, classified]
              rw [values_untilFault_of_ok classified] at count
              rw [runAll_cons_of_ok (run_check_of_ok classified), List.findSome?_cons, sound]
              exact ih handed count
          | error fault =>
              have broken : fault? dialect (.check call) = some fault := by
                simp [fault?, Call.fault?, classified]
              rw [values_untilFault_of_error classified] at count
              obtain rfl := List.length_eq_zero_iff.mp count
              cases handed
              rw [runAll_cons_of_error (run_check_of_error classified), List.findSome?_cons,
                broken]
              rfl
      | bind value =>
          rw [values_untilFault_bind] at count
          obtain - | ⟨first, rest⟩ := handed
          · cases count
          · rw [runAll_cons_of_ok (run_bind_of_some first), List.findSome?_cons]
            exact ih rest (Nat.succ.inj count)

/-- Steps run out of names if the supply has fewer free candidates left than they bind values
up to their first fault, by induction on the steps.
-/
theorem exists_runAll_eq_noFreeName
    (short : start.freeLeft dialect < (values (untilFault dialect steps)).length)
    : ∃ finish, runAll dialect steps start = .error .noFreeName finish := by
  induction steps generalizing start with
  | nil => cases short
  | cons step steps ih =>
      cases step with
      | check call =>
          cases classified : dialect.slots call with
          | ok slots =>
              rw [values_untilFault_of_ok classified] at short
              rw [runAll_cons_of_ok (run_check_of_ok classified)]
              exact ih short
          | error fault =>
              rw [values_untilFault_of_error classified] at short
              cases short
      | bind value =>
          rw [values_untilFault_bind] at short
          cases handed : start.fresh? dialect with
          | none => exact ⟨start, runAll_cons_of_error (run_bind_of_none handed)⟩
          | some pair =>
              obtain ⟨name, middle⟩ := pair
              have left := NameSupply.freeLeft_of_fresh? handed
              rw [runAll_cons_of_ok (run_bind_of_some handed)]
              rw [left, List.length_cons] at short
              exact ih (Nat.lt_of_succ_lt_succ short)

/-- However steps end, the supply has handed out names one after the other. -/
theorem exists_hands_runAll (steps : List SplitStep) (start : NameSupply)
    : ∃ names finish, start.Hands dialect names finish
        ∧ (runAll dialect steps start = .ok () finish
          ∨ ∃ stop, runAll dialect steps start = .error stop finish) := by
  induction steps generalizing start with
  | nil => exact ⟨[], start, .nil, .inl rfl⟩
  | cons step steps ih =>
      cases step with
      | check call =>
          cases classified : dialect.slots call with
          | ok slots =>
              rw [runAll_cons_of_ok (run_check_of_ok classified)]
              exact ih start
          | error fault =>
              have stops : run dialect (.check call) start = .error (.failed fault) start :=
                run_check_of_error classified
              exact ⟨[], start, .nil, .inr ⟨_, runAll_cons_of_error stops⟩⟩
      | bind value =>
          cases handed : start.fresh? dialect with
          | none =>
              have stops : run dialect (.bind value) start = .error .noFreeName start :=
                run_bind_of_none handed
              exact ⟨[], start, .nil, .inr ⟨_, runAll_cons_of_error stops⟩⟩
          | some pair =>
              obtain ⟨name, middle⟩ := pair
              obtain ⟨names, finish, rest, ends⟩ := ih middle
              rw [runAll_cons_of_ok (run_bind_of_some handed)]
              exact ⟨name :: names, finish, .cons handed rest, ends⟩

end SplitStep

variable {block : Block} {start finish : NameSupply} {names : List Name}

/-- A split that succeeds takes names from its supply one after the other. -/
theorem Block.exists_hands_of_ok {block' : Block}
    (split : block.split dialect start = .ok block' finish)
    : ∃ names, start.Hands dialect names finish := by
  obtain ⟨names, last, handed, ends⟩ :=
    SplitStep.exists_hands_runAll (block.splitSteps dialect) start
  rw [← Block.effect_split, effect_eq_ok_iff.mpr ⟨_, split⟩] at ends
  rcases ends with same | ⟨stop, same⟩
  · cases same
    exact ⟨names, handed⟩
  · cases same

/-- So does a split that stops. -/
theorem Block.exists_hands_of_error {stop : Stop CallFault}
    (stops : block.split dialect start = .error stop finish)
    : ∃ names, start.Hands dialect names finish := by
  obtain ⟨names, last, handed, ends⟩ :=
    SplitStep.exists_hands_runAll (block.splitSteps dialect) start
  rw [← Block.effect_split, effect_eq_error_iff.mpr stops] at ends
  rcases ends with same | ⟨other, same⟩
  · cases same
  · cases same
    exact ⟨names, handed⟩

/-- The first fault of a block among its reached calls. -/
def Block.firstFault? (dialect : Dialect) (block : Block) : Option CallFault :=
  (block.reachedCalls dialect).findSome? (Call.fault? dialect)

theorem Block.findSome?_splitSteps
    : (block.splitSteps dialect).findSome? (SplitStep.fault? dialect)
      = block.firstFault? dialect := by
  have sameFault : SplitStep.fault? dialect
      = fun step => step.call?.bind (Call.fault? dialect) := by
    funext step
    cases step <;> rfl
  rw [firstFault?, ← Block.call?_splitSteps, ← List.head?_filterMap, ← List.head?_filterMap,
    List.filterMap_filterMap, sameFault]

/-- A split ends with the first fault among the reached calls, behind one name for each value
that it binds until then.
-/
theorem Block.effect_split_eq (handed : start.Hands dialect names finish)
    (count : names.length = (block.boundValues dialect).length)
    : effect (block.split dialect) start
      = SplitStep.ending finish (block.firstFault? dialect) := by
  rw [Block.effect_split, SplitStep.runAll_eq handed count, findSome?_splitSteps]

/-- A split succeeds if no reached call is malformed and the supply has a name for each value. -/
theorem Block.exists_split_eq_ok
    (enough : (block.boundValues dialect).length ≤ start.freeLeft dialect)
    (sound : block.firstFault? dialect = none)
    : ∃ block' finish names,
        block.split dialect start = .ok block' finish
        ∧ start.Hands dialect names finish
        ∧ names.length = (block.boundValues dialect).length := by
  obtain ⟨names, finish, handed, count⟩ := NameSupply.exists_hands enough
  have effects := Block.effect_split_eq handed count
  rw [sound] at effects
  obtain ⟨block', split⟩ := effect_eq_ok_iff.mp effects
  exact ⟨block', finish, names, split, handed, count⟩

/-- A split stops with the first fault if it does not run out of names before. -/
theorem Block.exists_split_eq_error {fault : CallFault}
    (enough : (block.boundValues dialect).length ≤ start.freeLeft dialect)
    (broken : block.firstFault? dialect = some fault)
    : ∃ finish names,
        block.split dialect start = .error (.failed fault) finish
        ∧ start.Hands dialect names finish
        ∧ names.length = (block.boundValues dialect).length := by
  obtain ⟨names, finish, handed, count⟩ := NameSupply.exists_hands enough
  have effects := Block.effect_split_eq handed count
  rw [broken] at effects
  exact ⟨finish, names, effect_eq_error_iff.mp effects, handed, count⟩

/-- A split runs out of names exactly if the supply has fewer free candidates left than the block
has values to bind.
-/
theorem Block.split_runs_out_iff
    : (∃ finish, block.split dialect start = .error .noFreeName finish)
      ↔ start.freeLeft dialect < (block.boundValues dialect).length := by
  constructor
  · intro runsOut
    rcases runsOut with ⟨finish, stops⟩
    refine Nat.lt_of_not_le fun enough => ?_
    cases broken : block.firstFault? dialect with
    | none =>
        obtain ⟨block', last, names, split, -, -⟩ := Block.exists_split_eq_ok enough broken
        cases stops.symm.trans split
    | some fault =>
        obtain ⟨last, names, fails, -, -⟩ := Block.exists_split_eq_error enough broken
        cases stops.symm.trans fails
  · intro short
    obtain ⟨finish, stops⟩ := SplitStep.exists_runAll_eq_noFreeName short
    rw [← Block.effect_split] at stops
    exact ⟨finish, effect_eq_error_iff.mp stops⟩

end StackIR
