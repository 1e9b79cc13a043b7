import Mathlib.Logic.Basic
import StackIR.Dialect.Stack
import StackIR.SplitForm

/-! The places at which a block departs from split form.

A place is the way from a block down to one of its parts. `Block.Offends` says, place by place, what
split form objects to, without regard to how a block is searched. The check lists exactly these
violations, one for each place, in the order of the text: `Block.violations_listed`.
-/

namespace StackIR

-----------------------------------------------------------------------------------------
-- Places
-----------------------------------------------------------------------------------------

/-- A step from a node of a program down to a part of it. -/
inductive Part where
  /-- A statement of a block. -/
  | stmt (index : Nat)
  /-- What an expression statement, an assignment or a declaration evaluates. -/
  | value
  /-- The condition of an `if`, or the subject of a `switch`. -/
  | condition
  | caseLabel (index : Nat)
  | caseBody (index : Nat)
  | pre
  | loopCondition
  | post
  /-- The body of a function, of an `if`, of a loop, or of a nested block. -/
  | body
  /-- An argument of a call. -/
  | arg (index : Nat)
deriving DecidableEq, Repr

/-- Where a part stands among the parts of its node. -/
def Part.rank : Part → Nat
  | .stmt index | .arg index => index
  | .value | .condition | .pre => 0
  | .loopCondition => 1
  | .post => 2
  | .body => 3
  | .caseLabel index => 2 * index + 1
  | .caseBody index => 2 * index + 2

/-- The way from a node down to one of its parts. -/
abbrev Place := List Part

/-- The order of the text: a node comes before its parts, and the parts in the order of their
ranks.
-/
def Place.Precedes (place other : Place) : Prop := place.map Part.rank < other.map Part.rank

/-- A node of a program, in the role that it plays there. An argument is known together with the
callee that it is immediately passed to, and its position.
-/
inductive Node where
  | block (block : Block)
  | stmt (stmt : Stmt)
  | value (expr : Expr)
  | condition (expr : Expr)
  | loopCondition (expr : Expr)
  | label (literal : Literal)
  | arg (callee : Callee) (index : Nat) (expr : Expr)

/-- The arguments of an expression, if it is a call. -/
def Expr.part? : Expr → Part → Option Node
  | .call _ callee args, .arg index => args[index]?.map (.arg callee index)
  | _, _ => none

def Stmt.part? : Stmt → Part → Option Node
  | .expr _ value, .value | .assign _ _ value, .value | .declare _ _ (some value), .value =>
      some (.value value)
  | .define _ _ _ _ body, .body | .branch _ _ body, .body | .loop _ _ _ _ body, .body
  | .block body, .body => some (.block body)
  | .branch _ condition _, .condition => some (.condition condition)
  | .switch _ subject _, .condition => some (.condition subject)
  | .switch _ _ cases, .caseLabel index => cases[index]?.bind fun case => case.label.map .label
  | .switch _ _ cases, .caseBody index => cases[index]?.map fun case => .block case.body
  | .loop _ pre _ _ _, .pre => some (.block pre)
  | .loop _ _ condition _ _, .loopCondition => some (.loopCondition condition)
  | .loop _ _ _ post _, .post => some (.block post)
  | _, _ => none

def Block.part? (block : Block) : Part → Option Node
  | .stmt index => block.stmts[index]?.map .stmt
  | _ => none

namespace Node

/-- The part of a node that a step leads to. -/
def part? : Node → Part → Option Node
  | .block body => body.part?
  | .stmt inner => inner.part?
  | .value expr | .condition expr | .loopCondition expr | .arg _ _ expr => expr.part?
  | .label _ => fun _ => none

/-- The node at a place below a node. -/
def at? : Node → Place → Option Node
  | node, [] => some node
  | node, part :: place => (node.part? part).bind fun child => child.at? place

-----------------------------------------------------------------------------------------
-- What split form objects to
-----------------------------------------------------------------------------------------

/-- Split form objects to an argument at a place below the node: to every call, and to a literal
where the callee that it is immediately passed to requires none.
-/
inductive OffendsInside (dialect : Dialect) (node : Node) : Place → SplitViolation → Prop
  | nestedCall {place callee index span inner args}
    (found : node.at? place = some (.arg callee index (.call span inner args)))
    : OffendsInside dialect node place (.nestedCall span)
  | literalArgument {place callee index literal}
    (found : node.at? place = some (.arg callee index (.literal literal)))
    (outlinable : dialect.requiresLiteral callee index = false)
    : OffendsInside dialect node place (.literalArgument literal.span index)

/-- Split form objects to a place below the node: to every `if` condition and `switch` subject that
is no identifier, and to arguments at any depth below what a statement evaluates by itself.
-/
inductive Offends (dialect : Dialect) (node : Node) : Place → SplitViolation → Prop
  | condition {place condition}
    (found : node.at? place = some (.condition condition))
    (complex : condition.isIdent = false)
    : Offends dialect node place (.complexCondition condition.span)
  | argument {front behind value violation}
    (top : node.at? (front ++ [.value]) = some (.value value))
    (inside : (Node.value value).OffendsInside dialect behind violation)
    : Offends dialect node (front ++ .value :: behind) violation

end Node

/-- Split form objects to a place in the block. -/
def Block.Offends (dialect : Dialect) (block : Block) (place : Place) (violation : SplitViolation)
    : Prop :=
  (Node.block block).Offends dialect place violation

/-- Which violations are at which places. -/
abbrev Scope := Place → SplitViolation → Prop

/-- The violations are those of the places in the scope, in the order of the text. No place comes
before itself, so there is one violation for each place.
-/
def Listed (scope : Scope) (violations : List SplitViolation) : Prop :=
  ∃ marks : List (Place × SplitViolation),
    marks.map Prod.snd = violations
    ∧ marks.Pairwise (fun mark later => mark.1.Precedes later.1)
    ∧ ∀ place violation, (place, violation) ∈ marks ↔ scope place violation

-----------------------------------------------------------------------------------------
-- The order of places
-----------------------------------------------------------------------------------------

variable {dialect : Dialect} {part other : Part} {place place' : Place} {node : Node}
  {violation : SplitViolation}

theorem Place.nil_precedes (part : Part) (place : Place) : Place.Precedes [] (part :: place) :=
  List.nil_lt_cons _ _

/-- Below the same part, the places are in the order that they have from there. -/
theorem Place.Precedes.below (part : Part) (before : place.Precedes place')
    : Place.Precedes (part :: place) (part :: place') :=
  List.cons_lt_cons_iff.mpr (.inr ⟨rfl, before⟩)

theorem Place.precedes_of_rank (before : part.rank < other.rank) (place place' : Place)
    : Place.Precedes (part :: place) (other :: place') :=
  List.cons_lt_cons_iff.mpr (.inl before)

-----------------------------------------------------------------------------------------
-- Lists of violations
-----------------------------------------------------------------------------------------

/-- The places of the scope, each below the part. -/
def Under (part : Part) (scope : Scope) (place : Place) (violation : SplitViolation) : Prop :=
  ∃ rest, place = part :: rest ∧ scope rest violation

/-- The places of the scopes of the items, each below the step to its item. The items stand at the
indices from `start` on.
-/
def Among {α : Type} (step : Nat → Part) (scopes : Nat → α → Scope) (start : Nat)
    (items : List α) (place : Place) (violation : SplitViolation)
    : Prop :=
  ∃ n item, items[n]? = some item
    ∧ Under (step (start + n)) (scopes (start + n) item) place violation

variable {α : Type} {step : Nat → Part} {scopes : Nat → α → Scope} {start : Nat} {item : α}
  {items : List α} {scope scope' : Scope} {violations violations' : List SplitViolation}

theorem not_under_nil : ¬ Under part scope [] violation := by
  simp [Under]

theorem under_cons_iff
    : Under part scope (other :: place) violation ↔ other = part ∧ scope place violation := by
  simp [Under, and_assoc]

theorem not_among_nil : ¬ Among step scopes start items [] violation := by
  simp [Among, Under]

theorem among_zero_iff
    : Among step scopes 0 items (part :: place) violation
      ↔ ∃ n item, items[n]? = some item ∧ part = step n ∧ scopes n item place violation := by
  simp [Among, under_cons_iff]

/-- The first of the items stands at `start`, the others from `start + 1` on. -/
theorem among_cons_iff
    : Among step scopes start (item :: items) place violation
      ↔ Under (step start) (scopes start item) place violation
        ∨ Among step scopes (start + 1) items place violation := by
  have shift (n : Nat) : start + (n + 1) = start + 1 + n := by omega
  constructor
  · rintro ⟨n, found, isThere, below⟩
    cases n with
    | zero =>
        cases isThere
        exact .inl below
    | succ n =>
        rw [shift] at below
        exact .inr ⟨n, found, isThere, below⟩
  · rintro (below | ⟨n, found, isThere, below⟩)
    · exact ⟨0, item, rfl, below⟩
    · rw [← shift] at below
      exact ⟨n + 1, found, isThere, below⟩

namespace Listed

theorem congr (listed : Listed scope violations)
    (same : ∀ place violation, scope' place violation ↔ scope place violation)
    : Listed scope' violations := by
  rcases listed with ⟨marks, texts, ordered, complete⟩
  refine ⟨marks, texts, ordered, ?_⟩
  intro place violation
  rw [complete, same]

theorem nil (empty : ∀ place violation, ¬ scope place violation) : Listed scope [] := by
  refine ⟨[], rfl, .nil, ?_⟩
  intro place violation
  simp [empty]

/-- One place alone. -/
theorem singleton (place : Place) (violation : SplitViolation)
    : Listed (fun other found => other = place ∧ found = violation) [violation] := by
  refine ⟨[(place, violation)], rfl, List.pairwise_singleton _ _, ?_⟩
  intro other found
  simp

theorem under (part : Part) (listed : Listed scope violations)
    : Listed (Under part scope) violations := by
  rcases listed with ⟨marks, texts, ordered, complete⟩
  refine ⟨marks.map fun mark => (part :: mark.1, mark.2), ?_, ?_, ?_⟩
  · rw [List.map_map, ← texts]
    rfl
  · exact List.pairwise_map.mpr (ordered.imp fun before => before.below part)
  · intro place violation
    simp only [List.mem_map, Prod.exists, Prod.mk.injEq, complete, Under]
    constructor
    · intro holds
      rcases holds with ⟨rest, _, inScope, rfl, rfl⟩
      exact ⟨rest, rfl, inScope⟩
    · intro holds
      rcases holds with ⟨rest, rfl, inScope⟩
      exact ⟨rest, violation, inScope, rfl, rfl⟩

/-- Two lists one after the other, if all places of the first precede those of the second. -/
theorem append (first : Listed scope violations) (second : Listed scope' violations')
    (before : ∀ place violation place' violation',
      scope place violation → scope' place' violation' → place.Precedes place')
    : Listed (fun place violation => scope place violation ∨ scope' place violation)
        (violations ++ violations') := by
  rcases first with ⟨marks, texts, ordered, complete⟩
  rcases second with ⟨marks', texts', ordered', complete'⟩
  refine ⟨marks ++ marks', by rw [List.map_append, texts, texts'], ?_, ?_⟩
  · refine List.pairwise_append.mpr ⟨ordered, ordered', ?_⟩
    intro mark member mark' member'
    exact before _ _ _ _ ((complete _ _).mp member) ((complete' _ _).mp member')
  · intro place violation
    rw [List.mem_append, complete, complete']

/-- Two parts of one node, one after the other. -/
theorem append_under (first : Listed (Under part scope) violations)
    (second : Listed (Under other scope') violations') (before : part.rank < other.rank)
    : Listed (fun place violation =>
        Under part scope place violation ∨ Under other scope' place violation)
        (violations ++ violations') := by
  refine first.append second ?_
  intro place violation place' violation' inFirst inSecond
  rcases inFirst with ⟨rest, rfl, -⟩
  rcases inSecond with ⟨rest', rfl, -⟩
  exact Place.precedes_of_rank before rest rest'

theorem among_nil : Listed (Among step scopes start []) [] :=
  .nil fun _ _ => by simp [Among]

/-- The first of the items comes before all that stand behind it. -/
theorem among_cons (increasing : ∀ m n, m < n → (step m).rank < (step n).rank)
    (first : Listed (scopes start item) violations)
    (rest : Listed (Among step scopes (start + 1) items) violations')
    : Listed (Among step scopes start (item :: items)) (violations ++ violations') := by
  refine ((first.under (step start)).append rest ?_).congr fun _ _ => among_cons_iff
  intro place violation place' violation' inFirst inRest
  rcases inFirst with ⟨behind, rfl, -⟩
  rcases inRest with ⟨n, _, -, behind', rfl, -⟩
  exact Place.precedes_of_rank (increasing _ _ (by omega)) behind behind'

end Listed

-----------------------------------------------------------------------------------------
-- From a node to its parts
-----------------------------------------------------------------------------------------

/-- The step leads to a node in this role. -/
inductive Part.LeadsTo : Part → Node → Prop
  | stmt {index stmt} : LeadsTo (.stmt index) (.stmt stmt)
  | value {expr} : LeadsTo .value (.value expr)
  | condition {expr} : LeadsTo .condition (.condition expr)
  | caseLabel {index literal} : LeadsTo (.caseLabel index) (.label literal)
  | caseBody {index body} : LeadsTo (.caseBody index) (.block body)
  | pre {body} : LeadsTo .pre (.block body)
  | loopCondition {expr} : LeadsTo .loopCondition (.loopCondition expr)
  | post {body} : LeadsTo .post (.block body)
  | body {body} : LeadsTo .body (.block body)
  | arg {index callee expr} : LeadsTo (.arg index) (.arg callee index expr)

/-- The parts of an expression are the arguments of a call. -/
theorem Expr.part?_eq_some {expr : Expr} {child : Node} (leads : expr.part? part = some child)
    : ∃ callee index arg, part = .arg index ∧ child = .arg callee index arg := by
  cases expr with
  | ident | literal => simp [part?] at leads
  | call span callee args =>
      cases part with
      | arg index =>
          simp only [part?, Option.map_eq_some_iff] at leads
          obtain ⟨arg, -, rfl⟩ := leads
          exact ⟨callee, index, arg, rfl, rfl⟩
      | _ => simp [part?] at leads

theorem Expr.part?_leadsTo {expr : Expr} {child : Node} (leads : expr.part? part = some child)
    : part.LeadsTo child := by
  obtain ⟨_, _, _, rfl, rfl⟩ := part?_eq_some leads
  constructor

theorem Stmt.part?_leadsTo {stmt : Stmt} {child : Node} (leads : stmt.part? part = some child)
    : part.LeadsTo child := by
  cases stmt with
  | switch =>
      cases part with
      | condition =>
          cases leads
          constructor
      | caseLabel =>
          obtain ⟨case, -, leads⟩ := Option.bind_eq_some_iff.mp leads
          obtain ⟨label, -, rfl⟩ := Option.map_eq_some_iff.mp leads
          constructor
      | caseBody =>
          obtain ⟨case, -, rfl⟩ := Option.map_eq_some_iff.mp leads
          constructor
      | _ => cases leads
  | declare _ _ value =>
      cases value with
      | none => cases part <;> cases leads
      | some =>
          cases part with
          | value =>
              cases leads
              constructor
          | _ => cases leads
  | _ => cases part <;> cases leads <;> constructor

theorem Block.part?_leadsTo {block : Block} {child : Node} (leads : block.part? part = some child)
    : part.LeadsTo child := by
  cases part with
  | stmt =>
      obtain ⟨stmt, -, rfl⟩ := Option.map_eq_some_iff.mp leads
      constructor
  | _ => cases leads

namespace Node

variable {expr : Expr} {child found : Node}

/-- What split form objects to at a place below a part of a node. Only below what a statement
evaluates by itself does it object to arguments.
-/
def PartOffends (dialect : Dialect) (child : Node) : Part → Place → SplitViolation → Prop
  | .value => child.OffendsInside dialect
  | _ => child.Offends dialect

theorem part?_leadsTo (leads : node.part? part = some child) : part.LeadsTo child := by
  cases node with
  | block => exact Block.part?_leadsTo leads
  | stmt => exact Stmt.part?_leadsTo leads
  | value | condition | loopCondition | arg => exact Expr.part?_leadsTo leads
  | label => cases leads

theorem at?_cons_eq_some_iff
    : node.at? (part :: place) = some found
      ↔ ∃ child, node.part? part = some child ∧ child.at? place = some found :=
  Option.bind_eq_some_iff

theorem offendsInside_cons_iff
    : node.OffendsInside dialect (part :: place) violation
      ↔ ∃ child, node.part? part = some child ∧ child.OffendsInside dialect place violation := by
  constructor
  · intro offends
    cases offends with
    | nestedCall found =>
        obtain ⟨child, leads, found⟩ := at?_cons_eq_some_iff.mp found
        exact ⟨child, leads, .nestedCall found⟩
    | literalArgument found outlinable =>
        obtain ⟨child, leads, found⟩ := at?_cons_eq_some_iff.mp found
        exact ⟨child, leads, .literalArgument found outlinable⟩
  · rintro ⟨child, leads, offends⟩
    cases offends with
    | nestedCall found => exact .nestedCall (at?_cons_eq_some_iff.mpr ⟨child, leads, found⟩)
    | literalArgument found outlinable =>
        exact .literalArgument (at?_cons_eq_some_iff.mpr ⟨child, leads, found⟩) outlinable

/-- Of nodes alone, only arguments are objected to. -/
theorem OffendsInside.isArg (offends : node.OffendsInside dialect [] violation)
    : ∃ callee index arg, node = .arg callee index arg := by
  cases offends with
  | nestedCall found | literalArgument found => exact ⟨_, _, _, Option.some.inj found⟩

theorem offends_nil_iff
    : node.Offends dialect [] violation
      ↔ ∃ expr, node = .condition expr ∧ expr.isIdent = false
        ∧ violation = .complexCondition expr.span := by
  constructor
  · intro offends
    generalize here : ([] : Place) = place at offends
    cases offends with
    | condition found complex =>
        subst here
        exact ⟨_, Option.some.inj found, complex, rfl⟩
    | @argument front => simp at here
  · rintro ⟨expr, rfl, complex, rfl⟩
    exact .condition rfl complex

/-- Below an expression there are only arguments, by induction on the place. -/
theorem eq_arg_of_at? (same : node.part? = expr.part?)
    (leads : node.at? (part :: place) = some found)
    : (∃ callee index arg, found = .arg callee index arg)
      ∧ ∀ step ∈ part :: place, ∃ index, step = .arg index := by
  induction place generalizing node expr part with
  | nil =>
      obtain ⟨child, leads, here⟩ := at?_cons_eq_some_iff.mp leads
      obtain ⟨callee, index, arg, rfl, rfl⟩ := Expr.part?_eq_some (same ▸ leads)
      exact ⟨⟨callee, index, arg, (Option.some.inj here).symm⟩, by simp⟩
  | cons step rest ih =>
      obtain ⟨child, leads, below⟩ := at?_cons_eq_some_iff.mp leads
      obtain ⟨callee, index, arg, rfl, rfl⟩ := Expr.part?_eq_some (same ▸ leads)
      have asExpr : (Node.arg callee index arg).part? = arg.part? := rfl
      obtain ⟨isArg, steps⟩ := ih asExpr below
      exact ⟨isArg, List.forall_mem_cons.mpr ⟨⟨index, rfl⟩, steps⟩⟩

/-- Nothing that is objected to from a statement on stands below an expression. -/
theorem not_offends_of_expr (same : node.part? = expr.part?)
    : ¬ node.Offends dialect (part :: place) violation := by
  generalize whole : part :: place = below
  intro offends
  cases offends with
  | condition found =>
      subst whole
      obtain ⟨⟨_, _, _, other⟩, -⟩ := eq_arg_of_at? same found
      cases other
  | @argument front _ _ _ top =>
      cases front with
      | nil | cons =>
          obtain ⟨⟨_, _, _, other⟩, -⟩ := eq_arg_of_at? same top
          cases other

/-- What a statement evaluates by itself is objected to only from there on. -/
theorem not_offends_value : ¬ (Node.value expr).Offends dialect place violation := by
  cases place with
  | nil => simp [offends_nil_iff]
  | cons => exact not_offends_of_expr rfl

theorem partOffends_eq (other : part ≠ .value)
    : child.PartOffends dialect part = child.Offends dialect := by
  cases part <;> first | rfl | contradiction

theorem Offends.partOffends (offends : child.Offends dialect place violation)
    (leads : node.part? part = some child)
    : child.PartOffends dialect part place violation := by
  by_cases isValue : part = .value
  · subst isValue
    cases part?_leadsTo leads with
    | value => exact absurd offends not_offends_value
  · rwa [partOffends_eq isValue]

theorem offends_cons_iff
    : node.Offends dialect (part :: place) violation
      ↔ ∃ child, node.part? part = some child ∧ child.PartOffends dialect part place violation := by
  constructor
  · intro offends
    generalize whole : part :: place = below at offends
    cases offends with
    | condition found complex =>
        subst whole
        obtain ⟨child, leads, found⟩ := at?_cons_eq_some_iff.mp found
        exact ⟨child, leads, (Offends.condition found complex).partOffends leads⟩
    | @argument front _ _ _ top inside =>
        cases front with
        | nil =>
            obtain ⟨rfl, rfl⟩ := List.cons.inj whole
            obtain ⟨child, leads, here⟩ := at?_cons_eq_some_iff.mp top
            obtain rfl := Option.some.inj here
            exact ⟨_, leads, inside⟩
        | cons step front =>
            obtain ⟨rfl, rfl⟩ := List.cons.inj whole
            obtain ⟨child, leads, top⟩ := at?_cons_eq_some_iff.mp top
            exact ⟨child, leads, (Offends.argument top inside).partOffends leads⟩
  · rintro ⟨child, leads, offends⟩
    by_cases isValue : part = .value
    · subst isValue
      cases part?_leadsTo leads with
      | @value expr =>
          have top : node.at? ([] ++ [.value]) = some (.value expr) :=
            at?_cons_eq_some_iff.mpr ⟨_, leads, rfl⟩
          exact .argument top offends
    · rw [partOffends_eq isValue] at offends
      cases offends with
      | condition found complex =>
          exact .condition (at?_cons_eq_some_iff.mpr ⟨child, leads, found⟩) complex
      | @argument front _ value _ top inside =>
          have top : node.at? (part :: front ++ [.value]) = some (.value value) :=
            at?_cons_eq_some_iff.mpr ⟨child, leads, top⟩
          exact .argument top inside

end Node

-----------------------------------------------------------------------------------------
-- Expressions
-----------------------------------------------------------------------------------------

/-- The places of arguments that stand from `start` on in a call, and of what is inside them. -/
abbrev Expr.ArgumentsOffend (dialect : Dialect) (callee : Callee) (start : Nat) (args : List Expr)
    : Scope :=
  Among .arg (fun index arg => (Node.arg callee index arg).OffendsInside dialect) start args

namespace Node

variable {callee inner : Callee} {index : Nat} {span : Span} {args : List Expr}

/-- Below a call stand its arguments. -/
theorem offendsInside_of_call (same : node.part? = (Expr.call span callee args).part?)
    : node.OffendsInside dialect (part :: place) violation
      ↔ Expr.ArgumentsOffend dialect callee 0 args (part :: place) violation := by
  rw [offendsInside_cons_iff, same, Expr.ArgumentsOffend, among_zero_iff]
  cases part <;> simp [Expr.part?, and_left_comm]

theorem not_offendsInside_value_nil {value : Expr}
    : ¬ (Node.value value).OffendsInside dialect [] violation := by
  intro offends
  obtain ⟨_, _, _, other⟩ := offends.isArg
  cases other

theorem not_offendsInside_ident {ident : Ident}
    : ¬ (Node.arg callee index (.ident ident)).OffendsInside dialect place violation := by
  cases place with
  | nil =>
      intro offends
      cases offends with
      | nestedCall found | literalArgument found => cases Option.some.inj found
  | cons => simp [offendsInside_cons_iff, part?, Expr.part?]

theorem offendsInside_literal_iff {literal : Literal}
    : (Node.arg callee index (.literal literal)).OffendsInside dialect place violation
      ↔ dialect.requiresLiteral callee index = false
        ∧ place = [] ∧ violation = .literalArgument literal.span index := by
  cases place with
  | nil =>
      constructor
      · intro offends
        cases offends with
        | nestedCall found => cases Option.some.inj found
        | literalArgument found outlinable =>
            cases Option.some.inj found
            exact ⟨outlinable, rfl, rfl⟩
      · rintro ⟨outlinable, -, rfl⟩
        exact .literalArgument rfl outlinable
  | cons => simp [offendsInside_cons_iff, part?, Expr.part?]

theorem offendsInside_call_iff
    : (Node.arg callee index (.call span inner args)).OffendsInside dialect place violation
      ↔ (place = [] ∧ violation = .nestedCall span)
        ∨ Expr.ArgumentsOffend dialect inner 0 args place violation := by
  cases place with
  | nil =>
      constructor
      · intro offends
        cases offends with
        | nestedCall found =>
            cases Option.some.inj found
            exact .inl ⟨rfl, rfl⟩
        | literalArgument found => cases Option.some.inj found
      · rintro (⟨-, rfl⟩ | below)
        · exact .nestedCall rfl
        · exact absurd below not_among_nil
  | cons part rest =>
      have same : (Node.arg callee index (.call span inner args)).part?
          = (Expr.call span inner args).part? := rfl
      simp [offendsInside_of_call same]

end Node

mutual
/-- The check lists what split form objects to in an argument, the argument itself first. -/
theorem Expr.argument_listed (callee : Callee) (index : Nat)
    : ∀ arg : Expr, Listed ((Node.arg callee index arg).OffendsInside dialect)
        (arg.argumentViolations dialect callee index)
  | .ident _ => .nil fun _ _ => Node.not_offendsInside_ident
  | .literal constant => by
      cases required : dialect.requiresLiteral callee index with
      | true =>
          rw [argumentViolations, if_pos required]
          exact .nil fun _ _ => by simp [Node.offendsInside_literal_iff, required]
      | false =>
          rw [argumentViolations, if_neg (by simp [required])]
          exact (Listed.singleton [] _).congr fun _ _ => by
            simp [Node.offendsInside_literal_iff, required]
  | .call span inner args => by
      refine ((Listed.singleton [] _).append (arguments_listed inner 0 args) ?_).congr
        fun _ _ => Node.offendsInside_call_iff
      rintro _ _ place' _ ⟨rfl, -⟩ below
      cases place' with
      | nil => exact absurd below not_among_nil
      | cons part rest => exact Place.nil_precedes part rest
/-- The check lists what split form objects to in the arguments of a call, from the left. -/
theorem Expr.arguments_listed (callee : Callee) (start : Nat)
    : ∀ args : List Expr, Listed (Expr.ArgumentsOffend dialect callee start args)
        (Expr.argumentsViolations dialect callee start args)
  | [] => .among_nil
  | arg :: rest => (argument_listed callee start arg).among_cons (fun _ _ less => less)
      (arguments_listed callee (start + 1) rest)
end

/-- The check lists what split form objects to below what a statement evaluates by itself. -/
theorem Expr.value_listed
    : ∀ value : Expr,
        Listed ((Node.value value).OffendsInside dialect) (value.violations dialect)
  | .ident _ | .literal _ => .nil fun place violation => by
      cases place with
      | nil => exact Node.not_offendsInside_value_nil
      | cons => simp [Node.offendsInside_cons_iff, Node.part?, Expr.part?]
  | .call span callee args => (arguments_listed callee 0 args).congr fun place violation => by
      cases place with
      | nil => exact iff_of_false Node.not_offendsInside_value_nil not_among_nil
      | cons part rest =>
          have same : (Node.value (.call span callee args)).part?
              = (Expr.call span callee args).part? := rfl
          exact Node.offendsInside_of_call same

-----------------------------------------------------------------------------------------
-- Statements
-----------------------------------------------------------------------------------------

/-- The check lists at most a condition itself. -/
theorem Expr.condition_listed (condition : Expr)
    : Listed ((Node.condition condition).Offends dialect) condition.conditionViolations := by
  have below {part place violation}
      : ¬ (Node.condition condition).Offends dialect (part :: place) violation :=
    Node.not_offends_of_expr rfl
  cases condition with
  | ident =>
      refine .nil fun place violation => ?_
      cases place with
      | nil => simp [Node.offends_nil_iff, isIdent]
      | cons => exact below
  | literal | call =>
      refine (Listed.singleton [] _).congr fun place violation => ?_
      cases place with
      | nil => simp [Node.offends_nil_iff, isIdent]
      | cons => simp [below]

/-- The places of statements that stand from `start` on. -/
abbrev Stmt.ListOffends (dialect : Dialect) (start : Nat) (stmts : List Stmt)
    : Scope :=
  Among .stmt (fun _ stmt => (Node.stmt stmt).Offends dialect) start stmts

/-- The places of the bodies of cases that stand from `start` on. -/
abbrev Stmt.CasesOffend (dialect : Dialect) (start : Nat) (cases : List Case)
    : Scope :=
  Among .caseBody (fun _ case => (Node.block case.body).Offends dialect) start cases

namespace Node

variable {span : Span} {stmt : Stmt}

/-- Nothing is objected to in a loop condition. -/
theorem not_offends_loopCondition {condition : Expr}
    : ¬ (Node.loopCondition condition).Offends dialect place violation := by
  cases place with
  | nil => simp [offends_nil_iff]
  | cons => exact not_offends_of_expr rfl

/-- Nothing is objected to in a case label. -/
theorem not_offends_label {label : Literal}
    : ¬ (Node.label label).Offends dialect place violation := by
  cases place with
  | nil => simp [offends_nil_iff]
  | cons => simp [offends_cons_iff, part?]

theorem not_offends_of_leaf (leaf : ∀ part, stmt.part? part = none)
    : ¬ (Node.stmt stmt).Offends dialect place violation := by
  cases place with
  | nil => simp [offends_nil_iff]
  | cons => simp [offends_cons_iff, part?, leaf]

/-- What is objected to in a statement of one part is below that part. -/
theorem listed_of_single (part : Part) (child : Node)
    (listed : Listed (child.PartOffends dialect part) violations)
    (single : ∀ other, stmt.part? other = if other = part then some child else none)
    : Listed ((Node.stmt stmt).Offends dialect) violations := by
  refine (listed.under part).congr fun place violation => ?_
  cases place with
  | nil => simp [offends_nil_iff, not_under_nil]
  | cons other rest =>
      rw [offends_cons_iff, under_cons_iff, part?, single]
      by_cases same : other = part <;> simp [same]

theorem offends_branch_iff {condition : Expr} {body : Block}
    : (Node.stmt (.branch span condition body)).Offends dialect place violation
      ↔ Under .condition ((Node.condition condition).Offends dialect) place violation
        ∨ Under .body ((Node.block body).Offends dialect) place violation := by
  cases place with
  | nil => simp [offends_nil_iff, not_under_nil]
  | cons part rest =>
      rw [offends_cons_iff, under_cons_iff, under_cons_iff]
      cases part <;> simp [part?, Stmt.part?, PartOffends]

theorem offends_switch_iff {subject : Expr} {cases : List Case}
    : (Node.stmt (.switch span subject cases)).Offends dialect place violation
      ↔ Under .condition ((Node.condition subject).Offends dialect) place violation
        ∨ Stmt.CasesOffend dialect 0 cases place violation := by
  cases place with
  | nil => simp [offends_nil_iff, not_among_nil, not_under_nil]
  | cons part rest =>
      rw [offends_cons_iff, Stmt.CasesOffend, among_zero_iff, under_cons_iff]
      cases part with
      | caseLabel =>
          refine iff_of_false ?_ (by simp)
          rintro ⟨child, leads, offends⟩
          cases part?_leadsTo leads with
          | caseLabel => exact not_offends_label offends
      | _ => simp [part?, Stmt.part?, PartOffends, and_left_comm]

theorem offends_loop_iff {condition : Expr} {pre post body : Block}
    : (Node.stmt (.loop span pre condition post body)).Offends dialect place violation
      ↔ (Under .pre ((Node.block pre).Offends dialect) place violation
        ∨ Under .post ((Node.block post).Offends dialect) place violation)
        ∨ Under .body ((Node.block body).Offends dialect) place violation := by
  cases place with
  | nil => simp [offends_nil_iff, not_under_nil]
  | cons part rest =>
      simp only [offends_cons_iff, under_cons_iff]
      cases part <;> simp [part?, Stmt.part?, PartOffends, not_offends_loopCondition]

theorem offends_block_iff {block : Block}
    : (Node.block block).Offends dialect place violation
      ↔ Stmt.ListOffends dialect 0 block.stmts place violation := by
  cases place with
  | nil => simp [offends_nil_iff, not_among_nil]
  | cons part rest =>
      rw [offends_cons_iff, Stmt.ListOffends, among_zero_iff]
      cases part <;> simp [part?, Block.part?, PartOffends, and_left_comm]

end Node

mutual
/-- The check lists what split form objects to in a statement, by induction over the statement. -/
theorem Stmt.listed
    : ∀ stmt : Stmt, Listed ((Node.stmt stmt).Offends dialect) (stmt.violations dialect)
  | .expr _ value | .assign _ _ value | .declare _ _ (some value) =>
      Node.listed_of_single .value (.value value) value.value_listed fun other => by
        cases other <;> simp [Stmt.part?]
  | .define _ _ _ _ body | .block body =>
      Node.listed_of_single .body (.block body) body.listed fun other => by
        cases other <;> simp [Stmt.part?]
  | .declare _ _ none | .breakLoop _ | .continueLoop _ | .leave _ =>
      .nil fun _ _ => Node.not_offends_of_leaf fun other => by cases other <;> simp [Stmt.part?]
  | .branch _ condition body =>
      ((condition.condition_listed.under .condition).append_under (body.listed.under .body)
        (by decide)).congr fun _ _ => Node.offends_branch_iff
  | .switch _ subject cases => by
      refine ((subject.condition_listed.under .condition).append
        (Stmt.case_listed 0 cases) ?_).congr fun _ _ => Node.offends_switch_iff
      rintro _ _ _ _ ⟨rest, rfl, -⟩ ⟨n, _, -, rest', rfl, -⟩
      exact Place.precedes_of_rank (by simp [Part.rank]) rest rest'
  | .loop _ pre _ post body => by
      refine (((pre.listed.under .pre).append_under (post.listed.under .post)
        (by decide)).append (body.listed.under .body) ?_).congr
        fun _ _ => Node.offends_loop_iff
      rintro _ _ _ _ (⟨rest, rfl, -⟩ | ⟨rest, rfl, -⟩) ⟨rest', rfl, -⟩
      · exact Place.precedes_of_rank (by decide) rest rest'
      · exact Place.precedes_of_rank (by decide) rest rest'
theorem Block.listed
    : ∀ block : Block, Listed ((Node.block block).Offends dialect) (block.violations dialect)
  | ⟨_, stmts⟩ => (Stmt.list_listed 0 stmts).congr fun _ _ => Node.offends_block_iff
theorem Stmt.list_listed (start : Nat)
    : ∀ stmts : List Stmt, Listed (Stmt.ListOffends dialect start stmts)
        (Stmt.listViolations dialect stmts)
  | [] => .among_nil
  | stmt :: rest => stmt.listed.among_cons (fun _ _ less => less)
      (Stmt.list_listed (start + 1) rest)
theorem Stmt.case_listed (start : Nat)
    : ∀ cases : List Case, Listed (Stmt.CasesOffend dialect start cases)
        (Stmt.caseViolations dialect cases)
  | [] => .among_nil
  | ⟨_, _, body⟩ :: rest => body.listed.among_cons
      (fun _ _ less => by simp only [Part.rank]; omega) (Stmt.case_listed (start + 1) rest)
end

-----------------------------------------------------------------------------------------
-- Places that nothing objects to
-----------------------------------------------------------------------------------------

/-- Places in loop conditions and labels, and places inside other conditions. -/
def Place.IsExempt : Place → Prop
  | [] => False
  | .loopCondition :: _ | .caseLabel _ :: _ => True
  | .condition :: rest => rest ≠ []
  | _ :: rest => IsExempt rest

namespace Node

theorem OffendsInside.eq_arg {expr : Expr} (same : node.part? = expr.part?)
    (offends : node.OffendsInside dialect place violation)
    : ∀ step ∈ place, ∃ index, step = .arg index := by
  cases place with
  | nil => simp
  | cons =>
      cases offends with
      | nestedCall found | literalArgument found => exact (eq_arg_of_at? same found).2

theorem not_isExempt_of_eq_arg (steps : ∀ step ∈ place, ∃ index, step = .arg index)
    : ¬ Place.IsExempt place := by
  induction place with
  | nil => exact id
  | cons step rest ih =>
      obtain ⟨⟨index, rfl⟩, others⟩ := List.forall_mem_cons.mp steps
      exact ih others

/-- Nothing is objected to at an exempt place, by induction on the place. -/
theorem Offends.not_isExempt (offends : node.Offends dialect place violation)
    : ¬ place.IsExempt := by
  induction place generalizing node with
  | nil => exact id
  | cons part rest ih =>
      obtain ⟨child, leads, offends⟩ := offends_cons_iff.mp offends
      cases part?_leadsTo leads with
      | @value expr =>
          have inside : (Node.value expr).OffendsInside dialect rest violation := offends
          have asExpr : (Node.value expr).part? = expr.part? := rfl
          have plain : ¬ Place.IsExempt rest := not_isExempt_of_eq_arg (inside.eq_arg asExpr)
          exact plain
      | loopCondition => exact absurd offends not_offends_loopCondition
      | caseLabel => exact absurd offends not_offends_label
      | condition =>
          cases rest with
          | nil => exact fun inside => inside rfl
          | cons => exact absurd offends (not_offends_of_expr rfl)
      | stmt | caseBody | pre | post | body | arg => exact ih offends

end Node

-----------------------------------------------------------------------------------------
-- The check
-----------------------------------------------------------------------------------------

/-- The first of the violations is that of the first place. -/
theorem Listed.first (listed : Listed scope (violation :: violations))
    : ∃ place, scope place violation
      ∧ ∀ other found, scope other found → other = place ∨ place.Precedes other := by
  rcases listed with ⟨_ | ⟨mark, marks⟩, texts, ordered, complete⟩
  · cases texts
  · obtain ⟨rfl, -⟩ := List.cons.inj texts
    refine ⟨mark.1, (complete _ _).mp (List.mem_cons_self ..), ?_⟩
    intro other found inScope
    rcases List.mem_cons.mp ((complete _ _).mpr inScope) with rfl | later
    · exact .inl rfl
    · exact .inr ((List.pairwise_cons.mp ordered).1 _ later)

/-- The check lists the violations of exactly the places that split form objects to, one for each
and in the order of the text. None of them is in a loop condition or a label, or inside another
condition. A block without such places passes, and otherwise the check fails at the first of them.
-/
theorem Block.violations_listed (dialect : Dialect) (block : Block)
    : Listed (block.Offends dialect) (block.violations dialect)
      ∧ (∀ place violation, block.Offends dialect place violation → ¬ place.IsExempt)
      ∧ (block.ensureSplitForm dialect = .ok () ↔ block.violations dialect = [])
      ∧ ∀ error, block.ensureSplitForm dialect = .error error →
          ∃ place violation message,
            block.Offends dialect place violation
            ∧ (∀ other found, block.Offends dialect other found →
                other = place ∨ place.Precedes other)
            ∧ error = .malformedAt violation.span "split-form" message := by
  refine ⟨block.listed, fun _ _ offends => Node.Offends.not_isExempt offends,
    ensureSplitForm_eq_ok_iff.trans isSplitForm_iff, ?_⟩
  intro error failed
  have listed : Listed (block.Offends dialect) _ := block.listed
  rw [ensureSplitForm] at failed
  split at failed
  · cases failed
  · next violation rest violations =>
      rw [violations] at listed
      obtain ⟨place, offends, first⟩ := listed.first
      cases failed
      exact ⟨place, violation, _, offends, first, rfl⟩

/-- In `if f(1) { g(x, h(), 2) }` the literal inside the condition is not listed. -/
example
    : (Block.ofStmts [
        .branch .null
          (.call .null (.ofName "f") [.literal (.number "1")])
          (.ofStmts [
            .ofExpr (.call .null (.ofName "g")
              [.ofName "x", .call .null (.ofName "h") [], .literal (.number "2")])
          ])
      ]).violations .stack
      = [.complexCondition .null, .nestedCall .null, .literalArgument .null 2] := by decide

end StackIR
