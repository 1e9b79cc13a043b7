import StackIR.Dialect
import StackIR.Error
import StackIR.Expr

/-! Argument slots: which arguments of a call may be computed ahead of it.

A dialect assigns a slot to each argument of a well-formed call, and says what is wrong
with any other call.
-/

namespace StackIR

inductive Slot where
  /-- The argument must stay the literal that it is. -/
  | literalOnly
  /-- The argument may be replaced by a variable that holds its value. -/
  | outlinable
deriving DecidableEq, Repr

/-- What is wrong with a call, and where. -/
inductive CallFault where
  | unknownBuiltin (span : Span) (handle : BuiltinHandle) (dialect : String)
  | builtinArity (span : Span) (name : Name) (parameters arguments : Nat)
  | verbatimMetadata (span : Span) (name : Name)
  | verbatimArity (span : Span) (name : Name) (parameters arguments : Nat)
  | verbatimNonLiteral (span : Span) (name : Name)
deriving DecidableEq, Repr

namespace CallFault

def span : CallFault → Span
  | unknownBuiltin span _ _ | builtinArity span _ _ _ | verbatimMetadata span _
  | verbatimArity span _ _ _ | verbatimNonLiteral span _ => span

def code : CallFault → String
  | unknownBuiltin .. => "unknown-builtin"
  | builtinArity .. => "builtin-arity"
  | verbatimMetadata .. => "verbatim-metadata"
  | verbatimArity .. => "verbatim-arity"
  | verbatimNonLiteral .. => "verbatim-non-literal"

/-- The words for a call of `name` with the wrong number of arguments. -/
def arityText (name : Name) (parameters arguments : Nat) : String :=
  "`" ++ name ++ "` takes " ++ Decimal.text parameters ++ " arguments but is called with "
    ++ Decimal.text arguments

def message : CallFault → String
  | unknownBuiltin _ handle dialect =>
      "builtin handle " ++ Decimal.text handle.index.toNat ++ " is not part of dialect `"
        ++ dialect ++ "`"
  | builtinArity _ name parameters arguments =>
      "builtin " ++ arityText name parameters arguments
  | verbatimMetadata _ name =>
      "`" ++ name ++ "` declares parameters that are not literal-only"
  | verbatimArity _ name parameters arguments => arityText name parameters arguments
  | verbatimNonLiteral _ name => "arguments of `" ++ name ++ "` must be literals"

def toError (fault : CallFault) : Error := .malformedAt fault.span fault.code fault.message

end CallFault

/-- The slot at a position of a builtin. -/
def Builtin.slot (builtin : Builtin) (position : Nat) : Slot :=
  if builtin.isLiteralArgument position then .literalOnly else .outlinable

/-- The slots of a call of `builtin`. -/
def Builtin.slots (builtin : Builtin) (call : Call) : Except CallFault (List Slot) :=
  if builtin.parameters = call.args.length then
    .ok ((List.range call.args.length).map builtin.slot)
  else
    .error (.builtinArity call.span builtin.name builtin.parameters call.args.length)

/-- The slots of a call of `function`, whose name stands at `span`. -/
def VerbatimFunction.slots (function : VerbatimFunction) (span : Span) (call : Call)
    : Except CallFault (List Slot) :=
  if !function.allLiteral then
    .error (.verbatimMetadata span function.name)
  else if function.parameters ≠ call.args.length then
    .error (.verbatimArity call.span function.name function.parameters call.args.length)
  else
    match call.args.find? (!·.isLiteral) with
    | some arg => .error (.verbatimNonLiteral arg.span function.name)
    | none => .ok (call.args.map fun _ => .literalOnly)

/-- The slots of a call, one for each argument, in order. A verbatim function's own
description is checked before the arity of its call, and the arity before the arguments.
-/
def Dialect.slots (dialect : Dialect) (call : Call) : Except CallFault (List Slot) :=
  match call.callee with
  | .builtin span handle =>
      match dialect.builtin? handle with
      | none => .error (.unknownBuiltin span handle dialect.name)
      | some builtin => builtin.slots call
  | .verbatim span handle => (dialect.verbatim handle).slots span call
  | .user _ => .ok (call.args.map fun _ => .outlinable)

theorem Builtin.slots_eq_ok_iff {builtin : Builtin} {call : Call} {slots : List Slot}
    : builtin.slots call = .ok slots
      ↔ builtin.parameters = call.args.length
        ∧ slots = (List.range call.args.length).map builtin.slot := by
  rw [Builtin.slots]
  split
  · next arity => simp [arity, eq_comm]
  · next arity => simp [arity]

theorem VerbatimFunction.slots_eq_ok_iff {function : VerbatimFunction} {span : Span}
    {call : Call} {slots : List Slot}
    : function.slots span call = .ok slots
      ↔ function.allLiteral = true ∧ function.parameters = call.args.length
        ∧ (∀ arg ∈ call.args, arg.isLiteral = true)
        ∧ slots = call.args.map fun _ => .literalOnly := by
  rw [VerbatimFunction.slots]
  split
  · next metadata => simp_all
  · next metadata =>
      split
      · next arity => simp [arity]
      · next arity =>
          split
          · next arg found =>
              have member := List.mem_of_find?_eq_some found
              have computed := List.find?_some found
              simp only [reduceCtorEq, false_iff]
              intro holds
              rcases holds with ⟨-, -, literals, -⟩
              simp [literals arg member] at computed
          · next found =>
              have literals : ∀ arg ∈ call.args, arg.isLiteral = true := by
                simpa using List.find?_eq_none.mp found
              simp_all [eq_comm (b := slots)]

/-- A well-formed call has one slot for each argument. -/
theorem Dialect.length_of_slots_eq_ok {dialect : Dialect} {call : Call} {slots : List Slot}
    (ok : dialect.slots call = .ok slots)
    : slots.length = call.args.length := by
  grind [Dialect.slots, Builtin.slots_eq_ok_iff, VerbatimFunction.slots_eq_ok_iff]

end StackIR
