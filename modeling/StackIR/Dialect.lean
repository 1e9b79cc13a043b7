import StackIR.Literal
import StackIR.Handle

/-! Dialects: what the target machine provides.

A dialect knows builtins by their handles, describes verbatim functions, and keeps names to
itself. It says of each argument position whether a literal is required there.
-/

namespace StackIR

/-- A builtin. `literalArguments` names, by position, the kind of literal that is
required; positions past its end take any expression.
-/
structure Builtin where
  name : Name
  parameters : Nat
  returns : Nat
  literalArguments : List (Option LiteralKind)
deriving DecidableEq, Repr

namespace Builtin

/-- The kind of literal that the position requires, if it requires one. -/
def literalArgument? (builtin : Builtin) (position : Nat) : Option LiteralKind :=
  builtin.literalArguments[position]?.join

def isLiteralArgument (builtin : Builtin) (position : Nat) : Bool :=
  (builtin.literalArgument? position).isSome

end Builtin

/-- What a dialect knows of a verbatim function. -/
structure VerbatimFunction where
  name : Name
  stackInputs : Nat
  returns : Nat
  parameters : Nat
  literalArguments : List (Option LiteralKind)
deriving DecidableEq, Repr

namespace VerbatimFunction

/-- A verbatim function takes its code as one string literal. -/
def ofHandle (handle : VerbatimHandle) : VerbatimFunction where
  name := handle.name
  stackInputs := handle.inputs.toNat
  returns := handle.outputs.toNat
  parameters := 1
  literalArguments := [some .string]

/-- Every parameter, and nothing else, is described as literal-only. -/
def allLiteral (function : VerbatimFunction) : Bool :=
  function.literalArguments.length == function.parameters
    && function.literalArguments.all Option.isSome

end VerbatimFunction

/-- A target machine. A handle that has no builtin is unknown to it. No variable of a
program may take a reserved name; unless a dialect says otherwise, the names of builtins and
of verbatim functions are reserved.
-/
structure Dialect where
  name : String
  builtin? : BuiltinHandle → Option Builtin
  findBuiltin? : Name → Option BuiltinHandle
  verbatim : VerbatimHandle → VerbatimFunction := VerbatimFunction.ofHandle
  findVerbatim? : Name → Option VerbatimHandle := VerbatimHandle.ofName?
  isReserved : Name → Bool :=
    fun name => (findBuiltin? name).isSome || (findVerbatim? name).isSome

namespace Dialect

/-- The handle of the first builtin in the table with the given name. -/
def findInTable? (builtins : List Builtin) (name : Name) : Option BuiltinHandle :=
  (builtins.findIdx? (·.name == name)).map fun index => ⟨.ofNat index⟩

/-- The dialect whose builtins are those of a table, each known by its place there. The
names in `reserved` are kept back besides those of builtins and verbatim functions.
-/
def ofTable (name : String) (builtins : List Builtin)
    (verbatim : VerbatimHandle → VerbatimFunction := VerbatimFunction.ofHandle)
    (reserved : List Name := [])
    : Dialect where
  name
  builtin? handle := builtins[handle.index.toNat]?
  findBuiltin? := findInTable? builtins
  verbatim
  isReserved name :=
    reserved.contains name || (findInTable? builtins name).isSome
      || (VerbatimHandle.ofName? name).isSome

/-- Every reserved name is listed or has the form of a verbatim name. -/
def ReservesOnly (dialect : Dialect) (listed : List Name) : Prop :=
  ∀ name, dialect.isReserved name = true
    → name ∈ listed ∨ (VerbatimHandle.ofName? name).isSome = true

/-- A table reserves finitely many names besides verbatim names. -/
theorem ofTable_reservesOnly (name : String) (builtins : List Builtin)
    (verbatim : VerbatimHandle → VerbatimFunction) (reserved : List Name)
    : (ofTable name builtins verbatim reserved).ReservesOnly
        (reserved ++ builtins.map Builtin.name) := by
  intro taken isReserved
  have found : (findInTable? builtins taken).isSome = true
      ↔ ∃ builtin ∈ builtins, builtin.name = taken := by
    simp [findInTable?]
  simpa only [ofTable, Bool.or_eq_true, List.contains_iff_mem, found, List.mem_append,
    List.mem_map] using isReserved

end Dialect
end StackIR
