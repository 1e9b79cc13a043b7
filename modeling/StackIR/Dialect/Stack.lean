import StackIR.Dialect

/-! The stack machine: its builtins in the order of their handles. -/

namespace StackIR.Dialect

/-- The builtins of the stack machine: name, parameters, returns, and required literals.
-/
def stackBuiltins : List Builtin := [
  ⟨"stop", 0, 0, []⟩,
  ⟨"add", 2, 1, []⟩,
  ⟨"sub", 2, 1, []⟩,
  ⟨"mul", 2, 1, []⟩,
  ⟨"div", 2, 1, []⟩,
  ⟨"sdiv", 2, 1, []⟩,
  ⟨"mod", 2, 1, []⟩,
  ⟨"exp", 2, 1, []⟩,
  ⟨"not", 1, 1, []⟩,
  ⟨"lt", 2, 1, []⟩,
  ⟨"gt", 2, 1, []⟩,
  ⟨"slt", 2, 1, []⟩,
  ⟨"sgt", 2, 1, []⟩,
  ⟨"eq", 2, 1, []⟩,
  ⟨"iszero", 1, 1, []⟩,
  ⟨"and", 2, 1, []⟩,
  ⟨"or", 2, 1, []⟩,
  ⟨"xor", 2, 1, []⟩,
  ⟨"shl", 2, 1, []⟩,
  ⟨"shr", 2, 1, []⟩,
  ⟨"sar", 2, 1, []⟩,
  ⟨"keccak256", 2, 1, []⟩,
  ⟨"pop", 1, 0, []⟩,
  ⟨"mload", 1, 1, []⟩,
  ⟨"mstore", 2, 0, []⟩,
  ⟨"mstore8", 2, 0, []⟩,
  ⟨"sload", 1, 1, []⟩,
  ⟨"sstore", 2, 0, []⟩,
  ⟨"calldataload", 1, 1, []⟩,
  ⟨"calldatasize", 0, 1, []⟩,
  ⟨"caller", 0, 1, []⟩,
  ⟨"callvalue", 0, 1, []⟩,
  ⟨"gas", 0, 1, []⟩,
  ⟨"call", 7, 1, []⟩,
  ⟨"return", 2, 0, []⟩,
  ⟨"revert", 2, 0, []⟩,
  ⟨"datacopy", 3, 0, []⟩,
  ⟨"datasize", 1, 1, [some .string]⟩,
  ⟨"dataoffset", 1, 1, [some .string]⟩,
  ⟨"loadimmutable", 1, 1, [some .string]⟩,
  ⟨"setimmutable", 3, 0, [none, some .string, none]⟩,
  ⟨"linkersymbol", 1, 1, [some .string]⟩,
  ⟨"memoryguard", 1, 1, [some .number]⟩
]

/-- The dialect of the stack machine. -/
def stack : Dialect := .ofTable "stack" stackBuiltins

end StackIR.Dialect
