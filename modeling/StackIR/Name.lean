import Std.Data.TreeSet

/-! Names of variables and functions, and finite sets of them. -/

namespace StackIR

/-- The name of a variable or of a function. -/
abbrev Name := String

/-- A finite set of names, listed in the order of their code points. -/
abbrev NameSet := Std.TreeSet Name

end StackIR
