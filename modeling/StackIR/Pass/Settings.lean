import StackIR.Text.Blank

/-! How sequences of passes are run. -/

namespace StackIR

/-- The words, next to the empty one, that switch a flag off. -/
def offWords : List String := ["0", "false", "FALSE", "False"]

/-- A flag is on unless its text, blanks at the ends aside, is empty or a word for off. -/
def isFlagOn (text : String) : Bool :=
  let word := trimBlanks text.toList
  !word.isEmpty && !offWords.contains (String.ofList word)

/-- With `verify`, the shape that a pass promises is checked after each of its runs. -/
structure Settings where
  verify : Bool := false
deriving DecidableEq, Repr

/-- The settings that the environment asks for, by the text of its flag if that is set. -/
def Settings.ofFlag (flag : Option String) : Settings := ⟨flag.any isFlagOn⟩

end StackIR
