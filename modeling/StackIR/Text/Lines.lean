/-! The lines of a text. A newline ends a line, and `linesOf_append` cuts the first line off. -/

namespace StackIR

/-- The lines of a text. What stands behind the last newline is a line unless it is empty. -/
def linesOf : List Char → List (List Char)
  | [] => []
  | c :: rest =>
      if c = '\n' then
        [] :: linesOf rest
      else
        match linesOf rest with
        | [] => [[c]]
        | line :: lines => (c :: line) :: lines

theorem linesOf_newline (rest : List Char) : linesOf ('\n' :: rest) = [] :: linesOf rest := by
  simp [linesOf]

theorem linesOf_cons {c : Char} (inLine : c ≠ '\n') {rest line : List Char}
    {lines : List (List Char)} (restLines : linesOf rest = line :: lines)
    : linesOf (c :: rest) = (c :: line) :: lines := by
  simp [linesOf, inLine, restLines]

theorem linesOf_last {c : Char} (inLine : c ≠ '\n') {rest : List Char}
    (restLines : linesOf rest = [])
    : linesOf (c :: rest) = [[c]] := by
  simp [linesOf, inLine, restLines]

/-- A line ends at the first newline. -/
theorem linesOf_append {line : List Char} (inLine : '\n' ∉ line) (rest : List Char)
    : linesOf (line ++ '\n' :: rest) = line :: linesOf rest := by
  induction line with
  | nil => exact linesOf_newline rest
  | cons c line ih =>
      rw [List.mem_cons, not_or] at inLine
      exact linesOf_cons (Ne.symm inLine.1) (ih inLine.2)

end StackIR
