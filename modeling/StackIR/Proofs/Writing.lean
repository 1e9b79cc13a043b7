import StackIR.Pen

/-! What a pen writes is the printed text.

Whatever is written, the pen is where it was before once it is done: moving to the left undoes a
move to the right, because it never reaches the start of the line. So a statement is written as it
is printed at the indentation of the pen (`Stmt.writes`), as long as its deepest line can be
indented.
-/

namespace StackIR

-----------------------------------------------------------------------------------------
-- Depth
-----------------------------------------------------------------------------------------

mutual
/-- How far the lines of a statement are moved to the right at most. -/
def Stmt.depth : Stmt → Nat
  | .expr _ _ | .assign _ _ _ | .declare _ _ _ | .breakLoop _ | .continueLoop _ | .leave _ => 0
  | .define _ _ _ _ body | .branch _ _ body | .block body => body.depth
  | .switch _ _ cases => Stmt.casesDepth cases
  | .loop _ pre _ post body => max pre.depth (max post.depth body.depth)
/-- An empty block takes no line of its own. -/
def Block.depth : Block → Nat
  | ⟨_, []⟩ => 0
  | ⟨_, stmt :: rest⟩ => Stmt.listDepth (stmt :: rest) + 1
def Stmt.listDepth : List Stmt → Nat
  | [] => 0
  | stmt :: rest => max stmt.depth (Stmt.listDepth rest)
def Stmt.casesDepth : List Case → Nat
  | [] => 0
  | ⟨_, _, body⟩ :: rest => max body.depth (Stmt.casesDepth rest)
end

/-- Lines that are `depth` steps to the right of `indent` can be indented. -/
def Fits (size indent depth : Nat) : Prop := indent + depth * size < UInt64.size

instance (size indent depth : Nat) : Decidable (Fits size indent depth) :=
  inferInstanceAs (Decidable (_ < _))

namespace Fits

variable {size indent depth depth' : Nat}

theorem mono (fits : Fits size indent depth) (le : depth' ≤ depth) : Fits size indent depth' :=
  Nat.lt_of_le_of_lt (Nat.add_le_add_left (Nat.mul_le_mul_right size le) indent) fits

theorem deeper (fits : Fits size indent (depth + 1)) : Fits size (indent + size) depth := by
  rw [Fits, Nat.succ_mul] at fits
  rw [Fits]
  omega

theorem room (fits : Fits size indent (depth + 1)) : indent + size < UInt64.size := by
  have deeper := fits.deeper
  rw [Fits] at deeper
  omega

theorem outermost (fits : Fits size indent depth) : Fits size 0 depth := by
  rw [Fits] at fits ⊢
  omega

theorem left (fits : Fits size indent (max depth depth')) : Fits size indent depth :=
  fits.mono (Nat.le_max_left _ _)

theorem right (fits : Fits size indent (max depth depth')) : Fits size indent depth' :=
  fits.mono (Nat.le_max_right _ _)

end Fits

-----------------------------------------------------------------------------------------
-- What is written at an indentation
-----------------------------------------------------------------------------------------

namespace Writing

/-- At the indentation `indent`, `action` writes `text` behind what is there, and leaves the
indentation as it was.
-/
def Writes (indent : Nat) (action : Writing) (text : List Char) : Prop :=
  ∀ written : List Char,
    action.run ⟨indent, written⟩ = some ((), ⟨indent, written ++ text⟩)

variable {indent : Nat}

theorem writes_put (text : List Char) : Writes indent (put text) text := fun _ => rfl

theorem writes_putIndent : Writes indent putIndent (spaces indent) := fun _ => rfl

theorem writes_pure : Writes indent (pure ()) [] := fun written => by simp

theorem writes_putReturns (returns : List Binding)
    : Writes indent (putReturns returns)
        (if returns.isEmpty then [] else Word.returns ++ printBindings returns) := by
  rw [putReturns]
  split
  · exact writes_pure
  · exact writes_put _

namespace Writes

variable {first second inside core : Writing} {text text' : List Char}

theorem andThen (front : Writes indent first text) (back : Writes indent second text')
    : Writes indent (do first; second) (text ++ text') := by
  intro written
  simp only [StateT.run_bind, front written, Option.bind_eq_bind, Option.bind_some,
    back (written ++ text), List.append_assoc]

/-- The pen comes back: what was added to the indentation is what is taken from it. -/
theorem indented {size : Nat} (room : indent + size < UInt64.size)
    (writes : Writes (indent + size) inside text)
    : Writes indent (indented size inside) text := by
  intro written
  have right : (moveRight size).run ⟨indent, written⟩
      = some ((), ⟨indent + size, written⟩) := by
    simp [moveRight, room]
  have left : (moveLeft size).run ⟨indent + size, written ++ text⟩
      = some ((), ⟨indent, written ++ text⟩) := by
    simp [moveLeft]
  simp only [Writing.indented, StateT.run_bind, right, writes written, left,
    Option.bind_eq_bind, Option.bind_some]

theorem line (writes : Writes indent core text) (style : PrintStyle) (span : Span)
    : Writes indent (line style span core)
        (spaces indent ++ (text ++ (style.spanComment span ++ ['\n']))) :=
  writes_putIndent.andThen (writes.andThen ((writes_put _).andThen (writes_put _)))

theorem congr (writes : Writes indent first text) (same : text = text')
    : Writes indent first text' :=
  same ▸ writes

end Writes
end Writing

open Writing

variable {style : PrintStyle}

mutual
/-- A statement is written as it is printed, by induction on the statement. -/
theorem Stmt.writes
    : ∀ (stmt : Stmt) (indent : Nat), Fits style.indentSize indent stmt.depth
      → Writes indent (stmt.write style) (stmt.print style indent)
  | .expr _ _, indent, _ | .assign _ _ _, indent, _ | .breakLoop _, indent, _
  | .continueLoop _, indent, _ | .leave _, indent, _ => by
      rw [Stmt.print_eq]
      exact (writes_put _).line style _
  | .declare _ bindings value, indent, _ => by
      rw [Stmt.print_eq]
      refine Writes.line ?_ style _
      cases value with
      | none => exact (writes_put _).andThen writes_pure
      | some value => exact (writes_put _).andThen (writes_put _)
  | .define _ name params returns body, indent, fits => by
      rw [Stmt.print_eq]
      refine Writes.line ?_ style _
      exact Writes.congr
        ((writes_put _).andThen ((writes_putReturns returns).andThen
          ((writes_put _).andThen (body.writes indent fits))))
        (by simp [Stmt.core])
  | .branch _ condition body, indent, fits => by
      rw [Stmt.print_eq]
      refine Writes.line ?_ style _
      exact Writes.congr ((writes_put _).andThen (body.writes indent fits))
        (by simp [Stmt.core])
  | .switch _ subject cases, indent, fits => by
      rw [Stmt.print_eq]
      refine Writes.line ?_ style _
      exact (writes_put _).andThen (Stmt.writesCases cases indent fits)
  | .loop _ pre condition post body, indent, fits => by
      rw [Stmt.print_eq]
      refine Writes.line ?_ style _
      exact Writes.congr
        ((writes_put _).andThen ((pre.writes indent fits.left).andThen
          ((writes_put _).andThen ((post.writes indent fits.right.left).andThen
            ((writes_put _).andThen (body.writes indent fits.right.right))))))
        (by simp [Stmt.core])
  | .block body, indent, fits => by
      rw [Stmt.print_eq]
      exact (body.writes indent fits).line style _
theorem Block.writes
    : ∀ (block : Block) (indent : Nat), Fits style.indentSize indent block.depth
      → Writes indent (block.write style) (block.braced style indent)
  | ⟨_, []⟩, _, _ => writes_put _
  | ⟨_, stmt :: rest⟩, indent, fits => by
      have inside := (Stmt.writesList (stmt :: rest) _ fits.deeper).indented fits.room
      exact Writes.congr
        ((writes_put _).andThen (inside.andThen (writes_putIndent.andThen (writes_put _))))
        (by simp [Block.braced])
theorem Stmt.writesList
    : ∀ (stmts : List Stmt) (indent : Nat), Fits style.indentSize indent (Stmt.listDepth stmts)
      → Writes indent (Stmt.writeList style stmts) (Stmt.printList style indent stmts)
  | [], _, _ => writes_pure
  | stmt :: rest, indent, fits => by
      rw [Stmt.printList_cons]
      exact (stmt.writes indent fits.left).andThen (Stmt.writesList rest indent fits.right)
theorem Stmt.writesCases
    : ∀ (cases : List Case) (indent : Nat), Fits style.indentSize indent (Stmt.casesDepth cases)
      → Writes indent (Stmt.writeCases style cases) (Stmt.printCases style indent cases)
  | [], _, _ => writes_pure
  | ⟨_, label, body⟩ :: rest, indent, fits => by
      have later := Stmt.writesCases rest indent fits.right
      exact Writes.congr
        ((writes_put _).andThen (writes_putIndent.andThen ((writes_put _).andThen
          ((body.writes indent fits.left).andThen later))))
        (by simp [Stmt.printCases])
end

end StackIR
