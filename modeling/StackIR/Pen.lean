import StackIR.Printer

/-! Writing with a pen that keeps its indentation.

The pen holds the text so far and the indentation of the lines to come. What stands in braces
is written further to the right, and the pen is moved back behind it. An indentation is below
`2 ^ 64`; a text that would need a larger one is not written.
-/

namespace StackIR

/-- The indentation of the lines to come, and the text so far. -/
structure Pen where
  indent : Nat
  written : List Char
deriving DecidableEq, Repr

/-- What is done with a pen. It has no result if an indentation becomes too large. -/
abbrev Writing := StateT Pen Option Unit

namespace Writing

def put (text : List Char) : Writing :=
  modify fun pen => { pen with written := pen.written ++ text }

/-- Puts the spaces at the start of a line. -/
def putIndent : Writing := do
  put (spaces (← get).indent)

/-- Moves the pen to the right, as long as its indentation stays below `2 ^ 64`. -/
def moveRight (size : Nat) : Writing := do
  let pen ← get
  if pen.indent + size < UInt64.size then set { pen with indent := pen.indent + size }
  else failure

/-- Moves the pen to the left, at most to the start of the line. -/
def moveLeft (size : Nat) : Writing :=
  modify fun pen => { pen with indent := pen.indent - size }

/-- Writes what stands further to the right, and moves the pen back. -/
def indented (size : Nat) (inside : Writing) : Writing := do
  moveRight size
  inside
  moveLeft size

/-- Puts the return list of a function, unless it is empty. -/
def putReturns (returns : List Binding) : Writing :=
  unless returns.isEmpty do
    put (Word.returns ++ printBindings returns)

/-- A statement from its first indentation to its end, with its span behind it if that is to be
shown.
-/
def line (style : PrintStyle) (span : Span) (core : Writing) : Writing := do
  putIndent
  core
  put (style.spanComment span)
  put ['\n']

end Writing

open Writing

mutual
def Stmt.write (style : PrintStyle) : Stmt → Writing
  | .expr span value => line style span (put (value.print style))
  | .assign span targets value => line style span do
      put (commaSeparated (targets.map (·.name.toList)) ++ Word.assigned ++ value.print style)
  | .declare span bindings value => line style span do
      put (Word.declare ++ printBindings bindings)
      if let some value := value then
        put (Word.assigned ++ value.print style)
  | .define span name params returns body => line style span do
      put (Word.define ++ name.toList ++ '(' :: (printBindings params ++ [')']))
      putReturns returns
      put [' ']
      body.write style
  | .branch span condition body => line style span do
      put (Word.branch ++ condition.print style ++ [' '])
      body.write style
  | .switch span subject cases => line style span do
      put (Word.switch ++ subject.print style)
      Stmt.writeCases style cases
  | .loop span pre condition post body => line style span do
      put Word.loop
      pre.write style
      put (' ' :: (condition.print style ++ [' ']))
      post.write style
      put [' ']
      body.write style
  | .breakLoop span => line style span (put Word.breakLoop)
  | .continueLoop span => line style span (put Word.continueLoop)
  | .leave span => line style span (put Word.leave)
  | .block body => line style body.span (body.write style)
/-- Writes a block in braces, from where the pen is. -/
def Block.write (style : PrintStyle) : Block → Writing
  | ⟨_, []⟩ => put [Word.openBrace, ' ', Word.closeBrace]
  | ⟨_, stmt :: rest⟩ => do
      put [Word.openBrace, '\n']
      indented style.indentSize (Stmt.writeList style (stmt :: rest))
      putIndent
      put [Word.closeBrace]
def Stmt.writeList (style : PrintStyle) : List Stmt → Writing
  | [] => return
  | stmt :: rest => do
      stmt.write style
      Stmt.writeList style rest
/-- Writes cases, each on a line of its own. -/
def Stmt.writeCases (style : PrintStyle) : List Case → Writing
  | [] => return
  | ⟨_, label, body⟩ :: rest => do
      put ['\n']
      putIndent
      put (Case.printLabel label)
      body.write style
      Stmt.writeCases style rest
end

end StackIR
