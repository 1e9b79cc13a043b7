import StackIR.Dialect
import StackIR.Stmt
import StackIR.Text.Escape

/-! The text of programs.

A statement is one line, or several if it holds blocks; the lines inside a block are
indented one step further. `Stmt.core` and `Block.braced` write what stands between the
indentation of their first line and the end of their last one.
-/

namespace StackIR

/-- How programs are printed. Without a dialect builtins are printed by their handles. -/
structure PrintStyle where
  dialect : Option Dialect := none
  indentSize : Nat := 4
  /-- Put the span of each statement, unless it is null, behind it. -/
  showSpans : Bool := false

namespace Word

def assigned : List Char := [' ', ':', '=', ' ']
def declare : List Char := ['l', 'e', 't', ' ']
def define : List Char := ['f', 'u', 'n', 'c', 't', 'i', 'o', 'n', ' ']
def returns : List Char := [' ', '-', '>', ' ']
def branch : List Char := ['i', 'f', ' ']
def switch : List Char := ['s', 'w', 'i', 't', 'c', 'h', ' ']
def labelled : List Char := ['c', 'a', 's', 'e', ' ']
def otherwise : List Char := ['d', 'e', 'f', 'a', 'u', 'l', 't', ' ']
def loop : List Char := ['f', 'o', 'r', ' ']
def breakLoop : List Char := ['b', 'r', 'e', 'a', 'k']
def continueLoop : List Char := ['c', 'o', 'n', 't', 'i', 'n', 'u', 'e']
def leave : List Char := ['l', 'e', 'a', 'v', 'e']
def builtin : List Char := ['b', 'u', 'i', 'l', 't', 'i', 'n', '#']
def comment : List Char := [' ', '/', '/', ' ']

/-- The brace that opens a block. -/
def openBrace : Char := '\x7b'
/-- The brace that closes a block. -/
def closeBrace : Char := '\x7d'

end Word

/-- The texts with a comma and a space between them. -/
def commaSeparated (texts : List (List Char)) : List Char := List.intercalate [',', ' '] texts

def spaces (count : Nat) : List Char := List.replicate count ' '

theorem spaces_add (m n : Nat) : spaces (m + n) = spaces m ++ spaces n := by
  simp [spaces]

/-- A string stands in quotes; other constants are their source text. -/
def Literal.print (literal : Literal) : List Char :=
  match literal.kind with
  | .string => '"' :: (escape literal.value.toList ++ ['"'])
  | .number | .boolean => literal.value.toList

/-- A builtin is named by the dialect, or numbered if the dialect does not know it. -/
def PrintStyle.builtin (style : PrintStyle) (handle : BuiltinHandle) : List Char :=
  match style.dialect.bind (·.builtin? handle) with
  | some builtin => builtin.name.toList
  | none => Word.builtin ++ Decimal.digits handle.index.toNat

def Callee.print (style : PrintStyle) : Callee → List Char
  | .builtin _ handle => style.builtin handle
  | .verbatim _ handle => handle.nameChars
  | .user ident => ident.name.toList

mutual
def Expr.print (style : PrintStyle) : Expr → List Char
  | .ident i => i.name.toList
  | .literal l => l.print
  | .call _ callee args =>
      callee.print style ++ '(' :: (commaSeparated (Expr.printArgs style args) ++ [')'])
/-- The texts of the arguments of a call. -/
def Expr.printArgs (style : PrintStyle) : List Expr → List (List Char)
  | [] => []
  | arg :: args => arg.print style :: Expr.printArgs style args
end

def printBindings (bindings : List Binding) : List Char :=
  commaSeparated (bindings.map (·.name.toList))

/-- The comment that shows the span of a statement, if it is to be shown. -/
def PrintStyle.spanComment (style : PrintStyle) (span : Span) : List Char :=
  if style.showSpans && !span.isNull then Word.comment ++ span.text.toList else []

/-- The words that introduce a case. -/
def Case.printLabel : Option Literal → List Char
  | some literal => Word.labelled ++ literal.print ++ [' ']
  | none => Word.otherwise

mutual
/-- A statement at an indentation, without its first indentation and its end. -/
def Stmt.core (style : PrintStyle) (indent : Nat) : Stmt → List Char
  | .expr _ value => value.print style
  | .assign _ targets value =>
      commaSeparated (targets.map (·.name.toList)) ++ Word.assigned ++ value.print style
  | .declare _ bindings value =>
      Word.declare ++ printBindings bindings
        ++ (value.map (Word.assigned ++ ·.print style)).getD []
  | .define _ name params returns body =>
      Word.define ++ name.toList ++ '(' :: (printBindings params ++ [')'])
        ++ (if returns.isEmpty then [] else Word.returns ++ printBindings returns)
        ++ ' ' :: body.braced style indent
  | .branch _ condition body =>
      Word.branch ++ condition.print style ++ ' ' :: body.braced style indent
  | .switch _ subject cases =>
      Word.switch ++ subject.print style ++ Stmt.printCases style indent cases
  | .loop _ pre condition post body =>
      Word.loop ++ pre.braced style indent ++ ' ' :: condition.print style
        ++ ' ' :: post.braced style indent ++ ' ' :: body.braced style indent
  | .breakLoop _ => Word.breakLoop
  | .continueLoop _ => Word.continueLoop
  | .leave _ => Word.leave
  | .block body => body.braced style indent
/-- A block in braces, at the indentation of the statement that holds it. -/
def Block.braced (style : PrintStyle) (indent : Nat) : Block → List Char
  | ⟨_, []⟩ => [Word.openBrace, ' ', Word.closeBrace]
  | ⟨_, stmt :: rest⟩ =>
      Word.openBrace :: '\n' :: (Stmt.printList style (indent + style.indentSize) (stmt :: rest)
        ++ spaces indent ++ [Word.closeBrace])
/-- Statements at an indentation, each with its indentation and its end. -/
def Stmt.printList (style : PrintStyle) (indent : Nat) : List Stmt → List Char
  | [] => []
  | stmt :: rest =>
      spaces indent ++ stmt.core style indent ++ style.spanComment stmt.span
        ++ '\n' :: Stmt.printList style indent rest
/-- Cases at an indentation, each on a line of its own. -/
def Stmt.printCases (style : PrintStyle) (indent : Nat) : List Case → List Char
  | [] => []
  | ⟨_, label, body⟩ :: rest =>
      '\n' :: (spaces indent ++ Case.printLabel label ++ body.braced style indent)
        ++ Stmt.printCases style indent rest
end

/-- A statement at an indentation, with its indentation and its end. -/
def Stmt.print (style : PrintStyle) (indent : Nat) (stmt : Stmt) : List Char :=
  Stmt.printList style indent [stmt]

/-- A block that stands on its own. -/
def Block.print (style : PrintStyle) (block : Block) : List Char :=
  block.braced style 0 ++ ['\n']

def Expr.text (style : PrintStyle) (expr : Expr) : String :=
  String.ofList (expr.print style)

def Stmt.text (style : PrintStyle) (stmt : Stmt) : String :=
  String.ofList (stmt.print style 0)

def Block.text (style : PrintStyle) (block : Block) : String :=
  String.ofList (block.print style)

/-- The text of a block, with the builtins named by `dialect`. -/
def Block.textFor (dialect : Dialect) (block : Block) : String :=
  block.text { dialect := some dialect }

/-- The statements of a list are printed one after the other. -/
theorem Stmt.printList_append (style : PrintStyle) (indent : Nat) (front back : List Stmt)
    : Stmt.printList style indent (front ++ back)
      = Stmt.printList style indent front ++ Stmt.printList style indent back := by
  induction front with
  | nil => rfl
  | cons stmt rest ih => simp [Stmt.printList, ih]

theorem Stmt.printList_cons (style : PrintStyle) (indent : Nat) (stmt : Stmt)
    (rest : List Stmt)
    : Stmt.printList style indent (stmt :: rest)
      = stmt.print style indent ++ Stmt.printList style indent rest :=
  Stmt.printList_append style indent [stmt] rest

/-- A statement is printed between its first indentation and its end. -/
theorem Stmt.print_eq (style : PrintStyle) (indent : Nat) (stmt : Stmt)
    : stmt.print style indent
      = spaces indent ++ (stmt.core style indent ++ (style.spanComment stmt.span ++ ['\n'])) := by
  simp [Stmt.print, Stmt.printList]

end StackIR
