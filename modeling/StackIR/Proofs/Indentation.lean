import StackIR.Proofs.Escaping
import StackIR.Proofs.Phrases
import StackIR.Proofs.Writing
import StackIR.Text.Lines

/-! Indentation is compositional.

A statement at an indentation is the same statement at no indentation with spaces in front of each
of its lines, and so the statements of a block are their own texts, moved to the right
(`Stmt.write_moves_right`). This takes that no name, number or boolean holds a newline: strings
cannot break a line, because control characters are escaped in them.

Moving a text to the right puts spaces behind its newlines (`hang`), part by part, and that is how
the texts of statements are compared at two indentations.
-/

namespace StackIR

-----------------------------------------------------------------------------------------
-- Moving lines to the right
-----------------------------------------------------------------------------------------

/-- The text with spaces behind each newline. -/
def hang (count : Nat) (text : List Char) : List Char :=
  text.flatMap fun c => if c = '\n' then '\n' :: spaces count else [c]

/-- The lines of a text with spaces in front of each, and a newline at the end of each. -/
def indentLines (count : Nat) (text : List Char) : List Char :=
  (linesOf text).flatMap fun line => spaces count ++ line ++ ['\n']

theorem newline_not_mem_spaces (count : Nat) : '\n' ∉ spaces count := by
  intro member
  cases List.eq_of_mem_replicate member

@[simp] theorem hang_nil (count : Nat) : hang count [] = [] := rfl

@[simp] theorem hang_newline (count : Nat) (text : List Char)
    : hang count ('\n' :: text) = '\n' :: (spaces count ++ hang count text) := by
  simp [hang]

@[simp] theorem hang_cons {c : Char} (inLine : c ≠ '\n') (count : Nat) (text : List Char)
    : hang count (c :: text) = c :: hang count text := by
  simp [hang, inLine]

@[simp] theorem hang_append (count : Nat) (front back : List Char)
    : hang count (front ++ back) = hang count front ++ hang count back :=
  List.flatMap_append

/-- A text without a newline stays as it is. -/
theorem hang_of_not_mem {text : List Char} (inLine : '\n' ∉ text) (count : Nat)
    : hang count text = text := by
  induction text with
  | nil => rfl
  | cons c text ih =>
      rw [List.mem_cons, not_or] at inLine
      rw [hang_cons (Ne.symm inLine.1), ih inLine.2]

@[simp] theorem hang_spaces (count width : Nat) : hang count (spaces width) = spaces width :=
  hang_of_not_mem (newline_not_mem_spaces width) count

/-- The first line of a text stands behind the spaces in front of it, and every other one behind
those that follow a newline, by induction on the text.
-/
theorem indentLines_concat (count : Nat) (text : List Char)
    : indentLines count (text ++ ['\n']) = spaces count ++ (hang count text ++ ['\n']) := by
  induction text with
  | nil => simp [indentLines, linesOf]
  | cons c text ih =>
      by_cases newline : c = '\n'
      · subst newline
        rw [indentLines, List.cons_append, linesOf_newline, List.flatMap_cons, ← indentLines, ih]
        simp
      · rw [List.cons_append, hang_cons newline, indentLines]
        cases lines : linesOf (text ++ ['\n']) with
        | nil => simp [indentLines, lines] at ih
        | cons line others =>
            rw [linesOf_cons newline lines]
            simpa [indentLines, lines] using ih

-----------------------------------------------------------------------------------------
-- Texts that break no line
-----------------------------------------------------------------------------------------

/-- No newline is in the text. -/
def isUnbroken (text : List Char) : Bool := !text.contains '\n'

theorem isUnbroken_iff {text : List Char} : isUnbroken text = true ↔ '\n' ∉ text := by
  simp [isUnbroken]

/-- A string may have any contents, because they are escaped. -/
def Literal.isUnbroken (literal : Literal) : Bool :=
  match literal.kind with
  | .string => true
  | .number | .boolean => StackIR.isUnbroken literal.value.toList

def Ident.isUnbroken (ident : Ident) : Bool := StackIR.isUnbroken ident.name.toList

def Binding.isUnbroken (binding : Binding) : Bool := StackIR.isUnbroken binding.name.toList

section

variable (style : PrintStyle)

/-- A builtin may have any name that the dialect does not give. -/
def Callee.isUnbroken : Callee → Bool
  | .builtin _ handle =>
      (style.dialect.bind (·.builtin? handle)).all fun builtin =>
        StackIR.isUnbroken builtin.name.toList
  | .verbatim _ _ => true
  | .user ident => ident.isUnbroken

mutual
def Expr.isUnbroken : Expr → Bool
  | .ident i => i.isUnbroken
  | .literal l => l.isUnbroken
  | .call _ callee args => callee.isUnbroken style && Expr.areUnbroken args
def Expr.areUnbroken : List Expr → Bool
  | [] => true
  | arg :: args => arg.isUnbroken && Expr.areUnbroken args
end

mutual
/-- No name, number or boolean in the statement holds a newline, nor does the name under which
the dialect knows a builtin that it calls.
-/
def Stmt.isUnbroken : Stmt → Bool
  | .expr _ value => value.isUnbroken style
  | .assign _ targets value => targets.all Ident.isUnbroken && value.isUnbroken style
  | .declare _ bindings value =>
      bindings.all Binding.isUnbroken && value.all (Expr.isUnbroken style)
  | .define _ name params returns body =>
      StackIR.isUnbroken name.toList && params.all Binding.isUnbroken
        && returns.all Binding.isUnbroken && body.isUnbroken
  | .branch _ condition body => condition.isUnbroken style && body.isUnbroken
  | .switch _ subject cases => subject.isUnbroken style && Stmt.areUnbrokenCases cases
  | .loop _ pre condition post body =>
      pre.isUnbroken && condition.isUnbroken style && post.isUnbroken && body.isUnbroken
  | .breakLoop _ | .continueLoop _ | .leave _ => true
  | .block body => body.isUnbroken
def Block.isUnbroken : Block → Bool
  | ⟨_, stmts⟩ => Stmt.areUnbroken stmts
def Stmt.areUnbroken : List Stmt → Bool
  | [] => true
  | stmt :: rest => stmt.isUnbroken && Stmt.areUnbroken rest
def Stmt.areUnbrokenCases : List Case → Bool
  | [] => true
  | ⟨_, label, body⟩ :: rest =>
      label.all Literal.isUnbroken && body.isUnbroken && Stmt.areUnbrokenCases rest
end

end

-----------------------------------------------------------------------------------------
-- What stands in one line
-----------------------------------------------------------------------------------------

theorem newline_not_mem_commaSeparated {texts : List (List Char)}
    (unbroken : ∀ text ∈ texts, '\n' ∉ text)
    : '\n' ∉ commaSeparated texts := by
  cases texts with
  | nil => simp [commaSeparated]
  | cons text texts =>
      rw [List.forall_mem_cons] at unbroken
      rw [commaSeparated_cons, List.mem_append, not_or, commaPrefixed]
      refine ⟨unbroken.1, fun member => ?_⟩
      obtain ⟨other, inTexts, member⟩ := List.mem_flatMap.mp member
      simp [unbroken.2 other inTexts] at member

/-- A list of names stands in one line if each of them does. -/
theorem newline_not_mem_names {α : Type} {nameOf : α → Name} {items : List α}
    (unbroken : items.all (fun item => isUnbroken (nameOf item).toList) = true)
    : '\n' ∉ commaSeparated (items.map fun item => (nameOf item).toList) := by
  refine newline_not_mem_commaSeparated fun text member => ?_
  obtain ⟨item, inItems, rfl⟩ := List.mem_map.mp member
  exact isUnbroken_iff.mp (List.all_eq_true.mp unbroken item inItems)

theorem Literal.newline_not_mem_print {literal : Literal} (unbroken : literal.isUnbroken = true)
    : '\n' ∉ literal.print := by
  obtain ⟨span, kind, value⟩ := literal
  cases kind with
  | number | boolean => exact isUnbroken_iff.mp unbroken
  | string =>
      have escaped : '\n' ∉ escape value.toList := by
        intro member
        cases isControl_eq_false_of_mem_escape member
      simp [print, escaped]

theorem Case.newline_not_mem_printLabel {label : Option Literal}
    (unbroken : label.all Literal.isUnbroken = true)
    : '\n' ∉ Case.printLabel label := by
  cases label with
  | none => decide
  | some literal =>
      simp [printLabel, Word.labelled, literal.newline_not_mem_print unbroken]

section

variable {style : PrintStyle}

theorem Callee.newline_not_mem_print {callee : Callee} (unbroken : callee.isUnbroken style = true)
    : '\n' ∉ callee.print style := by
  cases callee with
  | builtin span handle =>
      simp only [print, PrintStyle.builtin]
      split
      · next builtin known =>
          rw [isUnbroken, known] at unbroken
          exact isUnbroken_iff.mp unbroken
      · simp [Word.builtin, Decimal.newline_not_mem_digits]
  | verbatim span handle =>
      simp [print, VerbatimHandle.nameChars, VerbatimHandle.leadingWord,
        Decimal.newline_not_mem_digits]
  | user ident => exact isUnbroken_iff.mp unbroken

mutual
theorem Expr.newline_not_mem_print
    : ∀ expr : Expr, expr.isUnbroken style = true → '\n' ∉ expr.print style
  | .ident _, unbroken => isUnbroken_iff.mp unbroken
  | .literal l, unbroken => l.newline_not_mem_print unbroken
  | .call _ callee args, unbroken => by
      rw [Expr.isUnbroken, Bool.and_eq_true] at unbroken
      have calleeText := callee.newline_not_mem_print unbroken.1
      have argTexts := newline_not_mem_commaSeparated
        (Expr.newline_not_mem_printArgs args unbroken.2)
      simp [Expr.print, calleeText, argTexts]
theorem Expr.newline_not_mem_printArgs
    : ∀ args : List Expr, Expr.areUnbroken style args = true
      → ∀ text ∈ Expr.printArgs style args, '\n' ∉ text
  | [], _ => by simp [Expr.printArgs]
  | arg :: args, unbroken => by
      rw [Expr.areUnbroken, Bool.and_eq_true] at unbroken
      exact List.forall_mem_cons.mpr ⟨arg.newline_not_mem_print unbroken.1,
        Expr.newline_not_mem_printArgs args unbroken.2⟩
end

theorem newline_not_mem_spanComment (style : PrintStyle) (span : Span)
    : '\n' ∉ style.spanComment span := by
  rw [PrintStyle.spanComment]
  split
  · simp [Word.comment, Span.newline_not_mem_text]
  · simp

-----------------------------------------------------------------------------------------
-- The same text further to the right
-----------------------------------------------------------------------------------------

mutual
/-- Behind its first indentation, a statement further to the right has the same text with spaces
behind each newline. By induction on the statement.
-/
theorem Stmt.core_add (count : Nat)
    : ∀ (stmt : Stmt) (indent : Nat), stmt.isUnbroken style = true
      → stmt.core style (count + indent) = hang count (stmt.core style indent)
  | .expr _ value, _, unbroken =>
      (hang_of_not_mem (value.newline_not_mem_print unbroken) count).symm
  | .assign _ targets value, _, unbroken => by
      rw [Stmt.isUnbroken, Bool.and_eq_true] at unbroken
      have targetNames := newline_not_mem_names unbroken.1
      have valueText := value.newline_not_mem_print unbroken.2
      refine (hang_of_not_mem ?_ count).symm
      simp [Stmt.core, Word.assigned, targetNames, valueText]
  | .declare _ bindings value, _, unbroken => by
      rw [Stmt.isUnbroken, Bool.and_eq_true] at unbroken
      have names := newline_not_mem_names unbroken.1
      refine (hang_of_not_mem ?_ count).symm
      cases value with
      | none => simp [Stmt.core, Word.declare, printBindings, names]
      | some value =>
          have valueText := value.newline_not_mem_print unbroken.2
          simp [Stmt.core, Word.declare, Word.assigned, printBindings, names, valueText]
  | .define _ name params returns body, indent, unbroken => by
      simp only [Stmt.isUnbroken, Bool.and_eq_true] at unbroken
      obtain ⟨⟨⟨nameText, paramNames⟩, returnNames⟩, bodyUnbroken⟩ := unbroken
      have header : '\n' ∉ Word.define ++ name.toList ++ '(' :: (printBindings params ++ [')'])
          ++ (if returns.isEmpty then [] else Word.returns ++ printBindings returns) := by
        simp [Word.define, Word.returns, printBindings, isUnbroken_iff.mp nameText,
          newline_not_mem_names paramNames, newline_not_mem_names returnNames]
      rw [Stmt.core, Stmt.core, hang_append, hang_of_not_mem header,
        hang_cons (by decide), body.braced_add count indent bodyUnbroken]
  | .branch _ condition body, indent, unbroken => by
      rw [Stmt.isUnbroken, Bool.and_eq_true] at unbroken
      have conditionText := condition.newline_not_mem_print unbroken.1
      simp [Stmt.core, Word.branch, hang_of_not_mem conditionText,
        body.braced_add count indent unbroken.2]
  | .switch _ subject cases, indent, unbroken => by
      rw [Stmt.isUnbroken, Bool.and_eq_true] at unbroken
      have subjectText := subject.newline_not_mem_print unbroken.1
      simp [Stmt.core, Word.switch, hang_of_not_mem subjectText,
        Stmt.printCases_add count cases indent unbroken.2]
  | .loop _ pre condition post body, indent, unbroken => by
      simp only [Stmt.isUnbroken, Bool.and_eq_true] at unbroken
      obtain ⟨⟨⟨preUnbroken, conditionUnbroken⟩, postUnbroken⟩, bodyUnbroken⟩ := unbroken
      have conditionText := condition.newline_not_mem_print conditionUnbroken
      simp [Stmt.core, Word.loop, hang_of_not_mem conditionText,
        pre.braced_add count indent preUnbroken, post.braced_add count indent postUnbroken,
        body.braced_add count indent bodyUnbroken]
  | .breakLoop _, _, _ | .continueLoop _, _, _ | .leave _, _, _ => rfl
  | .block body, indent, unbroken => body.braced_add count indent unbroken
theorem Block.braced_add (count : Nat)
    : ∀ (block : Block) (indent : Nat), block.isUnbroken style = true
      → block.braced style (count + indent) = hang count (block.braced style indent)
  | ⟨_, []⟩, _, _ => rfl
  | ⟨_, stmt :: rest⟩, indent, unbroken => by
      -- The spaces that follow the last newline stand in front of the closing brace.
      have inside := Stmt.printList_add count (stmt :: rest) (indent + style.indentSize) unbroken
      rw [← Nat.add_assoc] at inside
      rw [Block.braced, Block.braced, spaces_add, ← List.append_assoc, inside]
      simp [Word.openBrace, Word.closeBrace]
/-- The spaces in front of the first line are those that would follow the last newline. -/
theorem Stmt.printList_add (count : Nat)
    : ∀ (stmts : List Stmt) (indent : Nat), Stmt.areUnbroken style stmts = true
      → Stmt.printList style (count + indent) stmts ++ spaces count
        = spaces count ++ hang count (Stmt.printList style indent stmts)
  | [], _, _ => by simp [Stmt.printList]
  | stmt :: rest, indent, unbroken => by
      rw [Stmt.areUnbroken, Bool.and_eq_true] at unbroken
      have core := stmt.core_add count indent unbroken.1
      have later := Stmt.printList_add count rest indent unbroken.2
      have comment := newline_not_mem_spanComment style stmt.span
      simp [Stmt.printList, spaces_add, core, later, hang_of_not_mem comment]
theorem Stmt.printCases_add (count : Nat)
    : ∀ (cases : List Case) (indent : Nat), Stmt.areUnbrokenCases style cases = true
      → Stmt.printCases style (count + indent) cases
        = hang count (Stmt.printCases style indent cases)
  | [], _, _ => rfl
  | ⟨_, label, body⟩ :: rest, indent, unbroken => by
      simp only [Stmt.areUnbrokenCases, Bool.and_eq_true] at unbroken
      obtain ⟨⟨labelUnbroken, bodyUnbroken⟩, restUnbroken⟩ := unbroken
      have labelText := Case.newline_not_mem_printLabel labelUnbroken
      simp [Stmt.printCases, spaces_add, hang_of_not_mem labelText,
        body.braced_add count indent bodyUnbroken,
        Stmt.printCases_add count rest indent restUnbroken]
end

/-- A statement further to the right is the statement with spaces in front of each line. -/
theorem Stmt.print_add {stmt : Stmt} (unbroken : stmt.isUnbroken style = true)
    (count indent : Nat)
    : stmt.print style (count + indent) = indentLines count (stmt.print style indent) := by
  have comment := newline_not_mem_spanComment style stmt.span
  have lines := indentLines_concat count
    (spaces indent ++ (stmt.core style indent ++ style.spanComment stmt.span))
  simp only [Stmt.print_eq, spaces_add, stmt.core_add count indent unbroken]
  simpa [hang_of_not_mem comment] using lines.symm

theorem Stmt.print_eq_indentLines {stmt : Stmt} (unbroken : stmt.isUnbroken style = true)
    (indent : Nat)
    : stmt.print style indent = indentLines indent (stmt.print style 0) :=
  Stmt.print_add unbroken indent 0

theorem Stmt.printList_eq_flatMap (indent : Nat) {stmts : List Stmt}
    (unbroken : Stmt.areUnbroken style stmts = true)
    : Stmt.printList style indent stmts
      = stmts.flatMap fun stmt => indentLines indent (stmt.print style 0) := by
  induction stmts with
  | nil => rfl
  | cons stmt rest ih =>
      rw [Stmt.areUnbroken, Bool.and_eq_true] at unbroken
      rw [Stmt.printList_cons, ih unbroken.2, Stmt.print_eq_indentLines unbroken.1,
        List.flatMap_cons]

theorem Block.braced_eq_flatMap (indent : Nat) {block : Block} (filled : block.stmts ≠ [])
    (unbroken : block.isUnbroken style = true)
    : block.braced style indent
      = Word.openBrace :: '\n' :: (block.stmts.flatMap (fun stmt =>
          indentLines (indent + style.indentSize) (stmt.print style 0))
        ++ spaces indent ++ [Word.closeBrace]) := by
  obtain ⟨span, stmts⟩ := block
  cases stmts with
  | nil => exact absurd rfl filled
  | cons stmt rest => rw [Block.braced, Stmt.printList_eq_flatMap _ unbroken]

theorem Stmt.getLast?_print (indent : Nat) (stmt : Stmt)
    : (stmt.print style indent).getLast? = some '\n' := by
  simp [Stmt.print_eq]

end

-----------------------------------------------------------------------------------------
-- Statements inside statements
-----------------------------------------------------------------------------------------

mutual
/-- The lists of statements inside a statement, each with its level. Those of the blocks that the
statement itself holds are one level further inside than the statement.
-/
def Stmt.nestedLists (level : Nat) : Stmt → List (Nat × List Stmt)
  | .expr _ _ | .assign _ _ _ | .declare _ _ _ | .breakLoop _ | .continueLoop _ | .leave _ => []
  | .define _ _ _ _ body | .branch _ _ body | .block body => body.nestedLists level
  | .switch _ _ cases => Stmt.listsInCases level cases
  | .loop _ pre _ post body =>
      pre.nestedLists level ++ post.nestedLists level ++ body.nestedLists level
def Block.nestedLists (level : Nat) : Block → List (Nat × List Stmt)
  | ⟨_, stmts⟩ => (level + 1, stmts) :: Stmt.listsInList (level + 1) stmts
def Stmt.listsInList (level : Nat) : List Stmt → List (Nat × List Stmt)
  | [] => []
  | stmt :: rest => stmt.nestedLists level ++ Stmt.listsInList level rest
def Stmt.listsInCases (level : Nat) : List Case → List (Nat × List Stmt)
  | [] => []
  | ⟨_, _, body⟩ :: rest => body.nestedLists level ++ Stmt.listsInCases level rest
end

section

variable {style : PrintStyle}

/-- The list breaks no line, and stands in `text` at the indentation of its level. -/
def StandsIn (style : PrintStyle) (base : Nat) (nested : Nat × List Stmt) (text : List Char)
    : Prop :=
  Stmt.areUnbroken style nested.2 = true
  ∧ Stmt.printList style (base + nested.1 * style.indentSize) nested.2 <:+: text

theorem StandsIn.extend {base : Nat} {nested : Nat × List Stmt} {text whole : List Char}
    (stands : StandsIn style base nested text) (part : text <:+: whole)
    : StandsIn style base nested whole :=
  ⟨stands.1, stands.2.trans part⟩

mutual
/-- Every list of statements inside a statement stands in its text, by induction on the statement.
-/
theorem Stmt.nestedLists_standIn (base : Nat) {nested : Nat × List Stmt}
    : ∀ (stmt : Stmt) (level : Nat), stmt.isUnbroken style = true
      → nested ∈ stmt.nestedLists level
      → StandsIn style base nested (stmt.core style (base + level * style.indentSize))
  | .define _ name params returns body, level, unbroken, member => by
      simp only [Stmt.isUnbroken, Bool.and_eq_true] at unbroken
      refine (body.nestedLists_standIn base level unbroken.2 member).extend ?_
      exact ((List.suffix_cons _ _).trans (List.suffix_append _ _)).isInfix
  | .branch _ condition body, level, unbroken, member => by
      simp only [Stmt.isUnbroken, Bool.and_eq_true] at unbroken
      refine (body.nestedLists_standIn base level unbroken.2 member).extend ?_
      exact ((List.suffix_cons _ _).trans (List.suffix_append _ _)).isInfix
  | .block body, level, unbroken, member => body.nestedLists_standIn base level unbroken member
  | .switch _ subject cases, level, unbroken, member => by
      simp only [Stmt.isUnbroken, Bool.and_eq_true] at unbroken
      refine (Stmt.listsInCases_standIn base cases level unbroken.2 member).extend ?_
      exact (List.suffix_append _ _).isInfix
  | .loop _ pre condition post body, level, unbroken, member => by
      simp only [Stmt.isUnbroken, Bool.and_eq_true] at unbroken
      obtain ⟨⟨⟨preUnbroken, -⟩, postUnbroken⟩, bodyUnbroken⟩ := unbroken
      simp only [Stmt.nestedLists, List.mem_append] at member
      rcases member with (inPre | inPost) | inBody
      · refine (pre.nestedLists_standIn base level preUnbroken inPre).extend ?_
        simp only [Stmt.core, List.append_assoc]
        exact (List.prefix_append _ _).isInfix.trans (List.suffix_append _ _).isInfix
      · refine (post.nestedLists_standIn base level postUnbroken inPost).extend ?_
        exact ((List.suffix_cons _ _).trans (List.suffix_append _ _)).isInfix.trans
          (List.prefix_append _ _).isInfix
      · refine (body.nestedLists_standIn base level bodyUnbroken inBody).extend ?_
        exact ((List.suffix_cons _ _).trans (List.suffix_append _ _)).isInfix
theorem Block.nestedLists_standIn (base : Nat) {nested : Nat × List Stmt}
    : ∀ (block : Block) (level : Nat), block.isUnbroken style = true
      → nested ∈ block.nestedLists level
      → StandsIn style base nested (block.braced style (base + level * style.indentSize))
  | ⟨span, stmts⟩, level, unbroken, member => by
      cases stmts with
      | nil =>
          cases List.mem_singleton.mp member
          exact ⟨rfl, List.nil_infix⟩
      | cons stmt rest =>
          have inBraces
              : Stmt.printList style (base + (level + 1) * style.indentSize) (stmt :: rest)
                <:+: Block.braced style (base + level * style.indentSize)
                  ⟨span, stmt :: rest⟩ := by
            simp only [Block.braced, Nat.succ_mul, ← Nat.add_assoc, List.append_assoc]
            exact (List.prefix_append _ _).isInfix.trans
              ((List.suffix_cons _ _).trans (List.suffix_cons _ _)).isInfix
          rcases List.mem_cons.mp member with rfl | inside
          · exact ⟨unbroken, inBraces⟩
          · exact (Stmt.listsInList_standIn base (stmt :: rest) (level + 1) unbroken inside).extend
              inBraces
theorem Stmt.listsInList_standIn (base : Nat) {nested : Nat × List Stmt}
    : ∀ (stmts : List Stmt) (level : Nat), Stmt.areUnbroken style stmts = true
      → nested ∈ Stmt.listsInList level stmts
      → StandsIn style base nested (Stmt.printList style (base + level * style.indentSize) stmts)
  | stmt :: rest, level, unbroken, member => by
      rw [Stmt.areUnbroken, Bool.and_eq_true] at unbroken
      rw [Stmt.printList_cons, Stmt.print_eq]
      rcases List.mem_append.mp member with inStmt | inRest
      · refine (stmt.nestedLists_standIn base level unbroken.1 inStmt).extend ?_
        simp only [List.append_assoc]
        exact (List.prefix_append _ _).isInfix.trans (List.suffix_append _ _).isInfix
      · refine (Stmt.listsInList_standIn base rest level unbroken.2 inRest).extend ?_
        exact (List.suffix_append _ _).isInfix
theorem Stmt.listsInCases_standIn (base : Nat) {nested : Nat × List Stmt}
    : ∀ (cases : List Case) (level : Nat), Stmt.areUnbrokenCases style cases = true
      → nested ∈ Stmt.listsInCases level cases
      → StandsIn style base nested
          (Stmt.printCases style (base + level * style.indentSize) cases)
  | ⟨_, label, body⟩ :: rest, level, unbroken, member => by
      simp only [Stmt.areUnbrokenCases, Bool.and_eq_true] at unbroken
      obtain ⟨⟨-, bodyUnbroken⟩, restUnbroken⟩ := unbroken
      rw [Stmt.printCases]
      rcases List.mem_append.mp member with inBody | inRest
      · refine (body.nestedLists_standIn base level bodyUnbroken inBody).extend ?_
        exact ((List.suffix_append _ _).trans (List.suffix_cons _ _)).isInfix.trans
          (List.prefix_append _ _).isInfix
      · refine (Stmt.listsInCases_standIn base rest level restUnbroken inRest).extend ?_
        exact (List.suffix_append _ _).isInfix
end

/-- A list of statements inside a statement stands in its text as the texts of its statements, one
after the other and moved to the right by one step for each level.
-/
theorem Stmt.nestedList_infix_print {stmt : Stmt} {level : Nat} {stmts : List Stmt}
    (unbroken : stmt.isUnbroken style = true) (member : (level, stmts) ∈ stmt.nestedLists 0)
    (indent : Nat)
    : stmts.flatMap (fun nested =>
          indentLines (indent + level * style.indentSize) (nested.print style 0))
        <:+: stmt.print style indent := by
  obtain ⟨listUnbroken, stands⟩ := Stmt.nestedLists_standIn indent stmt 0 unbroken member
  rw [Nat.zero_mul, Nat.add_zero] at stands
  rw [← Stmt.printList_eq_flatMap _ listUnbroken, Stmt.print_eq]
  exact stands.trans
    ((List.prefix_append _ _).isInfix.trans (List.suffix_append _ _).isInfix)

end

/-- A statement that breaks no line is written at an indentation as it is written at none, with
spaces in front of each of its lines. Its text ends in a newline, and the pen is left at the
indentation at which it was found. The statements of a block are written as their own texts, one
after the other and one step further to the right than the braces around them, and so at any depth
inside a statement: one step further for each level.
-/
theorem Stmt.write_moves_right (style : PrintStyle) (indent : Nat) (written : List Char)
    : (∀ stmt : Stmt,
        stmt.isUnbroken style = true
        → Fits style.indentSize indent stmt.depth
        → (stmt.write style).run ⟨0, []⟩ = some ((), ⟨0, stmt.print style 0⟩)
          ∧ (stmt.write style).run ⟨indent, written⟩
            = some ((), ⟨indent, written ++ stmt.print style indent⟩)
          ∧ stmt.print style indent = indentLines indent (stmt.print style 0)
          ∧ (stmt.print style indent).getLast? = some '\n'
          ∧ ∀ (level : Nat) (stmts : List Stmt),
            (level, stmts) ∈ stmt.nestedLists 0
            → stmts.flatMap (fun nested =>
                indentLines (indent + level * style.indentSize) (nested.print style 0))
              <:+: stmt.print style indent)
      ∧ ∀ block : Block,
        block.stmts ≠ []
        → block.isUnbroken style = true
        → Fits style.indentSize indent block.depth
        → (block.write style).run ⟨indent, written⟩
          = some ((), ⟨indent, written ++
            (Word.openBrace :: '\n' :: (block.stmts.flatMap (fun stmt =>
                indentLines (indent + style.indentSize) (stmt.print style 0))
              ++ spaces indent ++ [Word.closeBrace]))⟩) := by
  constructor
  · intro stmt unbroken fits
    refine ⟨stmt.writes 0 fits.outermost [], stmt.writes indent fits written,
      Stmt.print_eq_indentLines unbroken indent, stmt.getLast?_print indent, ?_⟩
    intro level stmts member
    exact Stmt.nestedList_infix_print unbroken member indent
  · intro block filled unbroken fits
    rw [← Block.braced_eq_flatMap indent filled unbroken]
    exact block.writes indent fits written

/-- The loop `for { switch x case 0 { function f() { leave } } } c { } { }`. -/
def Stmt.nestedLoop : Stmt :=
  .loop .null
    (.ofStmts [.switch .null (.ofName "x")
      [.labelled (.number "0") (.ofStmts [.define .null "f" [] [] (.ofStmts [.leave .null])])]])
    (.ofName "c") .empty .empty

/-- The innermost of three blocks holds one statement, which is moved to the right by three steps
of 2 besides the indentation of the loop.
-/
theorem Stmt.write_moves_right_nestedLoop
    : (Stmt.nestedLoop.write { indentSize := 2 }).run ⟨3, ['#', '\n']⟩
        = some ((), ⟨3, '#' :: '\n' :: Stmt.nestedLoop.print { indentSize := 2 } 3⟩)
      ∧ (linesOf (Stmt.nestedLoop.print { indentSize := 2 } 0)).map String.ofList
        = ["for \x7b", "  switch x", "  case 0 \x7b", "    function f() \x7b", "      leave",
          "    \x7d", "  \x7d", "\x7d c \x7b \x7d \x7b \x7d"]
      ∧ Stmt.nestedLoop.print { indentSize := 2 } 3
        = indentLines 3 (Stmt.nestedLoop.print { indentSize := 2 } 0)
      ∧ spaces 9 ++ ['l', 'e', 'a', 'v', 'e', '\n']
        <:+: Stmt.nestedLoop.print { indentSize := 2 } 3
      ∧ ((Block.ofStmts [Stmt.nestedLoop]).write { indentSize := 2 }).run ⟨3, []⟩
        = some ((), ⟨3, Word.openBrace :: '\n' ::
            (indentLines 5 (Stmt.nestedLoop.print { indentSize := 2 } 0) ++ spaces 3
              ++ [Word.closeBrace])⟩) := by
  obtain ⟨-, written, moved, -, nested⟩ :=
    (Stmt.write_moves_right { indentSize := 2 } 3 ['#', '\n']).1 Stmt.nestedLoop (by decide)
      (by decide)
  have block := (Stmt.write_moves_right { indentSize := 2 } 3 []).2
    (Block.ofStmts [Stmt.nestedLoop]) (by decide) (by decide) (by decide)
  exact ⟨written, by decide, moved, nested 3 [.leave .null] (by decide),
    by simpa [Block.ofStmts] using block⟩

end StackIR
