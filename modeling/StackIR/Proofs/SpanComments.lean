import StackIR.Printer
import StackIR.Text.Lines

/-! Showing spans only adds comments at the ends of lines.

The text with spans is the text without them, with a comment in front of some of its newlines
(`WithComments`). No line gets two comments, because a statement ends its own line. The comments
show the spans of all statements that stand in a source file, those inside a statement before its
own: `showSpans_adds_comments`.
-/

namespace StackIR

-----------------------------------------------------------------------------------------
-- Comments in a text
-----------------------------------------------------------------------------------------

/-- The comment that shows a span. -/
def Span.comment (span : Span) : List Char := Word.comment ++ span.text.toList

/-- The second text is the first with comments in front of newlines, which show `spans` in order. -/
inductive WithComments : List Char → List Char → List Span → Prop where
  | nil : WithComments [] [] []
  | cons (c : Char) {plain text : List Char} {spans : List Span}
    (rest : WithComments plain text spans) : WithComments (c :: plain) (c :: text) spans
  | comment (span : Span) {plain text : List Char} {spans : List Span}
    (rest : WithComments plain text spans)
    : WithComments ('\n' :: plain) (span.comment ++ '\n' :: text) (span :: spans)

namespace WithComments

theorem refl (text : List Char) : WithComments text text [] := by
  induction text with
  | nil => exact .nil
  | cons c text ih => exact .cons c ih

theorem append {plain plain' text text' : List Char} {spans spans' : List Span}
    (front : WithComments plain text spans) (back : WithComments plain' text' spans')
    : WithComments (plain ++ plain') (text ++ text') (spans ++ spans') := by
  induction front with
  | nil => exact back
  | cons c _ ih => exact .cons c ih
  | comment span _ ih =>
      rw [List.append_assoc]
      exact .comment span ih

/-- Text without comments follows. -/
theorem before {plain text : List Char} {spans : List Span}
    (rest : WithComments plain text spans) (back : List Char)
    : WithComments (plain ++ back) (text ++ back) spans := by
  simpa using rest.append (refl back)

/-- Text without comments stands in front. -/
theorem after {plain text : List Char} {spans : List Span} (front : List Char)
    (rest : WithComments plain text spans)
    : WithComments (front ++ plain) (front ++ text) spans :=
  (refl front).append rest

end WithComments

/-- A line, and the span in its comment if it has one. -/
abbrev CommentedLine := List Char × Option Span

/-- The line with its comment. -/
def CommentedLine.text (line : CommentedLine) : List Char :=
  line.1 ++ (line.2.map Span.comment).getD []

/-- Line by line, a text with comments is the text without them, each line with at most one comment
at its end.
-/
theorem WithComments.exists_lines {plain text : List Char} {spans : List Span}
    (comments : WithComments plain text spans)
    : ∃ lines : List CommentedLine,
        linesOf plain = lines.map Prod.fst
        ∧ linesOf text = lines.map CommentedLine.text
        ∧ lines.filterMap Prod.snd = spans := by
  induction comments with
  | nil => exact ⟨[], rfl, rfl, rfl⟩
  | @comment span plain text spans rest ih =>
      obtain ⟨lines, plainLines, textLines, rfl⟩ := ih
      have inLine : '\n' ∉ span.comment := by
        simp [Span.comment, Word.comment, span.newline_not_mem_text]
      refine ⟨([], some span) :: lines, ?_, ?_, rfl⟩
      · rw [linesOf_newline, plainLines, List.map_cons]
      · rw [linesOf_append inLine, textLines, List.map_cons]
        rfl
  | @cons c plain text spans rest ih =>
      obtain ⟨lines, plainLines, textLines, rfl⟩ := ih
      by_cases newline : c = '\n'
      · subst newline
        refine ⟨([], none) :: lines, ?_, ?_, rfl⟩
        · rw [linesOf_newline, plainLines, List.map_cons]
        · rw [linesOf_newline, textLines, List.map_cons]
          rfl
      · cases lines with
        | nil =>
            refine ⟨[([c], none)], ?_, ?_, rfl⟩
            · exact linesOf_last newline plainLines
            · exact linesOf_last newline textLines
        | cons line lines =>
            refine ⟨(c :: line.1, line.2) :: lines, ?_, ?_, rfl⟩
            · exact linesOf_cons newline plainLines
            · exact linesOf_cons newline textLines

-----------------------------------------------------------------------------------------
-- The spans of statements
-----------------------------------------------------------------------------------------

mutual
/-- The spans of the statements inside a statement, in the order in which these end. -/
def Stmt.spansInside : Stmt → List Span
  | .expr _ _ | .assign _ _ _ | .declare _ _ _ | .breakLoop _ | .continueLoop _ | .leave _ => []
  | .define _ _ _ _ body | .branch _ _ body | .block body => body.spansInside
  | .switch _ _ cases => Stmt.spansInCases cases
  | .loop _ pre _ post body => pre.spansInside ++ post.spansInside ++ body.spansInside
def Block.spansInside : Block → List Span
  | ⟨_, stmts⟩ => Stmt.spansInList stmts
def Stmt.spansInList : List Stmt → List Span
  | [] => []
  | stmt :: rest => stmt.spansInside ++ stmt.span :: Stmt.spansInList rest
def Stmt.spansInCases : List Case → List Span
  | [] => []
  | ⟨_, _, body⟩ :: rest => body.spansInside ++ Stmt.spansInCases rest
end

/-- The spans that show: those that are not null. -/
def shown (spans : List Span) : List Span := spans.filter (!·.isNull)

@[simp] theorem shown_append (front back : List Span)
    : shown (front ++ back) = shown front ++ shown back :=
  List.filter_append ..

-----------------------------------------------------------------------------------------
-- Printing with spans and without
-----------------------------------------------------------------------------------------

/-- The style that shows spans. -/
def PrintStyle.withSpans (style : PrintStyle) : PrintStyle := { style with showSpans := true }

/-- The style that shows no spans. -/
def PrintStyle.withoutSpans (style : PrintStyle) : PrintStyle := { style with showSpans := false }

variable {style : PrintStyle}

theorem Callee.print_withSpans (callee : Callee)
    : callee.print style.withSpans = callee.print style.withoutSpans := by
  cases callee <;> rfl

mutual
/-- Expressions hold no statements, so they are printed the same. -/
theorem Expr.print_withSpans
    : ∀ expr : Expr, expr.print style.withSpans = expr.print style.withoutSpans
  | .ident _ | .literal _ => rfl
  | .call _ callee args => by
      rw [Expr.print, Expr.print, callee.print_withSpans, Expr.printArgs_withSpans args]
theorem Expr.printArgs_withSpans
    : ∀ args : List Expr,
      Expr.printArgs style.withSpans args = Expr.printArgs style.withoutSpans args
  | [] => rfl
  | arg :: args => by
      rw [Expr.printArgs, Expr.printArgs, arg.print_withSpans, Expr.printArgs_withSpans args]
end

/-- The end of a statement gets a comment with its span, unless that is null. -/
theorem WithComments.stmtEnd (style : PrintStyle) (span : Span)
    : WithComments (style.withoutSpans.spanComment span ++ ['\n'])
        (style.withSpans.spanComment span ++ ['\n']) (shown [span]) := by
  by_cases isNull : span.isNull = true
  · simp only [PrintStyle.spanComment, shown, isNull, List.filter_cons, Bool.not_true,
      Bool.and_false, Bool.false_eq_true, if_false, List.filter_nil]
    exact .refl _
  · simp only [PrintStyle.spanComment, PrintStyle.withSpans, PrintStyle.withoutSpans, shown,
      isNull, List.filter_cons, List.filter_nil]
    exact .comment span .nil

mutual
theorem Stmt.core_withComments (indent : Nat)
    : ∀ stmt : Stmt,
      WithComments (stmt.core style.withoutSpans indent) (stmt.core style.withSpans indent)
        (shown stmt.spansInside)
  | .expr _ value => by
      rw [Stmt.core, Stmt.core, value.print_withSpans]
      exact .refl _
  | .assign _ targets value => by
      rw [Stmt.core, Stmt.core, value.print_withSpans]
      exact .refl _
  | .declare _ bindings value => by
      cases value with
      | none => exact .refl _
      | some value =>
          rw [Stmt.core, Stmt.core, Option.map_some, Option.map_some, value.print_withSpans]
          exact .refl _
  | .define _ name params returns body => .after _ (.cons ' ' (body.braced_withComments indent))
  | .branch _ condition body => by
      rw [Stmt.core, Stmt.core, condition.print_withSpans]
      exact .after _ (.cons ' ' (body.braced_withComments indent))
  | .switch _ subject cases => by
      rw [Stmt.core, Stmt.core, subject.print_withSpans]
      exact .after _ (Stmt.printCases_withComments indent cases)
  | .loop _ pre condition post body => by
      rw [Stmt.core, Stmt.core, condition.print_withSpans, Stmt.spansInside, shown_append,
        shown_append]
      have preText := ((pre.braced_withComments indent).after Word.loop).before
        (' ' :: condition.print style.withoutSpans)
      exact (preText.append (.cons ' ' (post.braced_withComments indent))).append
        (.cons ' ' (body.braced_withComments indent))
  | .breakLoop _ | .continueLoop _ | .leave _ => .refl _
  | .block body => body.braced_withComments indent
theorem Block.braced_withComments (indent : Nat)
    : ∀ block : Block,
      WithComments (block.braced style.withoutSpans indent) (block.braced style.withSpans indent)
        (shown block.spansInside)
  | ⟨_, []⟩ => .refl _
  | ⟨_, stmt :: rest⟩ =>
      have inside := Stmt.printList_withComments (indent + style.indentSize) (stmt :: rest)
      .after [Word.openBrace, '\n'] ((inside.before (spaces indent)).before [Word.closeBrace])
theorem Stmt.printList_withComments (indent : Nat)
    : ∀ stmts : List Stmt,
      WithComments (Stmt.printList style.withoutSpans indent stmts)
        (Stmt.printList style.withSpans indent stmts) (shown (Stmt.spansInList stmts))
  | [] => .nil
  | stmt :: rest => by
      have ended := (stmt.core_withComments indent).append (.stmtEnd style stmt.span)
      have spans : shown (Stmt.spansInList (stmt :: rest))
          = shown stmt.spansInside ++ shown [stmt.span] ++ shown (Stmt.spansInList rest) := by
        rw [List.append_assoc, ← shown_append, ← shown_append]
        rfl
      rw [Stmt.printList_cons, Stmt.printList_cons, Stmt.print_eq, Stmt.print_eq, spans]
      exact (ended.after (spaces indent)).append (Stmt.printList_withComments indent rest)
theorem Stmt.printCases_withComments (indent : Nat)
    : ∀ cases : List Case,
      WithComments (Stmt.printCases style.withoutSpans indent cases)
        (Stmt.printCases style.withSpans indent cases) (shown (Stmt.spansInCases cases))
  | [] => .nil
  | ⟨_, label, body⟩ :: rest => by
      rw [Stmt.printCases, Stmt.printCases, Stmt.spansInCases, shown_append]
      exact .append (.after ('\n' :: (spaces indent ++ Case.printLabel label))
        (body.braced_withComments indent)) (Stmt.printCases_withComments indent rest)
end

theorem Stmt.print_withComments (indent : Nat) (stmt : Stmt)
    : WithComments (stmt.print style.withoutSpans indent) (stmt.print style.withSpans indent)
        (shown (stmt.spansInside ++ [stmt.span])) :=
  Stmt.printList_withComments indent [stmt]

theorem Block.print_withComments (block : Block)
    : WithComments (block.print style.withoutSpans) (block.print style.withSpans)
        (shown block.spansInside) :=
  (block.braced_withComments 0).before ['\n']

/-- The text of a statement or of a block with spans has the lines of its text without them, each as
it is or with one comment at its end. From the first line to the last, the comments show the spans
that are not null of all statements: of those inside a statement before its own, and of statements
next to each other in order. The block is no statement, so its span does not show.
-/
theorem showSpans_adds_comments (style : PrintStyle)
    : (∀ stmt : Stmt, ∃ lines : List CommentedLine,
        linesOf (stmt.text style.withoutSpans).toList = lines.map Prod.fst
        ∧ linesOf (stmt.text style.withSpans).toList = lines.map CommentedLine.text
        ∧ lines.filterMap Prod.snd = shown (stmt.spansInside ++ [stmt.span]))
      ∧ ∀ block : Block, ∃ lines : List CommentedLine,
        linesOf (block.text style.withoutSpans).toList = lines.map Prod.fst
        ∧ linesOf (block.text style.withSpans).toList = lines.map CommentedLine.text
        ∧ lines.filterMap Prod.snd = shown block.spansInside := by
  simp only [Stmt.text, Block.text, String.toList_ofList]
  exact ⟨fun stmt => (stmt.print_withComments 0).exists_lines,
    fun block => block.print_withComments.exists_lines⟩

/-- The span of the assignment shows before that of the branch around it. -/
example
    : ((Stmt.branch ⟨1, 0, 9⟩ (.ofName "c")
        (.ofStmts [.assign ⟨1, 5, 7⟩ [.ofName "x"] (.ofName "y"), .leave .null])).text
          (PrintStyle.withSpans {})).toList
      = ("if c \x7b\n    x := y // Span(1:5-7)\n    leave\n\x7d // Span(1:0-9)\n").toList := by
  decide

end StackIR
