import StackIR.Proofs.Phrases

/-! The text of a lexical block determines the block up to spans: `Block.print_eq_iff`.

The kind of a statement shows in the first word of its line and in the character behind that
word (`Stmt.leadingStmtKind?_core`). Blocks are closed by braces, but nothing closes a switch:
its cases end where a line at its indentation starts a statement, or where the brace of
the block around it stands further to the left (`EndsStmt`).
-/

namespace StackIR

variable {style : PrintStyle} {dialect : Dialect} (legible : style.Legible dialect)

-----------------------------------------------------------------------------------------
-- The first word of a line
-----------------------------------------------------------------------------------------

inductive StmtKind where
  | expr
  | assign
  | declare
  | define
  | branch
  | switch
  | loop
  | breakLoop
  | continueLoop
  | leave
  | block
deriving DecidableEq

def Stmt.kind : Stmt → StmtKind
  | .expr _ _ => .expr
  | .assign _ _ _ => .assign
  | .declare _ _ _ => .declare
  | .define _ _ _ _ _ => .define
  | .branch _ _ _ => .branch
  | .switch _ _ _ => .switch
  | .loop _ _ _ _ _ => .loop
  | .breakLoop _ => .breakLoop
  | .continueLoop _ => .continueLoop
  | .leave _ => .leave
  | .block _ => .block

/-- The keywords that start a line. Those of cases start no statement. -/
def lineWords : List (List Char × Option StmtKind) := [
  (['l', 'e', 't'], some .declare),
  (['f', 'u', 'n', 'c', 't', 'i', 'o', 'n'], some .define),
  (['i', 'f'], some .branch),
  (['s', 'w', 'i', 't', 'c', 'h'], some .switch),
  (['f', 'o', 'r'], some .loop),
  (['b', 'r', 'e', 'a', 'k'], some .breakLoop),
  (['c', 'o', 'n', 't', 'i', 'n', 'u', 'e'], some .continueLoop),
  (['l', 'e', 'a', 'v', 'e'], some .leave),
  (['c', 'a', 's', 'e'], none),
  (['d', 'e', 'f', 'a', 'u', 'l', 't'], none)
]

/-- The kind of a statement without a keyword, by the character behind its first word. -/
def stmtKindBefore (next : Option Char) : StmtKind :=
  if next = some ' ' ∨ next = some ',' then .assign
  else if next = some Word.openBrace then .block
  else .expr

/-- The kind of the statement that a line starts with, unless it is the line of a case. -/
def leadingStmtKind? (line : List Char) : Option StmtKind :=
  (lineWords.lookup (firstWord line)).getD
    (some (stmtKindBefore (behindFirstWord line).head?))

/-- A word of an expression leaves the kind to the character behind it. -/
theorem OpensExpr.leadingStmtKind?_append {word rest : List Char} {c : Char}
    (opens : OpensExpr word) (noWord : isWordPart c = false)
    : leadingStmtKind? (word ++ c :: rest) = some (stmtKindBefore (some c)) := by
  have ends : EndsWord (c :: rest) := endsWord_cons.mpr noWord
  have listed : ∀ entry ∈ lineWords, entry.1 ∈ keywords ∧ entry.1 ∉ booleanWords := by decide
  have unlisted : lineWords.lookup word = none := by
    refine List.lookup_eq_none_iff.mpr fun entry member => bne_iff_ne.mpr ?_
    rintro rfl
    obtain ⟨keyword, noBoolean⟩ := listed entry member
    exact noBoolean (opens.mem_booleanWords keyword)
  rw [leadingStmtKind?, opens.isWord.firstWord_append ends,
    opens.isWord.behindFirstWord_append ends, unlisted, List.head?_cons, Option.getD_none]

theorem Block.braced_eq_cons (style : PrintStyle) (indent : Nat) (block : Block)
    : ∃ tail, block.braced style indent = Word.openBrace :: tail := by
  obtain ⟨span, stmts⟩ := block
  cases stmts with
  | nil => exact ⟨_, rfl⟩
  | cons stmt rest => exact ⟨_, rfl⟩

theorem Block.braced_behind_space (style : PrintStyle) (indent : Nat) (block : Block)
    (rest : List Char)
    : ∃ body, ' ' :: (block.braced style indent ++ rest) = ' ' :: Word.openBrace :: body := by
  obtain ⟨tail, braced⟩ := block.braced_eq_cons style indent
  exact ⟨tail ++ rest, by rw [braced, List.cons_append]⟩

section
include legible

theorem Expr.leadingStmtKind?_print {expr : Expr} {rest : List Char}
    (lexical : expr.isLexical dialect = true)
    : leadingStmtKind? (expr.print style ++ '\n' :: rest) = some .expr := by
  rcases Expr.print_cases legible lexical with
    ⟨tail, text, -⟩ | ⟨word, opens, ⟨text, -⟩ | ⟨tail, text, -⟩⟩
  · rw [text]
    rfl
  · rw [text]
    exact opens.leadingStmtKind?_append (by decide)
  · rw [text, List.append_assoc]
    exact opens.leadingStmtKind?_append (by decide)

theorem Stmt.leadingStmtKind?_core {stmt : Stmt} (indent : Nat) {rest : List Char}
    (lexical : stmt.isLexical dialect = true)
    : leadingStmtKind? (stmt.core style indent ++ '\n' :: rest) = some stmt.kind := by
  cases stmt with
  | expr span value => exact Expr.leadingStmtKind?_print legible lexical
  | assign span targets value =>
      cases targets with
      | nil => rfl
      | cons target targets =>
          simp only [Stmt.isLexical, List.all_cons, Bool.and_eq_true] at lexical
          have opens : OpensExpr target.name.toList := opensExpr_of_isNameText lexical.1.1
          simp only [Stmt.core, List.map_cons, commaSeparated_cons, List.append_assoc]
          cases targets with
          | nil => exact opens.leadingStmtKind?_append (by decide)
          | cons next targets => exact opens.leadingStmtKind?_append (by decide)
  | declare span bindings value => rfl
  | define span name params returns body => rfl
  | branch span condition body => rfl
  | switch span subject cases => rfl
  | loop span pre condition post body => rfl
  | breakLoop span => rfl
  | continueLoop span => rfl
  | leave span => rfl
  | block body =>
      obtain ⟨tail, braced⟩ := body.braced_eq_cons style indent
      rw [Stmt.core, braced]
      rfl

end

-----------------------------------------------------------------------------------------
-- Statements
-----------------------------------------------------------------------------------------

/-- The line ends here, and no case stands on the next one at the indentation. -/
def EndsStmt (indent : Nat) (rest : List Char) : Prop :=
  ∃ next, rest = '\n' :: next
    ∧ ∀ line, next = spaces indent ++ line → (leadingStmtKind? line).isSome = true

/-- The statements of a block end here. -/
def EndsBlock (outer : Nat) (rest : List Char) : Prop :=
  ∃ next, rest = spaces outer ++ Word.closeBrace :: next

theorem EndsStmt.endsList {indent : Nat} {rest : List Char} (ends : EndsStmt indent rest)
    : EndsList rest := by
  obtain ⟨next, rfl, -⟩ := ends
  exact endsList_cons.mpr (by decide)

theorem EndsStmt.delimited {indent : Nat} {rest : List Char} (ends : EndsStmt indent rest)
    : Delimited rest :=
  ends.endsList.delimited

/-- No case stands where a statement ends. -/
theorem EndsStmt.ne_case {indent : Nat} {rest tail : List Char} (label : Option Literal)
    (ends : EndsStmt indent rest)
    : rest ≠ '\n' :: (spaces indent ++ (Case.printLabel label ++ tail)) := by
  rintro rfl
  obtain ⟨next, same, noCase⟩ := ends
  cases same
  have noStmt : leadingStmtKind? (Case.printLabel label ++ tail) = none := by
    cases label <;> rfl
  have starts := noCase _ rfl
  rw [noStmt] at starts
  contradiction

/-- A case begins on a line of its own. -/
theorem Stmt.delimited_printCases {indent : Nat} (cases : List Case) {rest : List Char}
    (ends : EndsStmt indent rest)
    : Delimited (Stmt.printCases style indent cases ++ rest) := by
  cases cases with
  | nil => exact ends.delimited
  | cons case cases =>
      obtain ⟨span, label, body⟩ := case
      exact ⟨'\n', rfl, by decide⟩

/-- The words in front of a case can be told apart. -/
theorem Case.printLabel_readable (label : Option Literal)
    : Readable Case.printLabel (Option.map Literal.eraseSpans) (Option.all Literal.isLexical)
        (fun _ => True) label := by
  intro label' rest rest' lexical lexical' _ _ same
  cases label with
  | some literal =>
      cases label' with
      | some literal' =>
          simp only [Case.printLabel, List.append_assoc, List.append_cancel_left_eq] at same
          obtain ⟨sameLiteral, same⟩ := literal.readable lexical lexical'
            (endsWord_cons.mpr (by decide)) (endsWord_cons.mpr (by decide)) same
          exact ⟨congrArg some sameLiteral, (List.cons.inj same).2⟩
      | none => exact absurd (List.cons.inj same).1 (by decide)
  | none =>
      cases label' with
      | some literal' => exact absurd (List.cons.inj same).1 (by decide)
      | none => exact ⟨rfl, List.append_cancel_left same⟩

section
include legible

theorem Stmt.kind_eq {a b : Stmt} {indent : Nat} {rest rest' : List Char}
    (lexical : a.isLexical dialect = true) (lexical' : b.isLexical dialect = true)
    (ends : EndsStmt indent rest) (ends' : EndsStmt indent rest')
    (same : a.core style indent ++ rest = b.core style indent ++ rest')
    : a.kind = b.kind := by
  obtain ⟨next, rfl, -⟩ := ends
  obtain ⟨next', rfl, -⟩ := ends'
  have sameKind : some a.kind = some b.kind := by
    rw [← Stmt.leadingStmtKind?_core legible indent lexical, same,
      Stmt.leadingStmtKind?_core legible indent lexical']
  exact Option.some.inj sameKind

/-- The brace that closes a block stands to the left of the statements in it. -/
theorem EndsBlock.ne_indented {outer : Nat} {rest line : List Char} (ends : EndsBlock outer rest)
    : rest ≠ spaces (outer + style.indentSize) ++ line := by
  obtain ⟨next, rfl⟩ := ends
  obtain ⟨n, size⟩ := Nat.exists_eq_succ_of_ne_zero (Nat.ne_of_gt legible.indented)
  rw [spaces_add, List.append_assoc, Ne, List.append_cancel_left_eq, size, spaces,
    List.replicate_succ, List.cons_append, List.cons.injEq]
  exact fun same => absurd same.1 (by decide)

theorem Stmt.printList_cons_append (indent : Nat) (stmt : Stmt) (stmts : List Stmt)
    (rest : List Char)
    : Stmt.printList style indent (stmt :: stmts) ++ rest
      = spaces indent
        ++ (stmt.core style indent ++ '\n' :: (Stmt.printList style indent stmts ++ rest)) := by
  simp [Stmt.printList, PrintStyle.spanComment_hidden legible.hidden]

/-- A statement of a block ends where the next one begins, or the block is closed. -/
theorem Stmt.endsStmt_printList {outer : Nat} {stmts : List Stmt} {rest : List Char}
    (lexical : Stmt.areLexical dialect stmts = true) (ends : EndsBlock outer rest)
    : EndsStmt (outer + style.indentSize)
        ('\n' :: (Stmt.printList style (outer + style.indentSize) stmts ++ rest)) := by
  refine ⟨_, rfl, fun line sameLine => ?_⟩
  cases stmts with
  | nil => exact absurd sameLine (ends.ne_indented legible)
  | cons stmt stmts =>
      simp only [Stmt.areLexical, Bool.and_eq_true] at lexical
      rw [Stmt.printList_cons_append legible, List.append_cancel_left_eq] at sameLine
      rw [← sameLine, Stmt.leadingStmtKind?_core legible _ lexical.1, Option.isSome_some]

end

/-- The value of a declaration, if it has one, can be read off the end of its line. -/
theorem Stmt.value_readable (legible : style.Legible dialect) (indent : Nat)
    (value : Option Expr)
    : Readable (fun value => (value.map (Word.assigned ++ ·.print style)).getD [])
        (Option.map Expr.eraseSpans) (Option.all (Expr.isLexical dialect)) (EndsStmt indent)
        value := by
  intro value' rest rest' lexical lexical' ends ends' same
  cases value with
  | none =>
      cases value' with
      | none => exact ⟨rfl, same⟩
      | some expr' =>
          obtain ⟨next, rfl, -⟩ := ends
          exact absurd (List.cons.inj same).1 (by decide)
  | some expr =>
      cases value' with
      | none =>
          obtain ⟨next, rfl, -⟩ := ends'
          exact absurd (List.cons.inj same).1 (by decide)
      | some expr' =>
          simp only [Option.map_some, Option.getD_some, List.append_assoc,
            List.append_cancel_left_eq] at same
          obtain ⟨sameValue, same⟩ :=
            expr.readable legible lexical lexical' ends.delimited ends'.delimited same
          exact ⟨by rw [Option.map_some, Option.map_some, sameValue], same⟩

theorem Stmt.endsList_value {indent : Nat} {rest : List Char} (value : Option Expr)
    (ends : EndsStmt indent rest)
    : EndsList ((value.map (Word.assigned ++ ·.print style)).getD [] ++ rest) := by
  cases value with
  | none => exact ends.endsList
  | some expr => exact endsList_cons.mpr (by decide)

/-- The returns of a function, if it has any, can be read off the text before its body. -/
theorem Stmt.returns_readable (returns : List Binding)
    : Readable
        (fun returns => if returns.isEmpty then [] else Word.returns ++ printBindings returns)
        (List.map Binding.eraseSpans) (List.all · Binding.isLexical)
        (fun rest => ∃ body, rest = ' ' :: Word.openBrace :: body) returns := by
  intro returns' rest rest' lexical lexical' ends ends' same
  obtain ⟨body, rfl⟩ := ends
  obtain ⟨body', rfl⟩ := ends'
  cases returns with
  | nil =>
      cases returns' with
      | nil => exact ⟨rfl, same⟩
      | cons binding' returns' =>
          exact absurd (List.cons.inj (List.cons.inj same).2).1 (by decide)
  | cons binding returns =>
      cases returns' with
      | nil => exact absurd (List.cons.inj (List.cons.inj same).2).1 (by decide)
      | cons binding' returns' =>
          simp only [List.isEmpty_cons, Bool.false_eq_true, if_false, List.append_assoc,
            List.append_cancel_left_eq] at same
          exact Binding.list_readable _ lexical lexical'
            (endsList_cons.mpr (by decide)) (endsList_cons.mpr (by decide)) same

mutual
/-- Statements, blocks, and lists of statements or cases can be read off their texts, by
induction on the first of two programs with the same text.
-/
theorem Stmt.readable (legible : style.Legible dialect) (indent : Nat)
    : ∀ a : Stmt,
      Readable (Stmt.core style indent) Stmt.eraseSpans (Stmt.isLexical dialect)
        (EndsStmt indent) a
  | .expr _ value => by
      intro b rest rest' lexical lexical' ends ends' same
      have sameKind := Stmt.kind_eq legible lexical lexical' ends ends' same
      cases b with
      | expr _ value' =>
          obtain ⟨sameValue, same⟩ :=
            value.readable legible lexical lexical' ends.delimited ends'.delimited same
          exact ⟨by simp only [Stmt.eraseSpans, sameValue], same⟩
      | _ => cases sameKind
  | .assign _ targets value => by
      intro b rest rest' lexical lexical' ends ends' same
      have sameKind := Stmt.kind_eq legible lexical lexical' ends ends' same
      cases b with
      | assign _ targets' value' =>
          simp only [Stmt.isLexical, Bool.and_eq_true] at lexical lexical'
          simp only [Stmt.core, List.append_assoc] at same
          obtain ⟨sameTargets, same⟩ := Ident.list_readable targets
            lexical.1 lexical'.1 (endsList_cons.mpr (by decide)) (endsList_cons.mpr (by decide))
            same
          obtain ⟨sameValue, same⟩ := value.readable legible lexical.2 lexical'.2
            ends.delimited ends'.delimited
            ((List.append_cancel_left_eq Word.assigned _ _).mp same)
          exact ⟨by simp only [Stmt.eraseSpans, sameTargets, sameValue], same⟩
      | _ => cases sameKind
  | .declare _ bindings value => by
      intro b rest rest' lexical lexical' ends ends' same
      have sameKind := Stmt.kind_eq legible lexical lexical' ends ends' same
      cases b with
      | declare _ bindings' value' =>
          simp only [Stmt.isLexical, Bool.and_eq_true] at lexical lexical'
          simp only [Stmt.core, List.append_assoc, List.append_cancel_left_eq] at same
          obtain ⟨sameBindings, same⟩ := Binding.list_readable bindings
            lexical.1 lexical'.1 (Stmt.endsList_value value ends)
            (Stmt.endsList_value value' ends') same
          obtain ⟨sameValue, same⟩ :=
            Stmt.value_readable legible indent value lexical.2 lexical'.2 ends ends' same
          exact ⟨by simp only [Stmt.eraseSpans, sameBindings, sameValue], same⟩
      | _ => cases sameKind
  | .define _ name params returns body => by
      intro b rest rest' lexical lexical' ends ends' same
      have sameKind := Stmt.kind_eq legible lexical lexical' ends ends' same
      cases b with
      | define _ name' params' returns' body' =>
          simp only [Stmt.isLexical, Bool.and_eq_true] at lexical lexical'
          obtain ⟨⟨⟨lexicalName, lexicalParams⟩, lexicalReturns⟩, lexicalBody⟩ := lexical
          obtain ⟨⟨⟨lexicalName', lexicalParams'⟩, lexicalReturns'⟩, lexicalBody'⟩ := lexical'
          simp only [Stmt.core, List.append_assoc, List.append_cancel_left_eq,
            List.cons_append, List.nil_append] at same
          obtain ⟨(sameName : name = name'), same⟩ := readable_of_name id id name
            lexicalName lexicalName' (endsWord_cons.mpr (by decide))
            (endsWord_cons.mpr (by decide)) same
          obtain ⟨sameParams, same⟩ := Binding.list_readable params lexicalParams
            lexicalParams' (endsList_cons.mpr (by decide)) (endsList_cons.mpr (by decide))
            (List.cons.inj same).2
          obtain ⟨sameReturns, same⟩ := Stmt.returns_readable returns lexicalReturns
            lexicalReturns' (body.braced_behind_space style indent rest)
            (body'.braced_behind_space style indent rest') (List.cons.inj same).2
          obtain ⟨sameBody, same⟩ := body.readable legible indent lexicalBody lexicalBody'
            trivial trivial (List.cons.inj same).2
          exact ⟨by simp only [Stmt.eraseSpans, sameName, sameParams, sameReturns, sameBody],
            same⟩
      | _ => cases sameKind
  | .branch _ condition body => by
      intro b rest rest' lexical lexical' ends ends' same
      have sameKind := Stmt.kind_eq legible lexical lexical' ends ends' same
      cases b with
      | branch _ condition' body' =>
          simp only [Stmt.isLexical, Bool.and_eq_true] at lexical lexical'
          simp only [Stmt.core, List.append_assoc, List.append_cancel_left_eq] at same
          obtain ⟨sameCondition, same⟩ := condition.readable legible lexical.1 lexical'.1
            (delimited_cons.mpr (by decide)) (delimited_cons.mpr (by decide)) same
          obtain ⟨sameBody, same⟩ := body.readable legible indent lexical.2 lexical'.2
            trivial trivial (List.cons.inj same).2
          exact ⟨by simp only [Stmt.eraseSpans, sameCondition, sameBody], same⟩
      | _ => cases sameKind
  | .switch _ subject cases => by
      intro b rest rest' lexical lexical' ends ends' same
      have sameKind := Stmt.kind_eq legible lexical lexical' ends ends' same
      cases b with
      | switch _ subject' cases' =>
          simp only [Stmt.isLexical, Bool.and_eq_true] at lexical lexical'
          simp only [Stmt.core, List.append_assoc, List.append_cancel_left_eq] at same
          -- A line break ends the subject, whether or not a case follows.
          obtain ⟨sameSubject, same⟩ := subject.readable legible lexical.1 lexical'.1
            (Stmt.delimited_printCases cases ends) (Stmt.delimited_printCases cases' ends') same
          obtain ⟨sameCases, same⟩ :=
            Stmt.cases_readable legible indent cases lexical.2 lexical'.2 ends ends' same
          exact ⟨by simp only [Stmt.eraseSpans, sameSubject, sameCases], same⟩
      | _ => cases sameKind
  | .loop _ pre condition post body => by
      intro b rest rest' lexical lexical' ends ends' same
      have sameKind := Stmt.kind_eq legible lexical lexical' ends ends' same
      cases b with
      | loop _ pre' condition' post' body' =>
          simp only [Stmt.isLexical, Bool.and_eq_true] at lexical lexical'
          obtain ⟨⟨⟨lexicalPre, lexicalCondition⟩, lexicalPost⟩, lexicalBody⟩ := lexical
          obtain ⟨⟨⟨lexicalPre', lexicalCondition'⟩, lexicalPost'⟩, lexicalBody'⟩ := lexical'
          simp only [Stmt.core, List.append_assoc, List.append_cancel_left_eq] at same
          obtain ⟨samePre, same⟩ := pre.readable legible indent lexicalPre lexicalPre'
            trivial trivial same
          obtain ⟨sameCondition, same⟩ := condition.readable legible lexicalCondition
            lexicalCondition' (delimited_cons.mpr (by decide)) (delimited_cons.mpr (by decide))
            (List.cons.inj same).2
          obtain ⟨samePost, same⟩ := post.readable legible indent lexicalPost lexicalPost'
            trivial trivial (List.cons.inj same).2
          obtain ⟨sameBody, same⟩ := body.readable legible indent lexicalBody lexicalBody'
            trivial trivial (List.cons.inj same).2
          exact ⟨by simp only [Stmt.eraseSpans, samePre, sameCondition, samePost, sameBody], same⟩
      | _ => cases sameKind
  | .breakLoop _ => by
      intro b rest rest' lexical lexical' ends ends' same
      have sameKind := Stmt.kind_eq legible lexical lexical' ends ends' same
      cases b with
      | breakLoop _ => exact ⟨rfl, List.append_cancel_left same⟩
      | _ => cases sameKind
  | .continueLoop _ => by
      intro b rest rest' lexical lexical' ends ends' same
      have sameKind := Stmt.kind_eq legible lexical lexical' ends ends' same
      cases b with
      | continueLoop _ => exact ⟨rfl, List.append_cancel_left same⟩
      | _ => cases sameKind
  | .leave _ => by
      intro b rest rest' lexical lexical' ends ends' same
      have sameKind := Stmt.kind_eq legible lexical lexical' ends ends' same
      cases b with
      | leave _ => exact ⟨rfl, List.append_cancel_left same⟩
      | _ => cases sameKind
  | .block body => by
      intro b rest rest' lexical lexical' ends ends' same
      have sameKind := Stmt.kind_eq legible lexical lexical' ends ends' same
      cases b with
      | block body' =>
          obtain ⟨sameBody, same⟩ := body.readable legible indent lexical lexical'
            trivial trivial same
          exact ⟨by simp only [Stmt.eraseSpans, sameBody], same⟩
      | _ => cases sameKind
theorem Block.readable (legible : style.Legible dialect) (indent : Nat)
    : ∀ a : Block,
      Readable (Block.braced style indent) Block.eraseSpans (Block.isLexical dialect)
        (fun _ => True) a
  | ⟨_, stmts⟩ => by
      intro b rest rest' lexical lexical' _ _ same
      have list := Stmt.list_readable legible indent stmts
      -- Behind its first brace an empty block goes on with a space, any other with a new line.
      obtain ⟨_, stmts'⟩ := b
      cases stmts with
      | nil =>
          cases stmts' with
          | nil => exact ⟨rfl, List.append_cancel_left same⟩
          | cons stmt' stmts' =>
              exact absurd (List.cons.inj (List.cons.inj same).2).1 (by decide)
      | cons stmt stmts =>
          cases stmts' with
          | nil => exact absurd (List.cons.inj (List.cons.inj same).2).1 (by decide)
          | cons stmt' stmts' =>
              simp only [Block.braced, List.append_assoc, List.cons_append, List.nil_append,
                List.cons.injEq, true_and] at same
              obtain ⟨sameStmts, same⟩ := list lexical lexical' ⟨rest, rfl⟩ ⟨rest', rfl⟩ same
              rw [List.append_cancel_left_eq] at same
              exact ⟨by rw [Block.eraseSpans, Block.eraseSpans, sameStmts],
                (List.cons.inj same).2⟩
theorem Stmt.list_readable (legible : style.Legible dialect) (outer : Nat)
    : ∀ as : List Stmt,
      Readable (Stmt.printList style (outer + style.indentSize)) Stmt.eraseListSpans
        (Stmt.areLexical dialect) (EndsBlock outer) as
  | [] => by
      intro bs rest rest' lexical lexical' ends ends' same
      cases bs with
      | nil => exact ⟨rfl, same⟩
      | cons b bs =>
          rw [Stmt.printList_cons_append legible] at same
          exact absurd same (ends.ne_indented legible)
  | a :: as => by
      intro bs rest rest' lexical lexical' ends ends' same
      rw [Stmt.printList_cons_append legible] at same
      cases bs with
      | nil => exact absurd same.symm (ends'.ne_indented legible)
      | cons b bs =>
          simp only [Stmt.areLexical, Bool.and_eq_true] at lexical lexical'
          rw [Stmt.printList_cons_append legible, List.append_cancel_left_eq] at same
          obtain ⟨sameHead, same⟩ := a.readable legible _ lexical.1 lexical'.1
            (Stmt.endsStmt_printList legible lexical.2 ends)
            (Stmt.endsStmt_printList legible lexical'.2 ends') same
          obtain ⟨sameTail, same⟩ := Stmt.list_readable legible outer as lexical.2 lexical'.2
            ends ends' (List.cons.inj same).2
          exact ⟨by rw [Stmt.eraseListSpans, Stmt.eraseListSpans, sameHead, sameTail], same⟩
theorem Stmt.cases_readable (legible : style.Legible dialect) (indent : Nat)
    : ∀ as : List Case,
      Readable (Stmt.printCases style indent) Stmt.eraseCaseSpans
        (Stmt.areLexicalCases dialect) (EndsStmt indent) as
  | [] => by
      intro bs rest rest' lexical lexical' ends ends' same
      cases bs with
      | nil => exact ⟨rfl, same⟩
      | cons b bs =>
          obtain ⟨_, label', body'⟩ := b
          simp only [Stmt.printCases, List.append_assoc, List.cons_append, List.nil_append]
            at same
          exact absurd same (ends.ne_case label')
  | ⟨_, label, body⟩ :: as => by
      intro bs rest rest' lexical lexical' ends ends' same
      simp only [Stmt.printCases, List.append_assoc, List.cons_append] at same
      cases bs with
      | nil => exact absurd same.symm (ends'.ne_case label)
      | cons b bs =>
          obtain ⟨_, label', body'⟩ := b
          simp only [Stmt.printCases, List.append_assoc, List.cons_append, List.cons.injEq,
            List.append_cancel_left_eq, true_and] at same
          simp only [Stmt.areLexicalCases, Bool.and_eq_true] at lexical lexical'
          obtain ⟨sameLabel, same⟩ :=
            Case.printLabel_readable label lexical.1.1 lexical'.1.1 trivial trivial same
          obtain ⟨sameBody, same⟩ := body.readable legible indent lexical.1.2 lexical'.1.2
            trivial trivial same
          obtain ⟨sameTail, same⟩ :=
            Stmt.cases_readable legible indent as lexical.2 lexical'.2 ends ends' same
          exact ⟨by simp only [Stmt.eraseCaseSpans, sameLabel, sameBody, sameTail], same⟩
end

/-- The text of a lexical block determines the block, and nothing but the block, up to spans.
-/
theorem Block.print_eq_iff (legible : style.Legible dialect) {a b : Block}
    (lexical : a.isLexical dialect = true) (lexical' : b.isLexical dialect = true)
    : a.print style = b.print style ↔ a.eraseSpans = b.eraseSpans := by
  constructor
  · intro same
    exact (a.readable legible 0 lexical lexical' trivial trivial same).1
  · intro same
    rw [← Block.print_eraseSpans legible.hidden, same, Block.print_eraseSpans legible.hidden]

/-- The texts in which blocks are printed for the stack machine can be read back. -/
theorem PrintStyle.stack_legible : PrintStyle.Legible { dialect := some .stack } .stack where
  named := rfl
  callees := Dialect.stack_legible
  indented := by decide
  hidden := rfl

/-- Two lexical blocks have the same text on the stack machine exactly if they are equal up to
spans.
-/
theorem Block.textFor_stack_eq_iff {a b : Block} (lexical : a.isLexical .stack = true)
    (lexical' : b.isLexical .stack = true)
    : a.textFor .stack = b.textFor .stack ↔ a.eraseSpans = b.eraseSpans := by
  rw [Block.textFor, Block.textFor, Block.text, Block.text, String.ofList_inj]
  exact Block.print_eq_iff PrintStyle.stack_legible lexical lexical'

/-- A user function that takes the name of a builtin cannot be told from it. A block that calls
one is not lexical.
-/
example
    : (Block.ofStmts [.expr .null (.call .null (.ofName "stop") [])]).textFor .stack
        = (Block.ofStmts [.expr .null (.call .null (.builtin .null ⟨0⟩) [])]).textFor .stack := by
  decide +kernel

/-- A block with every form of statement, and with callees of every kind, placed at `span`.
-/
def Block.everyForm (span : Span) : Block :=
  let x : Ident := ⟨span, "x"⟩
  let quoted : Literal := ⟨span, .string, "a\"\\\n"⟩
  ⟨span, [
    .define span "f" [⟨span, "a"⟩] [⟨span, "r"⟩] ⟨span, [.leave span]⟩,
    .declare span [⟨span, "x"⟩, ⟨span, "y"⟩] none,
    .declare span [] (some (.literal quoted)),
    .assign span [] (.call span (.user ⟨span, "f"⟩) [.literal quoted, .ident x]),
    .assign span [x] (.call span (.builtin span ⟨99⟩) []),
    .switch span (.ident x) [
      ⟨span, some ⟨span, .number, "0x1"⟩, ⟨span, []⟩⟩,
      ⟨span, none, ⟨span, [.breakLoop span]⟩⟩],
    .switch span (.literal ⟨span, .boolean, "true"⟩) [],
    .loop span ⟨span, []⟩ (.ident x) ⟨span, []⟩ ⟨span, [.continueLoop span]⟩,
    .expr span (.call span (.verbatim span ⟨1, 0⟩) [.literal quoted]),
    .block ⟨span, [.branch span (.call span (.builtin span ⟨32⟩) []) ⟨span, []⟩]⟩]⟩

/-- The text does not tell at which span the block is placed. -/
theorem Block.textFor_stack_eq_iff_everyForm
    : everyForm ⟨1, 2, 9⟩ ≠ everyForm .null
      ∧ (everyForm ⟨1, 2, 9⟩).textFor .stack = (everyForm .null).textFor .stack
      ∧ (everyForm ⟨1, 2, 9⟩).eraseSpans = (everyForm .null).eraseSpans := by
  have lexical : (everyForm ⟨1, 2, 9⟩).isLexical .stack = true := by decide +kernel
  have lexical' : (everyForm .null).isLexical .stack = true := by decide +kernel
  have samePrint : (everyForm ⟨1, 2, 9⟩).print { dialect := some .stack }
      = (everyForm .null).print { dialect := some .stack } := by
    decide +kernel
  have sameText : (everyForm ⟨1, 2, 9⟩).textFor .stack = (everyForm .null).textFor .stack :=
    congrArg String.ofList samePrint
  exact ⟨by decide, sameText, (textFor_stack_eq_iff lexical lexical').mp sameText⟩

end StackIR
