import StackIR.Dialect.Stack
import StackIR.Proofs.Lexical

/-! The parts of a line: callees, lists and expressions.

Three kinds of callees share one space of names. A dialect is legible if they do not clash
there, and that of the stack machine is (`Dialect.stack_legible`). An expression ends before
a delimiter, and a list before a delimiter other than a comma; up to there each of them
can be read off its text: `Callee.readable`, `Expr.readable`, `commaSeparated_readable`.
-/

namespace StackIR

-----------------------------------------------------------------------------------------
-- Callees
-----------------------------------------------------------------------------------------

/-- The texts of callees can be told apart: the builtins have distinct names, which are neither
those of verbatim functions nor free for user functions.
-/
structure Dialect.Legible (dialect : Dialect) : Prop where
  isNameText_builtin : ∀ {handle builtin},
    dialect.builtin? handle = some builtin → isNameText builtin.name.toList = true
  findBuiltin?_builtin : ∀ {handle builtin},
    dialect.builtin? handle = some builtin → dialect.findBuiltin? builtin.name = some handle
  findBuiltin?_verbatim : ∀ handle : VerbatimHandle, dialect.findBuiltin? handle.name = none
  findVerbatim?_verbatim : ∀ handle : VerbatimHandle,
    dialect.findVerbatim? handle.name = some handle
  find?_free : ∀ {name}, dialect.isReserved name = false →
    dialect.findBuiltin? name = none ∧ dialect.findVerbatim? name = none

/-- Programs in this style can be read off their texts: the callees can be told apart, blocks are
indented, and spans do not show.
-/
structure PrintStyle.Legible (style : PrintStyle) (dialect : Dialect) : Prop where
  named : style.dialect = some dialect
  callees : dialect.Legible
  indented : 0 < style.indentSize
  hidden : style.showSpans = false

/-- The callee that a word stands for. -/
def Dialect.calleeOf (dialect : Dialect) (text : List Char) : Callee :=
  if '#' ∈ text then
    .builtin .null ⟨.ofNat (Decimal.value (text.drop Word.builtin.length))⟩
  else
    let name := String.ofList text
    match dialect.findBuiltin? name, dialect.findVerbatim? name with
    | some handle, _ => .builtin .null handle
    | none, some handle => .verbatim .null handle
    | none, none => .user (.ofName name)

theorem isNamePart_of_mem_digits {n : Nat} {c : Char} (member : c ∈ Decimal.digits n)
    : isNamePart c = true :=
  isNamePart_of_isNumberPart (isNumberPart_of_isDigit (Decimal.isDigit_of_mem_digits member))

/-- Verbatim functions have names. -/
theorem VerbatimHandle.isNameText_nameChars (handle : VerbatimHandle)
    : isNameText handle.nameChars = true := by
  have parts : ∀ c ∈ handle.nameChars, isNamePart c = true := by
    simp only [nameChars, List.forall_mem_append, List.forall_mem_cons]
    exact ⟨List.all_eq_true.mp rfl, fun _ => isNamePart_of_mem_digits, by decide, by decide,
      fun _ => isNamePart_of_mem_digits, by decide, by simp⟩
  have noKeyword : handle.nameChars ∉ keywords := by
    intro member
    have other : ∀ word ∈ keywords, word.head? ≠ some 'v' := by decide
    exact other _ member rfl
  have first : handle.nameChars = 'v' :: handle.nameChars.tail := rfl
  rw [first] at parts noKeyword ⊢
  simp only [isNameText, Bool.and_eq_true, List.all_eq_true, Bool.not_eq_true',
    List.contains_eq_mem, decide_eq_false_iff_not]
  exact ⟨⟨by decide, (List.forall_mem_cons.mp parts).2⟩, noKeyword⟩

theorem hash_not_mem_of_isNameText {text : List Char} (name : isNameText text = true)
    : '#' ∉ text :=
  fun member => absurd (isNamePart_of_isNameText name _ member) (by decide)

namespace Callee

variable {style : PrintStyle} {dialect : Dialect} (legible : style.Legible dialect)
include legible

/-- Every callee is named, save for builtins that the dialect does not know. -/
theorem print_cases {callee : Callee} (lexical : callee.isLexical dialect = true)
    : isNameText (callee.print style) = true
      ∨ ∃ n, callee.print style = Word.builtin ++ Decimal.digits n := by
  cases callee with
  | builtin span handle =>
      cases known : dialect.builtin? handle with
      | some builtin =>
          refine .inl ?_
          simp only [print, PrintStyle.builtin, legible.named, Option.bind_some, known]
          exact legible.callees.isNameText_builtin known
      | none =>
          refine .inr ⟨handle.index.toNat, ?_⟩
          simp [print, PrintStyle.builtin, legible.named, known]
  | verbatim span handle => exact .inl handle.isNameText_nameChars
  | user ident =>
      simp only [isLexical, Bool.and_eq_true] at lexical
      exact .inl lexical.1

theorem opensExpr_print {callee : Callee} (lexical : callee.isLexical dialect = true)
    : OpensExpr (callee.print style) := by
  rcases print_cases legible lexical with name | ⟨n, text⟩
  · exact opensExpr_of_isNameText name
  -- A number sign sets the text of an unknown builtin apart from all names and keywords.
  · rw [text]
    refine ⟨⟨by simp [Word.builtin], List.forall_mem_append.mpr ⟨List.all_eq_true.mp rfl, ?_⟩⟩, ?_⟩
    · exact fun c member => isWordPart_of_isNamePart (isNamePart_of_mem_digits member)
    · intro keyword
      have noHash : ∀ word ∈ keywords, '#' ∉ word := by decide
      exact absurd (List.mem_append_left _ (by decide)) (noHash _ keyword)

/-- A callee is found again under its text. -/
theorem calleeOf_print {callee : Callee} (lexical : callee.isLexical dialect = true)
    : dialect.calleeOf (callee.print style) = callee.eraseSpans := by
  cases callee with
  | builtin span handle =>
      cases known : dialect.builtin? handle with
      | some builtin =>
          have noHash := hash_not_mem_of_isNameText (legible.callees.isNameText_builtin known)
          simp [print, PrintStyle.builtin, legible.named, known, Dialect.calleeOf, noHash,
            legible.callees.findBuiltin?_builtin known, eraseSpans]
      | none =>
          have hash : '#' ∈ Word.builtin ++ Decimal.digits handle.index.toNat :=
            List.mem_append_left _ (by decide)
          simp [print, PrintStyle.builtin, legible.named, known, Dialect.calleeOf, hash,
            Decimal.value_digits, eraseSpans]
  | verbatim span handle =>
      have noHash := hash_not_mem_of_isNameText handle.isNameText_nameChars
      have name : String.ofList handle.nameChars = handle.name := rfl
      simp [print, Dialect.calleeOf, noHash, name, legible.callees.findBuiltin?_verbatim,
        legible.callees.findVerbatim?_verbatim, eraseSpans]
  | user ident =>
      simp only [isLexical, Bool.and_eq_true, Bool.not_eq_true'] at lexical
      have noHash := hash_not_mem_of_isNameText lexical.1
      obtain ⟨noBuiltin, noVerbatim⟩ := legible.callees.find?_free lexical.2
      simp [print, Dialect.calleeOf, noHash, noBuiltin, noVerbatim, eraseSpans,
        Ident.eraseSpans]

theorem readable (a : Callee)
    : Readable (print style) eraseSpans (isLexical dialect) EndsWord a := by
  intro b rest rest' lexical lexical' ends ends' same
  obtain ⟨sameText, sameRest⟩ :=
    (opensExpr_print legible lexical).isWord.append_inj
      (opensExpr_print legible lexical').isWord ends ends' same
  refine ⟨?_, sameRest⟩
  rw [← calleeOf_print legible lexical, sameText, calleeOf_print legible lexical']

end Callee

namespace Dialect

/-- Distinct names lead back to the places of their builtins. -/
theorem findInTable?_getElem? {builtins : List Builtin} {place : Nat} {builtin : Builtin}
    (distinct : (builtins.map Builtin.name).Nodup) (known : builtins[place]? = some builtin)
    : findInTable? builtins builtin.name = some ⟨.ofNat place⟩ := by
  obtain ⟨inside, rfl⟩ := List.getElem?_eq_some_iff.mp known
  have apart := List.pairwise_iff_getElem.mp (List.pairwise_map.mp distinct)
  have first : builtins.findIdx? (·.name == builtins[place].name) = some place := by
    refine List.findIdx?_eq_some_iff_getElem.mpr ⟨inside, by simp, fun other before => ?_⟩
    simpa using apart other place (Nat.lt_trans before inside) inside before
  rw [findInTable?, first, Option.map_some]

/-- The texts of callees can be told apart if the builtins of a table have distinct names, none
of which looks like that of a verbatim function.
-/
theorem ofTable_legible {name : String} {builtins : List Builtin}
    {verbatim : VerbatimHandle → VerbatimFunction} {reserved : List Name}
    (isName : ∀ builtin ∈ builtins, isNameText builtin.name.toList = true)
    (distinct : (builtins.map Builtin.name).Nodup)
    (apart : ∀ builtin ∈ builtins, VerbatimHandle.ofName? builtin.name = none)
    : (ofTable name builtins verbatim reserved).Legible where
  isNameText_builtin known := isName _ (List.mem_of_getElem? known)
  findBuiltin?_builtin {handle _} known := by
    have found := findInTable?_getElem? distinct known
    rwa [UInt64.ofNat_toNat] at found
  findBuiltin?_verbatim handle := by
    have unnamed : ∀ builtin ∈ builtins, builtin.name ≠ handle.name := by
      intro builtin member same
      have none := apart builtin member
      rw [same, VerbatimHandle.ofName?_name] at none
      contradiction
    simpa [ofTable, findInTable?] using unnamed
  findVerbatim?_verbatim := VerbatimHandle.ofName?_name
  find?_free {taken} free := by
    simp only [ofTable, Bool.or_eq_false_iff, Option.isSome_eq_false_iff,
      Option.isNone_iff_eq_none] at free
    exact ⟨free.1.2, free.2⟩

theorem stack_legible : stack.Legible :=
  ofTable_legible (by decide +kernel) (by decide +kernel) (by decide +kernel)

end Dialect

-----------------------------------------------------------------------------------------
-- Lists
-----------------------------------------------------------------------------------------

/-- What can stand behind a list: a space, a line break or a closing parenthesis. -/
def isListEnd (c : Char) : Bool := c == ' ' || c == '\n' || c == ')'

/-- What can stand behind an expression: a comma as well. -/
def isDelimiter (c : Char) : Bool := c == ',' || isListEnd c

def EndsList (rest : List Char) : Prop := ∃ c ∈ rest.head?, isListEnd c = true

def Delimited (rest : List Char) : Prop := ∃ c ∈ rest.head?, isDelimiter c = true

@[simp] theorem endsList_cons {c : Char} {rest : List Char}
    : EndsList (c :: rest) ↔ isListEnd c = true := by
  simp [EndsList]

@[simp] theorem delimited_cons {c : Char} {rest : List Char}
    : Delimited (c :: rest) ↔ isDelimiter c = true := by
  simp [Delimited]

theorem EndsList.delimited {rest : List Char} (ends : EndsList rest) : Delimited rest := by
  obtain ⟨c, first, isEnd⟩ := ends
  exact ⟨c, first, by simp [isDelimiter, isEnd]⟩

theorem EndsList.ne_comma {rest tail : List Char} (ends : EndsList rest) : rest ≠ ',' :: tail := by
  rintro rfl
  exact absurd (endsList_cons.mp ends) (by decide)

theorem Delimited.exists_cons {rest : List Char} (delimited : Delimited rest)
    : ∃ c tail, rest = c :: tail ∧ isWordPart c = false ∧ c ≠ '(' := by
  obtain ⟨c, first, isDelimiter⟩ := delimited
  obtain ⟨tail, rfl⟩ := List.head?_eq_some_iff.mp first
  refine ⟨c, tail, rfl, ?_⟩
  simp only [StackIR.isDelimiter, isListEnd, Bool.or_eq_true, beq_iff_eq] at isDelimiter
  rcases isDelimiter with rfl | (rfl | rfl) | rfl <;> decide

theorem Delimited.endsWord {rest : List Char} (delimited : Delimited rest) : EndsWord rest := by
  obtain ⟨c, tail, rfl, noWord, -⟩ := delimited.exists_cons
  exact endsWord_cons.mpr noWord

theorem EndsList.endsWord {rest : List Char} (ends : EndsList rest) : EndsWord rest :=
  ends.delimited.endsWord

theorem Delimited.ne_paren {rest : List Char} (delimited : Delimited rest)
    : rest.head? ≠ some '(' := by
  obtain ⟨c, tail, rfl, -, noParen⟩ := delimited.exists_cons
  simpa using noParen

theorem IsWord.starts_append {word : List Char} (isWord : IsWord word) (tail : List Char)
    : ∃ c ∈ (word ++ tail).head?, isListEnd c = false := by
  obtain ⟨nonempty, parts⟩ := isWord
  obtain ⟨c, rest, rfl⟩ := List.exists_cons_of_ne_nil nonempty
  refine ⟨c, by simp, Bool.eq_false_iff.mpr fun isEnd => ?_⟩
  have ends : EndsWord [c] := EndsList.endsWord (endsList_cons.mpr isEnd)
  rw [endsWord_cons, parts c List.mem_cons_self] at ends
  contradiction

/-- The texts, each with a comma and a space in front. -/
def commaPrefixed (texts : List (List Char)) : List Char := texts.flatMap ([',', ' '] ++ ·)

theorem commaSeparated_cons (text : List Char) (texts : List (List Char))
    : commaSeparated (text :: texts) = text ++ commaPrefixed texts := by
  induction texts generalizing text with
  | nil => simp [commaSeparated, commaPrefixed]
  | cons next texts ih =>
      rw [commaSeparated, List.intercalate_cons_cons, ← commaSeparated, ih]
      simp [commaPrefixed]

section

variable {α : Type} {text : α → List Char} {erase : α → α} {lexical : α → Bool}

theorem delimited_commaPrefixed {rest : List Char} (ends : EndsList rest)
    (texts : List (List Char))
    : Delimited (commaPrefixed texts ++ rest) := by
  cases texts with
  | nil => exact ends.delimited
  | cons next texts => simp [commaPrefixed, isDelimiter]

theorem commaPrefixed_readable {as : List α}
    (readable : ∀ a ∈ as, Readable text erase lexical Delimited a)
    : Readable (fun as => commaPrefixed (as.map text)) (List.map erase) (List.all · lexical)
        EndsList as := by
  induction as with
  | nil =>
      intro bs rest rest' _ _ ends ends' same
      cases bs with
      | nil => exact ⟨rfl, same⟩
      | cons b bs => exact absurd same ends.ne_comma
  | cons a as ih =>
      intro bs rest rest' lexicals lexicals' ends ends' same
      cases bs with
      | nil => exact absurd same.symm ends'.ne_comma
      | cons b bs =>
          obtain ⟨readable, readables⟩ := List.forall_mem_cons.mp readable
          simp only [List.all_cons, Bool.and_eq_true] at lexicals lexicals'
          simp only [commaPrefixed, List.map_cons, List.flatMap_cons, List.append_assoc,
            List.append_cancel_left_eq] at same
          obtain ⟨sameHead, same⟩ := readable lexicals.1 lexicals'.1
            (delimited_commaPrefixed ends _) (delimited_commaPrefixed ends' _) same
          obtain ⟨sameTail, same⟩ := ih readables lexicals.2 lexicals'.2 ends ends' same
          exact ⟨by rw [List.map_cons, List.map_cons, sameHead, sameTail], same⟩

theorem EndsList.ne_append {word rest tail : List Char} (ends : EndsList rest)
    (starts : ∃ c ∈ word.head?, isListEnd c = false)
    : rest ≠ word ++ tail := by
  rintro rfl
  obtain ⟨c, first, noEnd⟩ := starts
  obtain ⟨behind, rfl⟩ := List.head?_eq_some_iff.mp first
  rw [List.cons_append, endsList_cons, noEnd] at ends
  contradiction

/-- A list can be read off its text if each of its items can, and none of them starts like
what can stand behind the list.
-/
theorem commaSeparated_readable {as : List α}
    (starts : ∀ a, lexical a = true → ∃ c ∈ (text a).head?, isListEnd c = false)
    (readable : ∀ a ∈ as, Readable text erase lexical Delimited a)
    : Readable (fun as => commaSeparated (as.map text)) (List.map erase) (List.all · lexical)
        EndsList as := by
  intro bs rest rest' lexicals lexicals' ends ends' same
  cases as with
  | nil =>
      cases bs with
      | nil => exact ⟨rfl, same⟩
      | cons b bs =>
          simp only [List.all_cons, Bool.and_eq_true] at lexicals'
          simp only [List.map_cons, commaSeparated_cons, List.append_assoc] at same
          exact absurd same (ends.ne_append (starts b lexicals'.1))
  | cons a as =>
      simp only [List.all_cons, Bool.and_eq_true] at lexicals
      simp only [List.map_cons, commaSeparated_cons, List.append_assoc] at same
      cases bs with
      | nil => exact absurd same.symm (ends'.ne_append (starts a lexicals.1))
      | cons b bs =>
          obtain ⟨readable, readables⟩ := List.forall_mem_cons.mp readable
          simp only [List.all_cons, Bool.and_eq_true] at lexicals'
          simp only [List.map_cons, commaSeparated_cons, List.append_assoc] at same
          obtain ⟨sameHead, same⟩ := readable lexicals.1 lexicals'.1
            (delimited_commaPrefixed ends _) (delimited_commaPrefixed ends' _) same
          obtain ⟨sameTail, same⟩ :=
            commaPrefixed_readable readables lexicals.2 lexicals'.2 ends ends' same
          exact ⟨by rw [List.map_cons, List.map_cons, sameHead, sameTail], same⟩

/-- A list of named things can be read off their names. -/
theorem names_readable (nameOf : α → Name) (place : Name → α) (as : List α)
    : Readable (fun as => commaSeparated (as.map fun a => (nameOf a).toList))
        (List.map fun a => place (nameOf a)) (List.all · fun a => isNameText (nameOf a).toList)
        EndsList as := by
  have starts : ∀ a, isNameText (nameOf a).toList = true
      → ∃ c ∈ (nameOf a).toList.head?, isListEnd c = false :=
    fun a name => by simpa using (isWord_of_isNameText name).starts_append []
  exact commaSeparated_readable starts fun a _ =>
    (readable_of_name nameOf place a).mono fun _ ends => ends.endsWord

theorem Ident.list_readable (idents : List Ident)
    : Readable (fun idents => commaSeparated (idents.map (·.name.toList)))
        (List.map Ident.eraseSpans) (List.all · Ident.isLexical) EndsList idents :=
  names_readable Ident.name Ident.ofName idents

theorem Binding.list_readable (bindings : List Binding)
    : Readable printBindings (List.map Binding.eraseSpans) (List.all · Binding.isLexical)
        EndsList bindings :=
  names_readable Binding.name Binding.ofName bindings

end

-----------------------------------------------------------------------------------------
-- Expressions
-----------------------------------------------------------------------------------------

inductive ExprKind where
  | ident
  | literal
  | call
deriving DecidableEq

def Expr.kind : Expr → ExprKind
  | .ident _ => .ident
  | .literal _ => .literal
  | .call _ _ _ => .call

/-- The kind of the expression that a text starts with. -/
def leadingExprKind (text : List Char) : ExprKind :=
  if (behindFirstWord text).head? = some '(' then .call
  else if isNameText (firstWord text) then .ident
  else .literal

variable {style : PrintStyle} {dialect : Dialect} (legible : style.Legible dialect)

section
include legible

/-- An expression starts with a quote or with a word, and its kind shows in how it goes on.
-/
theorem Expr.print_cases {expr : Expr} (lexical : expr.isLexical dialect = true)
    : (∃ tail, expr.print style = '"' :: tail ∧ expr.kind = .literal)
      ∨ ∃ word, OpensExpr word
        ∧ ((expr.print style = word
            ∧ expr.kind = if isNameText word then .ident else .literal)
          ∨ ∃ tail, expr.print style = word ++ '(' :: tail ∧ expr.kind = .call) := by
  cases expr with
  | ident i =>
      refine .inr ⟨_, opensExpr_of_isNameText lexical, .inl ⟨rfl, ?_⟩⟩
      exact (if_pos lexical).symm
  | literal l =>
      by_cases string : l.kind = .string
      · exact .inl ⟨_, by rw [Expr.print, Literal.print, string], rfl⟩
      · refine .inr ⟨_, Literal.opensExpr_print lexical string, .inl ⟨rfl, ?_⟩⟩
        rw [Literal.isNameText_print lexical string]
        rfl
  | call span callee args =>
      simp only [Expr.isLexical, Bool.and_eq_true] at lexical
      exact .inr ⟨_, Callee.opensExpr_print legible lexical.1, .inr ⟨_, rfl, rfl⟩⟩

theorem Expr.leadingExprKind_print {expr : Expr} {rest : List Char}
    (lexical : expr.isLexical dialect = true) (delimited : Delimited rest)
    : leadingExprKind (expr.print style ++ rest) = expr.kind := by
  rcases Expr.print_cases legible lexical with
    ⟨tail, text, kind⟩ | ⟨word, opens, ⟨text, kind⟩ | ⟨tail, text, kind⟩⟩
  · rw [text, kind]
    rfl
  · rw [text, kind, leadingExprKind, opens.isWord.firstWord_append delimited.endsWord,
      opens.isWord.behindFirstWord_append delimited.endsWord, if_neg delimited.ne_paren]
  · have ends : EndsWord ('(' :: (tail ++ rest)) := endsWord_cons.mpr (by decide)
    rw [text, kind, List.append_assoc, List.cons_append, leadingExprKind,
      opens.isWord.behindFirstWord_append ends]
    rfl

theorem Expr.starts_print {expr : Expr} (lexical : expr.isLexical dialect = true)
    : ∃ c ∈ (expr.print style).head?, isListEnd c = false := by
  rcases Expr.print_cases legible lexical with
    ⟨tail, text, -⟩ | ⟨word, opens, ⟨text, -⟩ | ⟨tail, text, -⟩⟩
  · exact ⟨'"', by rw [text]; rfl, by decide⟩
  · simpa [text] using opens.isWord.starts_append []
  · rw [text]
    exact opens.isWord.starts_append _

end

theorem Expr.printArgs_eq_map (args : List Expr)
    : Expr.printArgs style args = args.map (Expr.print style) := by
  induction args with
  | nil => rfl
  | cons arg args ih => rw [Expr.printArgs, ih, List.map_cons]

theorem Expr.areLexicalArgs_eq_all (args : List Expr)
    : Expr.areLexicalArgs dialect args = args.all (Expr.isLexical dialect) := by
  induction args with
  | nil => rfl
  | cons arg args ih => rw [Expr.areLexicalArgs, ih, List.all_cons]

theorem Expr.kind_eq {a b : Expr} {rest rest' : List Char}
    (legible : style.Legible dialect)
    (lexical : a.isLexical dialect = true) (lexical' : b.isLexical dialect = true)
    (ends : Delimited rest) (ends' : Delimited rest')
    (same : a.print style ++ rest = b.print style ++ rest')
    : a.kind = b.kind := by
  rw [← Expr.leadingExprKind_print legible lexical ends, same,
    Expr.leadingExprKind_print legible lexical' ends']

mutual
theorem Expr.readable (legible : style.Legible dialect)
    : ∀ a : Expr,
      Readable (Expr.print style) Expr.eraseSpans (Expr.isLexical dialect) Delimited a
  | .ident i => by
      intro b rest rest' lexical lexical' ends ends' same
      have sameKind := Expr.kind_eq legible lexical lexical' ends ends' same
      cases b with
      | ident i' =>
          obtain ⟨sameIdent, same⟩ := Ident.readable i lexical lexical' ends.endsWord
            ends'.endsWord same
          exact ⟨congrArg Expr.ident sameIdent, same⟩
      | _ => cases sameKind
  | .literal l => by
      intro b rest rest' lexical lexical' ends ends' same
      have sameKind := Expr.kind_eq legible lexical lexical' ends ends' same
      cases b with
      | literal l' =>
          obtain ⟨sameLiteral, same⟩ :=
            l.readable lexical lexical' ends.endsWord ends'.endsWord same
          exact ⟨congrArg Expr.literal sameLiteral, same⟩
      | _ => cases sameKind
  | .call _ callee args => by
      intro b rest rest' lexical lexical' ends ends' same
      have sameKind := Expr.kind_eq legible lexical lexical' ends ends' same
      cases b with
      | call _ callee' args' =>
          simp only [Expr.isLexical, Bool.and_eq_true, Expr.areLexicalArgs_eq_all]
            at lexical lexical'
          simp only [Expr.print, List.append_assoc, List.cons_append, List.nil_append,
            Expr.printArgs_eq_map] at same
          obtain ⟨sameCallee, same⟩ := Callee.readable legible callee lexical.1 lexical'.1
            (endsWord_cons.mpr (by decide)) (endsWord_cons.mpr (by decide)) same
          obtain ⟨sameArgs, same⟩ := commaSeparated_readable
            (fun a => Expr.starts_print legible) (Expr.args_readable legible args)
            lexical.2 lexical'.2 (endsList_cons.mpr (by decide)) (endsList_cons.mpr (by decide))
            (List.cons.inj same).2
          simp only [Expr.eraseSpans, Expr.eraseArgSpans_eq_map, sameCallee, sameArgs]
          exact ⟨trivial, (List.cons.inj same).2⟩
      | _ => cases sameKind
theorem Expr.args_readable (legible : style.Legible dialect)
    : ∀ args : List Expr, ∀ a ∈ args,
      Readable (Expr.print style) Expr.eraseSpans (Expr.isLexical dialect) Delimited a
  | [] => by simp
  | arg :: args =>
      List.forall_mem_cons.mpr
        ⟨Expr.readable legible arg, Expr.args_readable legible args⟩
end

end StackIR
