import StackIR.Proofs.Erasure

/-! Lexical programs, and the words of their texts.

A program is lexical if its names, numbers and booleans are spelled as in a source text. They
are all words: runs of characters that end where a character of another kind follows, so
a word and what stands behind it determine each other (`IsWord.append_inj`). Strings end at
the first quote that is not escaped (`escape_append_inj`), and so constants of every kind
can be read off their texts (`Literal.readable`).
-/

namespace StackIR

-----------------------------------------------------------------------------------------
-- Spelling
-----------------------------------------------------------------------------------------

/-- The words that are no names. -/
def keywords : List (List Char) := [
  ['l', 'e', 't'],
  ['f', 'u', 'n', 'c', 't', 'i', 'o', 'n'],
  ['i', 'f'],
  ['s', 'w', 'i', 't', 'c', 'h'],
  ['c', 'a', 's', 'e'],
  ['d', 'e', 'f', 'a', 'u', 'l', 't'],
  ['f', 'o', 'r'],
  ['b', 'r', 'e', 'a', 'k'],
  ['c', 'o', 'n', 't', 'i', 'n', 'u', 'e'],
  ['l', 'e', 'a', 'v', 'e'],
  ['t', 'r', 'u', 'e'],
  ['f', 'a', 'l', 's', 'e']
]

/-- The keywords that are constants. -/
def booleanWords : List (List Char) := [['t', 'r', 'u', 'e'], ['f', 'a', 'l', 's', 'e']]

/-- A letter, an underscore or a dollar sign. -/
def isNameStart (c : Char) : Bool := c.isAlpha || c == '_' || c == '$'

/-- A letter, a digit, an underscore, a dollar sign or a dot. -/
def isNamePart (c : Char) : Bool := c.isAlphanum || c == '_' || c == '$' || c == '.'

/-- A letter, a digit, an underscore or a dot. -/
def isNumberPart (c : Char) : Bool := c.isAlphanum || c == '_' || c == '.'

/-- Spelled as a name is. -/
def isNameText : List Char → Bool
  | [] => false
  | c :: rest => isNameStart c && rest.all isNamePart && !keywords.contains (c :: rest)

/-- Spelled as a number is. -/
def isNumberText : List Char → Bool
  | [] => false
  | c :: rest => c.isDigit && rest.all isNumberPart

/-- A string may have any contents. -/
def Literal.isLexical (literal : Literal) : Bool :=
  match literal.kind with
  | .string => true
  | .number => isNumberText literal.value.toList
  | .boolean => booleanWords.contains literal.value.toList

def Ident.isLexical (ident : Ident) : Bool := isNameText ident.name.toList

def Binding.isLexical (binding : Binding) : Bool := isNameText binding.name.toList

section

variable (dialect : Dialect)

/-- A user function has a name that the dialect does not reserve. -/
def Callee.isLexical : Callee → Bool
  | .builtin _ _ | .verbatim _ _ => true
  | .user ident => ident.isLexical && !dialect.isReserved ident.name

mutual
def Expr.isLexical : Expr → Bool
  | .ident i => i.isLexical
  | .literal l => l.isLexical
  | .call _ callee args => callee.isLexical dialect && Expr.areLexicalArgs args
def Expr.areLexicalArgs : List Expr → Bool
  | [] => true
  | arg :: args => arg.isLexical && Expr.areLexicalArgs args
end

mutual
def Stmt.isLexical : Stmt → Bool
  | .expr _ value => value.isLexical dialect
  | .assign _ targets value => targets.all Ident.isLexical && value.isLexical dialect
  | .declare _ bindings value =>
      bindings.all Binding.isLexical && value.all (Expr.isLexical dialect)
  | .define _ name params returns body =>
      isNameText name.toList && params.all Binding.isLexical && returns.all Binding.isLexical
        && body.isLexical
  | .branch _ condition body => condition.isLexical dialect && body.isLexical
  | .switch _ subject cases => subject.isLexical dialect && Stmt.areLexicalCases cases
  | .loop _ pre condition post body =>
      pre.isLexical && condition.isLexical dialect && post.isLexical && body.isLexical
  | .breakLoop _ | .continueLoop _ | .leave _ => true
  | .block body => body.isLexical
/-- All names, numbers and booleans in the block are spelled as in a source text, and no user
function that it calls has a reserved name.
-/
def Block.isLexical : Block → Bool
  | ⟨_, stmts⟩ => Stmt.areLexical stmts
def Stmt.areLexical : List Stmt → Bool
  | [] => true
  | stmt :: rest => stmt.isLexical && Stmt.areLexical rest
def Stmt.areLexicalCases : List Case → Bool
  | [] => true
  | ⟨_, label, body⟩ :: rest =>
      label.all Literal.isLexical && body.isLexical && Stmt.areLexicalCases rest
end

end

-----------------------------------------------------------------------------------------
-- Words
-----------------------------------------------------------------------------------------

/-- The characters of names, of numbers, and of the texts of callees. -/
def isWordPart (c : Char) : Bool := isNamePart c || c == '#'

/-- A non-empty run of word characters. -/
def IsWord (text : List Char) : Prop := text ≠ [] ∧ ∀ c ∈ text, isWordPart c = true

/-- No word goes on in this text. -/
def EndsWord (rest : List Char) : Prop := ∀ c ∈ rest.head?, isWordPart c = false

@[simp] theorem endsWord_cons {c : Char} {rest : List Char}
    : EndsWord (c :: rest) ↔ isWordPart c = false := by
  simp [EndsWord]

def firstWord (text : List Char) : List Char := text.takeWhile isWordPart

def behindFirstWord (text : List Char) : List Char := text.dropWhile isWordPart

theorem isWordPart_of_isNamePart {c : Char} (part : isNamePart c = true)
    : isWordPart c = true := by
  simp [isWordPart, part]

theorem isNamePart_of_isNameStart {c : Char} (start : isNameStart c = true)
    : isNamePart c = true := by
  simp only [isNameStart, Bool.or_eq_true, beq_iff_eq] at start
  simp only [isNamePart, Char.isAlphanum, Bool.or_eq_true, beq_iff_eq]
  grind

theorem isNamePart_of_isNumberPart {c : Char} (part : isNumberPart c = true)
    : isNamePart c = true := by
  simp only [isNumberPart, Bool.or_eq_true, beq_iff_eq] at part
  simp only [isNamePart, Bool.or_eq_true, beq_iff_eq]
  grind

theorem isNumberPart_of_isDigit {c : Char} (digit : c.isDigit = true)
    : isNumberPart c = true := by
  simp [isNumberPart, Char.isAlphanum, digit]

theorem isAlpha_eq_false_of_isDigit {c : Char} (digit : c.isDigit = true)
    : c.isAlpha = false := by
  change (decide (48 ≤ c.val) && decide (c.val ≤ 57)) = true at digit
  change (decide (65 ≤ c.val ∧ c.val ≤ 90) || decide (97 ≤ c.val) && decide (c.val ≤ 122))
    = false
  grind

theorem isNameStart_eq_false_of_isDigit {c : Char} (digit : c.isDigit = true)
    : isNameStart c = false := by
  have noUnderscore : c ≠ '_' := by
    rintro rfl
    contradiction
  have noDollar : c ≠ '$' := by
    rintro rfl
    contradiction
  simp [isNameStart, isAlpha_eq_false_of_isDigit digit, noUnderscore, noDollar]

theorem isNamePart_of_isNameText {text : List Char} (name : isNameText text = true)
    : ∀ c ∈ text, isNamePart c = true := by
  cases text with
  | nil => simp
  | cons c rest =>
      simp only [isNameText, Bool.and_eq_true, List.all_eq_true] at name
      exact List.forall_mem_cons.mpr ⟨isNamePart_of_isNameStart name.1.1, name.1.2⟩

theorem isWord_of_isNameText {text : List Char} (name : isNameText text = true)
    : IsWord text := by
  refine ⟨?_, fun c member => isWordPart_of_isNamePart (isNamePart_of_isNameText name c member)⟩
  rintro rfl
  contradiction

theorem isWord_of_isNumberText {text : List Char} (number : isNumberText text = true)
    : IsWord text := by
  cases text with
  | nil => contradiction
  | cons c rest =>
      simp only [isNumberText, Bool.and_eq_true, List.all_eq_true] at number
      refine ⟨List.cons_ne_nil _ _, List.forall_mem_cons.mpr ⟨?_, fun d member => ?_⟩⟩
      · exact isWordPart_of_isNamePart
          (isNamePart_of_isNumberPart (isNumberPart_of_isDigit number.1))
      · exact isWordPart_of_isNamePart (isNamePart_of_isNumberPart (number.2 d member))

theorem isNameText_eq_false_of_isNumberText {text : List Char}
    (number : isNumberText text = true)
    : isNameText text = false := by
  cases text with
  | nil => rfl
  | cons c rest =>
      simp only [isNumberText, Bool.and_eq_true] at number
      simp [isNameText, isNameStart_eq_false_of_isDigit number.1]

theorem isWord_of_mem_booleanWords {text : List Char} (boolean : text ∈ booleanWords)
    : IsWord text := by
  simp only [booleanWords, List.mem_cons, List.not_mem_nil, or_false] at boolean
  rcases boolean with rfl | rfl <;> exact ⟨by decide, List.all_eq_true.mp rfl⟩

theorem not_mem_keywords_of_isNameText {text : List Char} (name : isNameText text = true)
    : text ∉ keywords := by
  cases text with
  | nil => decide
  | cons c rest =>
      simp only [isNameText, Bool.and_eq_true, Bool.not_eq_true', List.contains_eq_mem,
        decide_eq_false_iff_not] at name
      exact name.2

/-- A word with which an expression can start. The only keywords among them are constants.
-/
structure OpensExpr (word : List Char) : Prop where
  isWord : IsWord word
  mem_booleanWords : word ∈ keywords → word ∈ booleanWords

theorem opensExpr_of_isNameText {text : List Char} (name : isNameText text = true)
    : OpensExpr text where
  isWord := isWord_of_isNameText name
  mem_booleanWords keyword := absurd keyword (not_mem_keywords_of_isNameText name)

theorem opensExpr_of_isNumberText {text : List Char} (number : isNumberText text = true)
    : OpensExpr text where
  isWord := isWord_of_isNumberText number
  mem_booleanWords keyword := by
    have noNumber : ∀ word ∈ keywords, isNumberText word = false := by decide
    rw [noNumber text keyword] at number
    contradiction

theorem opensExpr_of_mem_booleanWords {text : List Char} (boolean : text ∈ booleanWords)
    : OpensExpr text where
  isWord := isWord_of_mem_booleanWords boolean
  mem_booleanWords _ := boolean

-----------------------------------------------------------------------------------------
-- Reading
-----------------------------------------------------------------------------------------

/-- `a` can be read off the start of a text: among the lexical items, `a` is determined up to
spans by its text with anything behind it that satisfies `ends`, and so is what stands behind.
-/
def Readable {α : Type} (text : α → List Char) (erase : α → α) (lexical : α → Bool)
    (ends : List Char → Prop) (a : α) : Prop :=
  ∀ ⦃b rest rest'⦄,
    lexical a = true
    → lexical b = true
    → ends rest
    → ends rest'
    → text a ++ rest = text b ++ rest'
    → erase a = erase b ∧ rest = rest'

theorem Readable.mono {α : Type} {text : α → List Char} {erase : α → α} {lexical : α → Bool}
    {ends ends' : List Char → Prop} {a : α} (readable : Readable text erase lexical ends a)
    (stronger : ∀ rest, ends' rest → ends rest)
    : Readable text erase lexical ends' a :=
  fun _ _ _ lexical lexical' ends ends' same =>
    readable lexical lexical' (stronger _ ends) (stronger _ ends') same

namespace IsWord

variable {word word' rest rest' : List Char}

theorem firstWord_append (isWord : IsWord word) (ends : EndsWord rest)
    : firstWord (word ++ rest) = word := by
  rw [firstWord, List.takeWhile_append_of_pos isWord.2]
  cases rest with
  | nil => simp
  | cons c rest => simp [endsWord_cons.mp ends]

theorem behindFirstWord_append (isWord : IsWord word) (ends : EndsWord rest)
    : behindFirstWord (word ++ rest) = rest := by
  rw [behindFirstWord, List.dropWhile_append_of_pos isWord.2]
  cases rest with
  | nil => rfl
  | cons c rest => simp [endsWord_cons.mp ends]

/-- A word ends where another kind of character follows. -/
theorem append_inj (isWord : IsWord word) (isWord' : IsWord word') (ends : EndsWord rest)
    (ends' : EndsWord rest') (same : word ++ rest = word' ++ rest')
    : word = word' ∧ rest = rest' := by
  constructor
  · rw [← isWord.firstWord_append ends, same, isWord'.firstWord_append ends']
  · rw [← isWord.behindFirstWord_append ends, same, isWord'.behindFirstWord_append ends']

end IsWord

/-- Things that are written by their names can be read off them. -/
theorem readable_of_name {α : Type} (nameOf : α → Name) (place : Name → α) (a : α)
    : Readable (fun a => (nameOf a).toList) (fun a => place (nameOf a))
        (fun a => isNameText (nameOf a).toList) EndsWord a := by
  intro b rest rest' name name' ends ends' same
  obtain ⟨sameName, sameRest⟩ :=
    (isWord_of_isNameText name).append_inj (isWord_of_isNameText name') ends ends' same
  exact ⟨congrArg place (String.toList_inj.mp sameName), sameRest⟩

theorem Ident.readable (a : Ident)
    : Readable (·.name.toList) eraseSpans isLexical EndsWord a :=
  readable_of_name Ident.name Ident.ofName a

-----------------------------------------------------------------------------------------
-- Constants
-----------------------------------------------------------------------------------------

/-- The value of a lower-case hexadecimal digit. -/
def hexValue (digit : Char) : Nat :=
  if digit.isDigit then digit.toNat - '0'.toNat else digit.toNat - 'a'.toNat + 10

/-- The next character of a string, and the text behind it, unless the string ends here. -/
def nextInString? : List Char → Option (Char × List Char)
  | [] | '"' :: _ => none
  | '\\' :: 'x' :: high :: low :: rest =>
      some (.ofNat (16 * hexValue high + hexValue low), rest)
  | '\\' :: 'n' :: rest => some ('\n', rest)
  | '\\' :: 'r' :: rest => some ('\r', rest)
  | '\\' :: 't' :: rest => some ('\t', rest)
  | '\\' :: c :: rest => some (c, rest)
  | c :: rest => some (c, rest)

theorem hexValue_digitChar : ∀ n < 16, hexValue n.digitChar = n := by decide

/-- Every character is found again in its escaped form. -/
theorem nextInString?_escapeChar (c : Char) (rest : List Char)
    : nextInString? (escapeChar c ++ rest) = some (c, rest) := by
  unfold escapeChar
  split
  -- The characters with an escape of their own are read back by computation.
  case h_6 =>
    split
    · next control =>
        have small : c.toNat < 256 := by
          simp only [isControl, Bool.or_eq_true, Bool.and_eq_true, decide_eq_true_eq] at control
          omega
        have high : hexValue (c.toNat / 16).digitChar = c.toNat / 16 :=
          hexValue_digitChar _ (by omega)
        have low : hexValue (c.toNat % 16).digitChar = c.toNat % 16 :=
          hexValue_digitChar _ (by omega)
        simp [hexByte, nextInString?, high, low, Nat.div_add_mod]
    · simp only [List.cons_append, List.nil_append]
      unfold nextInString?
      split <;> simp_all
  all_goals rfl

theorem nextInString?_escape_cons (c : Char) (contents rest : List Char)
    : nextInString? (escape (c :: contents) ++ rest) = some (c, escape contents ++ rest) := by
  rw [escape, List.flatMap_cons, List.append_assoc, nextInString?_escapeChar, escape]

/-- The contents of a string end at its closing quote. -/
theorem escape_append_inj {contents contents' rest rest' : List Char}
    (same : escape contents ++ '"' :: rest = escape contents' ++ '"' :: rest')
    : contents = contents' ∧ rest = rest' := by
  induction contents generalizing contents' with
  | nil =>
      cases contents' with
      | nil => simpa using same
      | cons c' contents' =>
          have next := congrArg nextInString? same
          rw [nextInString?_escape_cons] at next
          contradiction
  | cons c contents ih =>
      have next := congrArg nextInString? same
      rw [nextInString?_escape_cons] at next
      cases contents' with
      | nil => contradiction
      | cons c' contents' =>
          rw [nextInString?_escape_cons, Option.some.injEq, Prod.mk.injEq] at next
          obtain ⟨sameContents, sameRest⟩ := ih next.2
          exact ⟨by rw [next.1, sameContents], sameRest⟩

/-- The kind of the constant that a text starts with. -/
def leadingLiteralKind (text : List Char) : LiteralKind :=
  if text.head? = some '"' then .string
  else if text.head?.any Char.isDigit then .number
  else .boolean

namespace Literal

theorem opensExpr_print {literal : Literal} (lexical : literal.isLexical = true)
    (noString : literal.kind ≠ .string)
    : OpensExpr literal.print := by
  obtain ⟨span, kind, value⟩ := literal
  cases kind with
  | number => exact opensExpr_of_isNumberText lexical
  | boolean => exact opensExpr_of_mem_booleanWords (List.contains_iff_mem.mp lexical)
  | string => exact absurd rfl noString

theorem isNameText_print {literal : Literal} (lexical : literal.isLexical = true)
    (noString : literal.kind ≠ .string)
    : isNameText literal.print = false := by
  obtain ⟨span, kind, value⟩ := literal
  cases kind with
  | number => exact isNameText_eq_false_of_isNumberText lexical
  | boolean =>
      have keyword : ∀ word ∈ booleanWords, isNameText word = false := by decide
      exact keyword _ (List.contains_iff_mem.mp lexical)
  | string => exact absurd rfl noString

theorem leadingLiteralKind_print {literal : Literal} (lexical : literal.isLexical = true)
    (rest : List Char)
    : leadingLiteralKind (literal.print ++ rest) = literal.kind := by
  obtain ⟨span, kind, value⟩ := literal
  cases kind with
  | number =>
      simp only [isLexical] at lexical
      simp only [print]
      cases digits : value.toList with
      | nil => simp [digits, isNumberText] at lexical
      | cons c digits =>
          simp only [digits, isNumberText, Bool.and_eq_true] at lexical
          have noQuote : c ≠ '"' := by
            rintro rfl
            exact absurd lexical.1 (by decide)
          simp [leadingLiteralKind, noQuote, lexical.1]
  | boolean =>
      simp only [isLexical, booleanWords, List.contains_iff_mem, List.mem_cons,
        List.not_mem_nil, or_false] at lexical
      simp only [print]
      rcases lexical with word | word <;> rw [word] <;> rfl
  | string => rfl

theorem readable (a : Literal)
    : Readable print eraseSpans isLexical EndsWord a := by
  intro b rest rest' lexical lexical' ends ends' same
  have sameKind : a.kind = b.kind := by
    rw [← leadingLiteralKind_print lexical rest, same, leadingLiteralKind_print lexical' rest']
  obtain ⟨span, kind, value⟩ := a
  obtain ⟨span', kind', value'⟩ := b
  cases sameKind
  have sameText : value.toList = value'.toList ∧ rest = rest' := by
    cases kind with
    | number | boolean =>
        exact (opensExpr_print lexical (by simp)).isWord.append_inj
          (opensExpr_print lexical' (by simp)).isWord ends ends' same
    | string =>
        simp only [print, List.cons_append, List.append_assoc, List.nil_append,
          List.cons.injEq, true_and] at same
        exact escape_append_inj same
  exact sameText.imp_left fun text => by
    rw [String.toList_inj] at text
    rw [text]
    rfl

end Literal

end StackIR
