import StackIR.Proofs.Lexical

/-! What the escaped contents of a string look like.

Every character is written as itself or behind a backslash (`escapeChar_spells`). So the
escaped contents hold no control characters, and each quote in them stands behind an odd
run of backslashes, which a reader takes as escaped: `escape_uniquely_readable`.
-/

namespace StackIR

/-- A character that stands for itself between quotes. -/
def isPlain (c : Char) : Bool := c != '"' && c != '\\' && !isControl c

theorem isControl_eq_false_of_isPlain {c : Char} (plain : isPlain c = true)
    : isControl c = false := by
  simp_all [isPlain]

theorem ne_backslash_of_isPlain {c : Char} (plain : isPlain c = true) : c ≠ '\\' := by
  simp_all [isPlain]

/-- How one character is spelled between quotes: as itself, or by a mark behind a backslash
that plain characters may follow.
-/
inductive Spells : List Char → Prop where
  | plain {c : Char} (isPlain : isPlain c = true) : Spells [c]
  | escaped {mark : Char} {digits : List Char} (visible : isControl mark = false)
      (arePlain : ∀ c ∈ digits, isPlain c = true) : Spells ('\\' :: mark :: digits)

theorem isPlain_digitChar : ∀ n < 16, isPlain n.digitChar = true := by decide

theorem isPlain_of_mem_hexByte {n : Nat} (small : n < 256) {c : Char} (member : c ∈ hexByte n)
    : isPlain c = true := by
  simp only [hexByte, List.mem_cons, List.not_mem_nil, or_false] at member
  rcases member with rfl | rfl
  · exact isPlain_digitChar _ (by omega)
  · exact isPlain_digitChar _ (by omega)

/-- Every control character is below 0xA0, so two hexadecimal digits are enough for it. -/
theorem toNat_lt_of_isControl {c : Char} (control : isControl c = true) : c.toNat < 0xA0 := by
  simp only [isControl, Bool.or_eq_true, Bool.and_eq_true, decide_eq_true_eq] at control
  omega

theorem escapeChar_spells (c : Char) : Spells (escapeChar c) := by
  unfold escapeChar
  split
  case h_6 noQuote noBackslash _ _ _ =>
    split
    · next control =>
        have bound := toNat_lt_of_isControl control
        refine .escaped rfl fun d member => ?_
        exact isPlain_of_mem_hexByte (by omega) member
    · next visible =>
        refine .plain ?_
        simp only [isPlain, Bool.and_eq_true, bne_iff_ne, Bool.not_eq_true']
        exact ⟨⟨noQuote, noBackslash⟩, Bool.eq_false_iff.mpr visible⟩
  -- The characters with an escape of their own have no digits.
  all_goals exact .escaped rfl (by simp)

/-- How many backslashes a text ends in. -/
def trailingBackslashes (text : List Char) : Nat := (text.reverse.takeWhile (· == '\\')).length

theorem trailingBackslashes_concat (text : List Char) (c : Char)
    : trailingBackslashes (text ++ [c])
      = if c = '\\' then trailingBackslashes text + 1 else 0 := by
  by_cases backslash : c = '\\' <;> simp [trailingBackslashes, backslash]

/-- A text that ends in an even run of backslashes does not change whether the run at the end
of what follows it is odd.
-/
theorem trailingBackslashes_append_mod {text : List Char}
    (even : trailingBackslashes text % 2 = 0) (more : List Char)
    : trailingBackslashes (text ++ more) % 2 = trailingBackslashes more % 2 := by
  simp only [trailingBackslashes, List.reverse_append, List.takeWhile_append] at even ⊢
  split
  · next whole =>
      rw [List.length_append, whole]
      omega
  · rfl

namespace Spells

variable {text front back : List Char}

theorem isControl_eq_false (spells : Spells text) {c : Char} (member : c ∈ text)
    : isControl c = false := by
  cases spells with
  | plain plain =>
      cases List.mem_singleton.mp member
      exact isControl_eq_false_of_isPlain plain
  | escaped visible arePlain =>
      rcases List.mem_cons.mp member with rfl | member
      · rfl
      · rcases List.mem_cons.mp member with rfl | member
        · exact visible
        · exact isControl_eq_false_of_isPlain (arePlain c member)

/-- A quote is spelled with a backslash in front of it. -/
theorem front_eq_backslash (spells : Spells text) (split : text = front ++ '"' :: back)
    : front = ['\\'] := by
  have notPlain : isPlain '"' = false := rfl
  cases spells with
  | @plain c plain =>
      have quote : '"' ∈ [c] := by simp [split]
      cases List.mem_singleton.mp quote
      cases notPlain.symm.trans plain
  | @escaped mark digits visible arePlain =>
      rcases front with _ | ⟨first, _ | ⟨second, rest⟩⟩
      · cases split
      · rw [(List.cons.inj split).1]
      · have digitsSplit : digits = rest ++ '"' :: back := by simp_all
        cases notPlain.symm.trans (arePlain '"' (by simp [digitsSplit]))

/-- No character is spelled with an odd run of backslashes at its end. -/
theorem trailingBackslashes_mod (spells : Spells text) : trailingBackslashes text % 2 = 0 := by
  cases spells with
  | @plain c plain =>
      have noBackslash := ne_backslash_of_isPlain plain
      simp [trailingBackslashes, noBackslash]
  | @escaped mark digits visible arePlain =>
      rcases digits.eq_nil_or_concat with rfl | ⟨front, last, rfl⟩
      · rw [show ['\\', mark] = ['\\'] ++ [mark] from rfl, trailingBackslashes_concat]
        split <;> rfl
      · have noBackslash := ne_backslash_of_isPlain (arePlain last (by simp))
        rw [List.concat_eq_append, ← List.cons_append, ← List.cons_append,
          trailingBackslashes_concat, if_neg noBackslash]

end Spells

/-- The control characters are U+0000 to U+001F and U+007F to U+009F. -/
theorem isControl_eq_false_iff {c : Char}
    : isControl c = false ↔ 0x1F < c.toNat ∧ (c.toNat < 0x7F ∨ 0x9F < c.toNat) := by
  simp only [isControl, Bool.or_eq_false_iff, Bool.and_eq_false_iff, decide_eq_false_iff_not]
  omega

theorem isControl_eq_false_of_mem_escape {contents : List Char} {c : Char}
    (member : c ∈ escape contents)
    : isControl c = false := by
  obtain ⟨source, -, spelled⟩ := List.mem_flatMap.mp member
  exact (escapeChar_spells source).isControl_eq_false spelled

/-- By induction on the contents: a quote is escaped where it is spelled, and what is spelled in
front of that ends in an even run of backslashes.
-/
theorem trailingBackslashes_mod_of_escape {contents front back : List Char}
    (split : escape contents = front ++ '"' :: back)
    : trailingBackslashes front % 2 = 1 := by
  induction contents generalizing front with
  | nil => simp [escape] at split
  | cons c contents ih =>
      have spells := escapeChar_spells c
      rw [escape, List.flatMap_cons, ← escape, List.append_eq_append_iff] at split
      rcases split with ⟨front', rfl, later⟩ | ⟨rest, spelled, later⟩
      · rw [trailingBackslashes_append_mod spells.trailingBackslashes_mod]
        exact ih later
      · cases rest with
        | nil =>
            have later : escape contents = [] ++ '"' :: back := by simpa using later.symm
            have odd := ih later
            contradiction
        | cons quote rest =>
            cases (List.cons.inj later).1
            rw [spells.front_eq_backslash spelled]
            rfl

/-- An escaped string between quotes is uniquely readable: it and the text behind it are determined
by the two together. Strings are escaped part by part. Escaped contents hold no control
characters, that is none from U+0000 to U+001F or from U+007F to U+009F, and each quote in them
stands behind an odd run of backslashes.
-/
theorem escape_uniquely_readable
    : (∀ contents contents' rest rest' : List Char,
        '"' :: (escape contents ++ '"' :: rest) = '"' :: (escape contents' ++ '"' :: rest')
        → contents = contents' ∧ rest = rest')
      ∧ (∀ front back : List Char, escape (front ++ back) = escape front ++ escape back)
      ∧ ∀ contents : List Char,
        (∀ c ∈ escape contents, 0x1F < c.toNat ∧ (c.toNat < 0x7F ∨ 0x9F < c.toNat))
        ∧ ∀ front back : List Char,
          escape contents = front ++ '"' :: back → trailingBackslashes front % 2 = 1 := by
  refine ⟨?_, escape_append, ?_⟩
  · intro contents contents' rest rest' same
    exact escape_append_inj (List.cons.inj same).2
  · intro contents
    exact ⟨fun c member => isControl_eq_false_iff.mp (isControl_eq_false_of_mem_escape member),
      fun front back => trailingBackslashes_mod_of_escape⟩

/-- A control character, and the text that looks like its escape: the two are written differently,
each is read back as itself, and the quote behind the text stands behind three backslashes.
-/
theorem escape_uniquely_readable_lookalike
    : '"' :: (escape ['\x00'] ++ '"' :: [')'])
        ≠ '"' :: (escape ['\\', 'x', '0', '0'] ++ '"' :: [')'])
      ∧ escape (['\x00'] ++ ['\\', '"']) = ['\\', 'x', '0', '0', '\\', '\\', '\\', '"']
      ∧ trailingBackslashes ['\\', 'x', '0', '0', '\\', '\\', '\\'] % 2 = 1 := by
  have written : escape (['\x00'] ++ ['\\', '"'])
      = ['\\', 'x', '0', '0', '\\', '\\', '\\', '"'] := by decide
  refine ⟨fun same => ?_, written, ?_⟩
  · have sameContents := (escape_uniquely_readable.1 _ _ _ _ same).1
    contradiction
  · exact (escape_uniquely_readable.2.2 _).2 _ [] written

end StackIR
