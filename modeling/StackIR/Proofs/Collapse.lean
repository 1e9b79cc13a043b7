import StackIR.Proofs.Flat
import StackIR.Proofs.Verification

/-! What a sequence of passes comes to.

All passes are splits, and what a split leaves is left alone by the next one, verified or not:
`Pass.runWith_again`. So a sequence that can be read does nothing if it is blank, and otherwise
what one split and at most one check do. A sequence that cannot be read does nothing at all.
-/

namespace StackIR.Pass

/-- Every letter is blank or names the splitter. -/
def Readable (letters : List Char) : Prop := ∀ c ∈ letters, isBlank c = true ∨ c = 'x'

variable {dialect : Dialect} {settings : Settings} {program after : Program} {letter : Char}
  {letters : List Char}

-----------------------------------------------------------------------------------------
-- How a sequence is read
-----------------------------------------------------------------------------------------

theorem parseSequence_cons_of_blank (blank : isBlank letter = true)
    : parseSequence (letter :: letters) = parseSequence letters := by
  rw [parseSequence, List.filter_cons_of_neg (by simp [blank]), parseSequence]

theorem parseSequence_cons_splitter
    : parseSequence ('x' :: letters) = (do return splitter :: (← parseSequence letters)) := by
  rw [parseSequence, List.filter_cons_of_pos (by decide), List.mapM_cons, parseSequence]
  rfl

/-- A letter that is neither blank nor the splitter's ends the reading. -/
theorem parseSequence_cons_of_stray (notBlank : isBlank letter = false) (stray : letter ≠ 'x')
    : parseSequence (letter :: letters) = .error (.unknownStep letter) := by
  have unknown : find? letter = none := by simpa [find?, all, splitter] using stray.symm
  rw [parseSequence, List.filter_cons_of_pos (by simp [notBlank]), List.mapM_cons]
  simp only [unknown]
  rfl

/-- Letters that can be read name as many splits as there are letters of the splitter, by
induction on the letters.
-/
theorem parseSequence_of_readable (readable : Readable letters)
    : parseSequence letters = .ok (List.replicate (letters.count 'x') splitter) := by
  induction letters with
  | nil => rfl
  | cons letter letters ih =>
      obtain ⟨here, there⟩ := List.forall_mem_cons.mp readable
      rcases here with blank | rfl
      · have other : letter ≠ 'x' := by
          intro same
          subst same
          exact absurd blank (by decide)
        rw [parseSequence_cons_of_blank blank, ih there, List.count_cons_of_ne other]
      · rw [parseSequence_cons_splitter, ih there, List.count_cons_self, List.replicate_succ]
        rfl

/-- The first letter that cannot be read is reported, by induction on those in front of it. -/
theorem parseSequence_of_stray {earlier later : List Char}
    (readable : Readable earlier) (notBlank : isBlank letter = false)
    (stray : letter ≠ 'x')
    : parseSequence (earlier ++ letter :: later) = .error (.unknownStep letter) := by
  induction earlier with
  | nil => exact parseSequence_cons_of_stray notBlank stray
  | cons first earlier ih =>
      obtain ⟨here, there⟩ := List.forall_mem_cons.mp readable
      rcases here with blank | rfl
      · rw [List.cons_append, parseSequence_cons_of_blank blank, ih there]
      · rw [List.cons_append, parseSequence_cons_splitter, ih there]
        rfl

/-- Letters can all be read, or there is a first one that cannot. -/
theorem readable_or_stray (letters : List Char)
    : Readable letters
      ∨ ∃ earlier letter later, letters = earlier ++ letter :: later
        ∧ Readable earlier ∧ isBlank letter = false ∧ letter ≠ 'x' := by
  cases found : letters.find? (fun c => !(isBlank c || c == 'x')) with
  | none =>
      refine .inl fun c member => ?_
      simpa [or_iff_not_imp_left] using List.find?_eq_none.mp found c member
  | some letter =>
      obtain ⟨stray, earlier, later, same, front⟩ := List.find?_eq_some_iff_append.mp found
      refine .inr ⟨earlier, letter, later, same, fun c member => ?_, by simpa using stray⟩
      simpa using front c member

-----------------------------------------------------------------------------------------
-- Splits after a split
-----------------------------------------------------------------------------------------

/-- One split of the program and, if the settings say so, one check of its result. -/
def splitOnce (settings : Settings) (dialect : Dialect) : Work Unit := do
  Work.split dialect
  if settings.verify then
    Work.check fun block => block.ensureSplitForm dialect

theorem runWith_splitter : runWith settings dialect splitter = splitOnce settings dialect := rfl

/-- A split that was run, and accepted if it was to be checked, changes nothing when it is run
again. Witness: the block that it left is flat.
-/
theorem runWith_again (ran : runWith settings dialect splitter program = .ok () after)
    : runWith settings dialect splitter after = .ok () after := by
  cases split : program.block.split dialect program.names with
  | error stop names =>
      rw [runWith_of_stop split] at ran
      cases ran
  | ok block names =>
      have flat := (Block.split_eq_ok_iff.mp split).isFlat
      have again : block.split dialect names = .ok block names :=
        (Block.isFlat_iff names).mp flat
      have same : after = ⟨block, names⟩ := by
        rw [runWith_of_split split, Work.check] at ran
        grind
      subst same
      rw [runWith_of_split split] at ran
      rw [runWith_of_split again]
      exact ran

/-- Where a split changes nothing, many of them change nothing, by induction on their number. -/
theorem forM_runWith_of_settled
    (settled : runWith settings dialect splitter program = .ok () program) (count : Nat)
    : (List.replicate count splitter).forM (runWith settings dialect) program
      = .ok () program := by
  induction count with
  | zero => rfl
  | succ count ih =>
      change EStateM.bind _ _ _ = _
      rw [EStateM.bind, settled]
      exact ih

/-- Many splits do what one does. -/
theorem forM_runWith_replicate (count : Nat)
    : (List.replicate (count + 1) splitter).forM (runWith settings dialect) program
      = splitOnce settings dialect program := by
  rw [← runWith_splitter]
  change EStateM.bind _ _ _ = _
  rw [EStateM.bind]
  cases ran : runWith settings dialect splitter program with
  | ok value after => exact forM_runWith_of_settled (runWith_again ran) count
  | error stop after => rfl

-----------------------------------------------------------------------------------------
-- The three outcomes of a sequence
-----------------------------------------------------------------------------------------

variable {sequence : String} {stop : Stop Error}

theorem runSequence_of_stray {earlier later : List Char}
    (same : sequence.toList = earlier ++ letter :: later)
    (readable : Readable earlier) (notBlank : isBlank letter = false)
    (stray : letter ≠ 'x')
    : runSequence settings dialect sequence program
      = .error (.failed (.unknownStep letter)) program := by
  rw [runSequence, same, parseSequence_of_stray readable notBlank stray]
  rfl

theorem runSequence_of_blank (blank : ∀ c ∈ sequence.toList, isBlank c = true)
    : runSequence settings dialect sequence program = .ok () program := by
  have noSplit : sequence.toList.count 'x' = 0 :=
    List.count_eq_zero.mpr fun member => absurd (blank 'x' member) (by decide)
  rw [runSequence_of_parsed (parseSequence_of_readable fun c member => .inl (blank c member)),
    noSplit]
  rfl

theorem runSequence_of_readable (readable : Readable sequence.toList)
    (member : 'x' ∈ sequence.toList)
    : runSequence settings dialect sequence program = splitOnce settings dialect program := by
  obtain ⟨count, positive⟩ :=
    Nat.exists_eq_succ_of_ne_zero (Nat.ne_of_gt (List.count_pos_iff.mpr member))
  rw [runSequence_of_parsed (parseSequence_of_readable readable), positive]
  exact forM_runWith_replicate count

/-- One split fails without a change to the block, or a check rejects what it has left. -/
theorem splitOnce_eq_error (fails : splitOnce settings dialect program = .error stop after)
    : after.block = program.block
      ∨ settings.verify = true
        ∧ ∃ error, stop = .failed error ∧ error.code? = some "split-form" := by
  rw [← runWith_splitter] at fails
  cases split : program.block.split dialect program.names with
  | error cause names =>
      rw [runWith_of_stop split] at fails
      cases fails
      exact .inl rfl
  | ok block names =>
      rw [runWith_of_split split] at fails
      split at fails
      · next verified =>
          rw [Work.check] at fails
          simp only [splitter, Block.ensureSplitForm] at fails
          cases violations : block.violations dialect with
          | nil => simp [violations] at fails
          | cons first rest =>
              simp only [violations, EStateM.Result.error.injEq] at fails
              exact .inr ⟨verified, first.report rest, fails.1.symm, rfl⟩
      · cases fails

/-- A sequence that fails leaves the block as it was, or fails in the check of a split. -/
theorem runSequence_eq_error
    (fails : runSequence settings dialect sequence program = .error stop after)
    : after.block = program.block
      ∨ settings.verify = true
        ∧ ∃ error, stop = .failed error ∧ error.code? = some "split-form" := by
  rcases readable_or_stray sequence.toList
    with readable | ⟨earlier, letter, later, same, front, notBlank, stray⟩
  · by_cases member : 'x' ∈ sequence.toList
    · rw [runSequence_of_readable readable member] at fails
      exact splitOnce_eq_error fails
    · have blank : ∀ c ∈ sequence.toList, isBlank c = true := fun c inside =>
        (readable c inside).resolve_right fun isLetter => member (isLetter ▸ inside)
      rw [runSequence_of_blank blank] at fails
      cases fails
  · rw [runSequence_of_stray same front notBlank stray] at fails
    cases fails
    exact .inl rfl

/-- A sequence with a letter that is neither blank nor the splitter's reports the first such
letter and changes nothing. A blank one succeeds and changes nothing. Every other one does what
one split does, followed by one check if the settings say so and the split succeeds. So an error
leaves the block as it was, unless verification is on and the error is that of a check.
-/
theorem runSequence_collapses (settings : Settings) (dialect : Dialect) (sequence : String)
    (program : Program)
    : (∀ earlier letter later, sequence.toList = earlier ++ letter :: later
        → Readable earlier → isBlank letter = false → letter ≠ 'x'
        → runSequence settings dialect sequence program
          = .error (.failed (.unknownStep letter)) program)
      ∧ ((∀ c ∈ sequence.toList, isBlank c = true)
        → runSequence settings dialect sequence program = .ok () program)
      ∧ (Readable sequence.toList → 'x' ∈ sequence.toList
        → runSequence settings dialect sequence program = splitOnce settings dialect program)
      ∧ ∀ stop after, runSequence settings dialect sequence program = .error stop after
        → after.block = program.block
          ∨ settings.verify = true
            ∧ ∃ error, stop = .failed error ∧ error.code? = some "split-form" := by
  refine ⟨?_, runSequence_of_blank, runSequence_of_readable, ?_⟩
  · intro earlier letter later same readable notBlank stray
    exact runSequence_of_stray same readable notBlank stray
  · intro stop after fails
    exact runSequence_eq_error fails

end StackIR.Pass
