import StackIR.Pass.Sequence
import StackIR.Proofs.Violations

/-! What verification adds to a sequence of passes.

A verified sequence rejects a program exactly when a split of it succeeds and leaves a call
in place of a literal. Otherwise verification changes neither the result nor the program.
-/

namespace StackIR

namespace Pass

variable {dialect : Dialect}

/-- After a successful split, what is left to run is the check of its result. -/
theorem runWith_of_split {program : Program} {block : Block} {names : NameSupply}
    (split : program.block.split dialect program.names = .ok block names)
    (settings : Settings)
    : runWith settings dialect splitter program
      = if settings.verify then Work.check (splitter.verify dialect) ⟨block, names⟩
        else .ok () ⟨block, names⟩ := by
  simp only [runWith, splitter, bind, EStateM.bind, Work.split, split]
  split <;> rfl

/-- A split that stops ends the run, checked or not. -/
theorem runWith_of_stop {program : Program} {stop : Stop CallFault} {names : NameSupply}
    (stopped : program.block.split dialect program.names = .error stop names)
    (settings : Settings)
    : runWith settings dialect splitter program
      = .error (stop.map CallFault.toError) ⟨program.block, names⟩ := by
  simp only [runWith, splitter, bind, EStateM.bind, Work.split, stopped]

/-- The splitter's check accepts the result of a split unless a call is left in place of a
literal.
-/
theorem verify_splitter_iff {block block' : Block} {start finish : NameSupply}
    (split : block.split dialect start = .ok block' finish)
    : splitter.verify dialect block' = .ok () ↔ block.LiteralSlotsHold dialect :=
  Block.ensureSplitForm_eq_ok_iff.trans (Block.split_eq_ok_iff.mp split).isSplitForm_iff

/-- Every sequence consists of splits. -/
theorem eq_splitter_of_find? {letter : Char} {pass : Pass} (found : find? letter = some pass)
    : pass = splitter := by
  have member := List.mem_of_find?_eq_some found
  simpa [all] using member

/-- All passes of a parsed sequence are splits, by induction on the letters. -/
theorem eq_splitter_of_mapM {letters : List Char} {passes : List Pass}
    (parsed : letters.mapM (fun letter =>
        match find? letter with
        | some pass => Except.ok pass
        | none => .error (Error.unknownStep letter))
      = .ok passes)
    : ∀ pass ∈ passes, pass = splitter := by
  induction letters generalizing passes with
  | nil =>
      cases parsed
      simp
  | cons letter letters ih =>
      rw [List.mapM_cons] at parsed
      cases found : find? letter with
      | none => simp [found, bind, Except.bind] at parsed
      | some pass =>
          simp only [found, bind, Except.bind] at parsed
          split at parsed
          · contradiction
          · next rest parsedRest =>
              cases parsed
              exact List.forall_mem_cons.mpr ⟨eq_splitter_of_find? found, ih parsedRest⟩

theorem eq_splitter_of_parseSequence {letters : List Char} {passes : List Pass}
    (parsed : parseSequence letters = .ok passes)
    : ∀ pass ∈ passes, pass = splitter :=
  eq_splitter_of_mapM parsed

-----------------------------------------------------------------------------------------
-- Sequences of passes
-----------------------------------------------------------------------------------------

/-- Behind a split that is not rejected, a sequence goes on with the split block. -/
theorem forM_runWith_of_accepted {program : Program} {block : Block} {names : NameSupply}
    (split : program.block.split dialect program.names = .ok block names)
    (settings : Settings)
    (accepted : settings.verify = true → splitter.verify dialect block = .ok ())
    (passes : List Pass)
    : (splitter :: passes).forM (runWith settings dialect) program
      = passes.forM (runWith settings dialect) ⟨block, names⟩ := by
  change EStateM.bind _ _ _ = _
  rw [EStateM.bind, runWith_of_split split]
  cases verify : settings.verify with
  | true => simp only [if_true, Work.check, accepted verify]
  | false => rfl

/-- A split whose result is rejected ends a verified sequence. -/
theorem forM_runWith_of_rejected {program : Program} {block : Block} {names : NameSupply}
    (split : program.block.split dialect program.names = .ok block names) {error : Error}
    (rejected : splitter.verify dialect block = .error error) (passes : List Pass)
    : (splitter :: passes).forM (runWith ⟨true⟩ dialect) program
      = .error (.failed error) ⟨block, names⟩ := by
  change EStateM.bind _ _ _ = _
  rw [EStateM.bind, runWith_of_split split]
  simp only [if_true, Work.check, rejected]

/-- A split that stops ends a sequence, verified or not. -/
theorem forM_runWith_of_stop {program : Program} {stop : Stop CallFault} {names : NameSupply}
    (stopped : program.block.split dialect program.names = .error stop names)
    (settings : Settings) (passes : List Pass)
    : (splitter :: passes).forM (runWith settings dialect) program
      = .error (stop.map CallFault.toError) ⟨program.block, names⟩ := by
  change EStateM.bind _ _ _ = _
  rw [EStateM.bind, runWith_of_stop stopped]

theorem runSequence_of_parsed {sequence : String} {passes : List Pass}
    (parsed : parseSequence sequence.toList = .ok passes) (settings : Settings)
    (program : Program)
    : runSequence settings dialect sequence program
      = passes.forM (runWith settings dialect) program := by
  rw [runSequence, parsed]

/-- Verification changes nothing while no call takes the place of a literal. Witness: a
split that succeeds leaves split form, which is accepted and has no such calls either.
-/
theorem forM_runWith_eq {passes : List Pass} (splitters : ∀ pass ∈ passes, pass = splitter)
    {program : Program} (hold : program.block.LiteralSlotsHold dialect)
    : passes.forM (runWith ⟨true⟩ dialect) program
      = passes.forM (runWith ⟨false⟩ dialect) program := by
  induction passes generalizing program with
  | nil => rfl
  | cons pass passes ih =>
      obtain ⟨rfl, others⟩ := List.forall_mem_cons.mp splitters
      cases split : program.block.split dialect program.names with
      | ok block names =>
          have accepted := (verify_splitter_iff split).mpr hold
          have clean := (Block.split_eq_ok_iff.mp split).isSplitForm_iff.mpr hold
          rw [forM_runWith_of_accepted split ⟨true⟩ fun _ => accepted,
            forM_runWith_of_accepted split ⟨false⟩ fun _ => accepted]
          exact ih others (Block.literalSlotsHold_of_violations_eq_nil
            (Block.isSplitForm_iff.mp clean))
      | error stop names => rw [forM_runWith_of_stop split, forM_runWith_of_stop split]

/-- Without verification a sequence stops for the reasons of its splits alone. -/
theorem forM_runWith_eq_error {passes : List Pass}
    (splitters : ∀ pass ∈ passes, pass = splitter) {program after : Program}
    {stop : Stop Error}
    (stopped : passes.forM (runWith ⟨false⟩ dialect) program = .error stop after)
    : ∃ cause : Stop CallFault, stop = cause.map CallFault.toError := by
  induction passes generalizing program with
  | nil => simp [pure, EStateM.pure] at stopped
  | cons pass passes ih =>
      obtain ⟨rfl, others⟩ := List.forall_mem_cons.mp splitters
      cases split : program.block.split dialect program.names with
      | ok block names =>
          have unverified : Settings.verify ⟨false⟩ = true
              → splitter.verify dialect block = .ok () :=
            fun verified => absurd verified Bool.false_ne_true
          rw [forM_runWith_of_accepted split ⟨false⟩ unverified] at stopped
          exact ih others stopped
      | error cause names =>
          rw [forM_runWith_of_stop split] at stopped
          cases stopped
          exact ⟨cause, rfl⟩

/-- A malformed call is never reported as a departure from split form. -/
theorem failed_report_ne_map (first : SplitViolation) (rest : List SplitViolation)
    (cause : Stop CallFault)
    : Stop.failed (first.report rest) ≠ cause.map CallFault.toError := by
  cases cause with
  | noFreeName => simp [Stop.map]
  | failed fault =>
      intro same
      have codes : "split-form" = fault.code := by
        simpa [SplitViolation.report, CallFault.toError, Error.malformedAt, Error.code?] using
          congrArg Error.code? (Stop.failed.inj same)
      cases fault <;> simp [CallFault.code] at codes

/-- The sequence has a pass, and a split of the program succeeds but leaves a call in place
of a literal.
-/
def LeavesCalls (dialect : Dialect) (sequence : String) (program : Program) : Prop :=
  (∃ first rest, parseSequence sequence.toList = .ok (first :: rest))
  ∧ (∃ block names, program.block.split dialect program.names = .ok block names)
  ∧ ¬ program.block.LiteralSlotsHold dialect

/-- A verified sequence that leaves calls in place of literals stops behind its first split,
with the violations of the split block.
-/
theorem LeavesCalls.runSequence_eq {sequence : String} {program : Program}
    (leaves : LeavesCalls dialect sequence program)
    : ∃ block names first rest,
        program.block.split dialect program.names = .ok block names
        ∧ block.violations dialect = first :: rest
        ∧ runSequence ⟨true⟩ dialect sequence program
          = .error (.failed (first.report rest)) ⟨block, names⟩ := by
  rcases leaves with ⟨⟨pass, passes, parsed⟩, ⟨block, names, split⟩, left⟩
  obtain ⟨rfl, -⟩ := List.forall_mem_cons.mp (eq_splitter_of_parseSequence parsed)
  have clean := Block.isSplitForm_iff.symm.trans (Block.split_eq_ok_iff.mp split).isSplitForm_iff
  cases violations : block.violations dialect with
  | nil => exact absurd (clean.mp violations) left
  | cons first rest =>
      have rejected : splitter.verify dialect block = .error (first.report rest) := by
        simp only [splitter, Block.ensureSplitForm, violations]
      refine ⟨block, names, first, rest, split, violations, ?_⟩
      rw [runSequence_of_parsed parsed, forM_runWith_of_rejected split rejected]

/-- Without calls in place of literals, verification makes no difference to a sequence. -/
theorem runSequence_eq_of_not_leavesCalls {sequence : String} {program : Program}
    (none : ¬ LeavesCalls dialect sequence program)
    : runSequence ⟨true⟩ dialect sequence program
      = runSequence ⟨false⟩ dialect sequence program := by
  cases parsed : parseSequence sequence.toList with
  | error error => simp only [runSequence, parsed]
  | ok passes =>
      have splitters := eq_splitter_of_parseSequence parsed
      rw [runSequence_of_parsed parsed, runSequence_of_parsed parsed]
      by_cases hold : program.block.LiteralSlotsHold dialect
      · exact forM_runWith_eq splitters hold
      · cases passes with
        | nil => rfl
        | cons pass passes =>
            obtain ⟨rfl, -⟩ := List.forall_mem_cons.mp splitters
            cases split : program.block.split dialect program.names with
            | ok block names =>
                exact absurd ⟨⟨_, _, parsed⟩, ⟨_, _, split⟩, hold⟩ none
            | error stop names =>
                rw [forM_runWith_of_stop split, forM_runWith_of_stop split]

/-- A sequence that leaves calls in place of literals never fails in the way that its
verified run does.
-/
theorem LeavesCalls.runSequence_ne {sequence : String} {program : Program}
    (leaves : LeavesCalls dialect sequence program)
    : runSequence ⟨true⟩ dialect sequence program
      ≠ runSequence ⟨false⟩ dialect sequence program := by
  intro same
  obtain ⟨block, names, first, rest, -, -, verified⟩ := leaves.runSequence_eq
  rcases leaves with ⟨⟨pass, passes, parsed⟩, -, -⟩
  rw [verified, runSequence_of_parsed parsed] at same
  obtain ⟨cause, reported⟩ :=
    forM_runWith_eq_error (eq_splitter_of_parseSequence parsed) same.symm
  exact failed_report_ne_map first rest cause reported

/-- Verification changes what a sequence does to a program exactly if the sequence has a
pass, a split of the program succeeds, and a reached builtin call has a call in place of a
literal. Then the verified sequence stops behind its first split with the violations of the
split block. So the check of a split accepts exactly the blocks without such calls.
-/
theorem runSequence_verified (dialect : Dialect) (sequence : String) (program : Program)
    : (runSequence ⟨true⟩ dialect sequence program
          = runSequence ⟨false⟩ dialect sequence program
        ↔ ¬ LeavesCalls dialect sequence program)
      ∧ (LeavesCalls dialect sequence program
        → ∃ block names first rest,
            program.block.split dialect program.names = .ok block names
            ∧ block.violations dialect = first :: rest
            ∧ runSequence ⟨true⟩ dialect sequence program
              = .error (.failed (first.report rest)) ⟨block, names⟩)
      ∧ ∀ block names,
          program.block.split dialect program.names = .ok block names
          → (splitter.verify dialect block = .ok ()
            ↔ program.block.LiteralSlotsHold dialect) := by
  refine ⟨⟨fun same leaves => leaves.runSequence_ne same, runSequence_eq_of_not_leavesCalls⟩,
    LeavesCalls.runSequence_eq, ?_⟩
  intro block names split
  exact verify_splitter_iff split

/-- The program `datasize(f())`, with the call of `f` in place of a literal. -/
def nestedInDatasize : Program :=
  .ofBlock (.ofStmts [.expr .null
    (.call .null (.builtin .null ⟨37⟩) [.call .null (.ofName "f") []])])

/-- A split of `datasize(f())` succeeds and changes nothing, and verification rejects it. -/
theorem runSequence_verified_ne_datasize
    : runSequence ⟨false⟩ .stack "x" nestedInDatasize = .ok () nestedInDatasize
      ∧ runSequence ⟨true⟩ .stack "x" nestedInDatasize
        = .error (.failed ((SplitViolation.nestedCall .null).report [])) nestedInDatasize
      ∧ runSequence ⟨true⟩ .stack "x" nestedInDatasize
        ≠ runSequence ⟨false⟩ .stack "x" nestedInDatasize := by
  refine ⟨rfl, rfl, ?_⟩
  intro same
  cases same

end Pass
end StackIR
