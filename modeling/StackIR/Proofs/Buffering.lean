import StackIR.Splitting
import StackIR.Proofs.Splicing

/-! Splitting with one buffer of hoists for the whole block.

The hoists of a statement are collected in a buffer that all parts of the run share. A block puts
the buffer aside, takes the hoists of each of its statements out of it, and gives back what was
in it. So it does not matter what a run finds in the buffer: a statement adds its hoists behind
what is there, and a block leaves the buffer as it was, `Block.splitBuffered_run`. To split a block
in this way is to splice its statements, `Block.splitBuffered_run_eq_splice`.
-/

namespace StackIR

/-- A run that also has a buffer of hoists. If the run stops, nothing is left of the buffer. -/
abbrev BufferedSplitting := StateT (List Hoist) Splitting

namespace BufferedSplitting

/-- Takes all hoists out of the buffer. -/
def takeHoists : BufferedSplitting (List Hoist) :=
  modifyGet fun buffer => (buffer, [])

/-- Binds a flat expression to a fresh name by a hoist at the end of the buffer. Identifiers are
left as they are.
-/
def bindFlat (dialect : Dialect) : Expr → BufferedSplitting Expr
  | .ident i => pure (.ident i)
  | value => do
      let hoist : Hoist := ⟨value.span, ← Splitting.takeName dialect, value⟩
      modify (· ++ [hoist])
      return hoist.ref

end BufferedSplitting

open BufferedSplitting

/-- The statements, each behind the hoists that stand in its front. -/
def Stmt.behindFronts (visited : List (List Hoist) × List Stmt) : List Stmt :=
  interleave (visited.1.map (·.map Hoist.toStmt)) visited.2

mutual
/-- Outlines the arguments of `expr` into the buffer. -/
def Expr.flattenBuffered (dialect : Dialect) : Expr → BufferedSplitting Expr
  | .ident i => return .ident i
  | .literal l => return .literal l
  | .call span callee args => do
      let slots ← Splitting.slots dialect ⟨span, callee, args⟩
      return .call span callee (← Expr.outlineArgsBuffered dialect slots args)
def Expr.outlineArgsBuffered (dialect : Dialect)
    : List Slot → List Expr → BufferedSplitting (List Expr)
  | .literalOnly :: slots, arg :: args =>
      return arg :: (← Expr.outlineArgsBuffered dialect slots args)
  | .outlinable :: slots, arg :: args => do
      let args ← Expr.outlineArgsBuffered dialect slots args
      return (← bindFlat dialect (← arg.flattenBuffered dialect)) :: args
  | _, args => return args
end

def Expr.outlineBuffered (dialect : Dialect) (expr : Expr) : BufferedSplitting Expr := do
  bindFlat dialect (← expr.flattenBuffered dialect)

mutual
/-- Splits one statement, and leaves its hoists in the buffer. -/
def Stmt.splitBuffered (dialect : Dialect) : Stmt → BufferedSplitting Stmt
  | .expr span value => return .expr span (← value.flattenBuffered dialect)
  | .assign span targets value => return .assign span targets (← value.flattenBuffered dialect)
  | .declare span bindings (some value) =>
      return .declare span bindings (some (← value.flattenBuffered dialect))
  | .declare span bindings none => return .declare span bindings none
  | .define span name params returns body =>
      return .define span name params returns (← body.splitBuffered dialect)
  | .branch span condition body => do
      let condition ← condition.outlineBuffered dialect
      return .branch span condition (← body.splitBuffered dialect)
  | .switch span subject cases => do
      let subject ← subject.outlineBuffered dialect
      return .switch span subject (← Stmt.splitCasesBuffered dialect cases)
  | .loop span pre condition post body => do
      let pre ← pre.splitBuffered dialect
      let post ← post.splitBuffered dialect
      return .loop span pre condition post (← body.splitBuffered dialect)
  | .breakLoop span => return .breakLoop span
  | .continueLoop span => return .continueLoop span
  | .leave span => return .leave span
  | .block body => return .block (← body.splitBuffered dialect)
/-- Splits a block with an empty buffer, puts the hoists of each statement in front of it at the
end, and restores the buffer.
-/
def Block.splitBuffered (dialect : Dialect) : Block → BufferedSplitting Block
  | ⟨span, stmts⟩ => do
      let saved ← takeHoists
      let visited ← Stmt.visitAllBuffered dialect stmts
      set saved
      return ⟨span, Stmt.behindFronts visited⟩
/-- Splits statements in order, and takes the hoists of each out of the buffer. -/
def Stmt.visitAllBuffered (dialect : Dialect)
    : List Stmt → BufferedSplitting (List (List Hoist) × List Stmt)
  | [] => return ([], [])
  | stmt :: rest => do
      let stmt ← stmt.splitBuffered dialect
      let front ← takeHoists
      let (fronts, rest) ← Stmt.visitAllBuffered dialect rest
      return (front :: fronts, stmt :: rest)
def Stmt.splitCasesBuffered (dialect : Dialect) : List Case → BufferedSplitting (List Case)
  | [] => return []
  | ⟨span, label, body⟩ :: rest => do
      let body ← body.splitBuffered dialect
      return ⟨span, label, body⟩ :: (← Stmt.splitCasesBuffered dialect rest)
end

variable {dialect : Dialect}

-----------------------------------------------------------------------------------------
-- What a run finds in the buffer does not matter
-----------------------------------------------------------------------------------------

theorem BufferedSplitting.bindFlat_run (hoists : List Hoist) (value : Expr)
    (buffer : List Hoist)
    : (bindFlat dialect value).run (buffer ++ hoists) = (do
        let (hoists, ref) ← Splitting.bindFlat dialect (hoists, value)
        return (ref, buffer ++ hoists)) := by
  cases value <;> simp [bindFlat, Splitting.bindFlat]

mutual
/-- Flattening adds the hoists of an expression behind what is in the buffer, by induction on
the expression.
-/
theorem Expr.flattenBuffered_run (buffer : List Hoist)
    : ∀ expr : Expr, (expr.flattenBuffered dialect).run buffer = (do
        let (hoists, flat) ← expr.flatten dialect
        return (flat, buffer ++ hoists))
  | .ident _ | .literal _ => by simp [Expr.flattenBuffered, Expr.flatten]
  | .call span callee args => by
      simp [Expr.flattenBuffered, Expr.flatten, Expr.outlineArgsBuffered_run]
theorem Expr.outlineArgsBuffered_run (buffer : List Hoist)
    : ∀ (slots : List Slot) (args : List Expr),
      (Expr.outlineArgsBuffered dialect slots args).run buffer = (do
        let (hoists, args) ← Expr.outlineArgs dialect slots args
        return (args, buffer ++ hoists))
  | .literalOnly :: slots, arg :: args => by
      simp [Expr.outlineArgsBuffered, Expr.outlineArgs, Expr.outlineArgsBuffered_run]
  | .outlinable :: slots, arg :: args => by
      simp only [Expr.outlineArgsBuffered, Expr.outlineArgs, StateT.run_bind, StateT.run_pure,
        Expr.outlineArgsBuffered_run, arg.flattenBuffered_run, bindFlat_run, bind_assoc,
        pure_bind, List.append_assoc]
  | [], args => by simp [Expr.outlineArgsBuffered, Expr.outlineArgs]
  | slot :: slots, [] => by simp [Expr.outlineArgsBuffered, Expr.outlineArgs]
end

theorem Expr.outlineBuffered_run (expr : Expr) (buffer : List Hoist)
    : (expr.outlineBuffered dialect).run buffer = (do
        let (hoists, ref) ← expr.outline dialect
        return (ref, buffer ++ hoists)) := by
  simp only [outlineBuffered, outline, StateT.run_bind, flattenBuffered_run, bindFlat_run,
    bind_assoc, pure_bind]

theorem Stmt.behindFronts_cons (front : List Hoist) (stmt : Stmt) (fronts : List (List Hoist))
    (stmts : List Stmt)
    : Stmt.behindFronts (front :: fronts, stmt :: stmts)
      = front.map Hoist.toStmt ++ stmt :: Stmt.behindFronts (fronts, stmts) :=
  interleave_cons _ _ _ _

/-- The rest of the statements finds the empty buffer that is left when the hoists of the first are
taken.
-/
theorem Stmt.visitAllBuffered_cons_run (stmt : Stmt) (rest : List Stmt)
    : (Stmt.visitAllBuffered dialect (stmt :: rest)).run [] = (do
        let (stmt, front) ← (stmt.splitBuffered dialect).run []
        let ((fronts, rest), buffer) ← (Stmt.visitAllBuffered dialect rest).run []
        return ((front :: fronts, stmt :: rest), buffer)) := by
  simp [visitAllBuffered, takeHoists]

mutual
/-- A statement adds its hoists behind what is in the buffer, by induction on the statement. -/
theorem Stmt.splitBuffered_run (buffer : List Hoist)
    : ∀ stmt : Stmt, (stmt.splitBuffered dialect).run buffer = (do
        let (hoists, stmt) ← stmt.split dialect
        return (stmt, buffer ++ hoists))
  | .expr _ value | .assign _ _ value | .declare _ _ (some value) => by
      simp [Stmt.splitBuffered, Stmt.split, Expr.flattenBuffered_run]
  | .declare _ _ none | .breakLoop _ | .continueLoop _ | .leave _ => by
      simp [Stmt.splitBuffered, Stmt.split]
  | .define _ _ _ _ body | .block body => by
      simp [Stmt.splitBuffered, Stmt.split, body.splitBuffered_run]
  | .branch _ condition body => by
      simp [Stmt.splitBuffered, Stmt.split, Expr.outlineBuffered_run, body.splitBuffered_run]
  | .switch _ subject cases => by
      simp [Stmt.splitBuffered, Stmt.split, Expr.outlineBuffered_run,
        Stmt.splitCasesBuffered_run]
  | .loop _ pre _ post body => by
      simp [Stmt.splitBuffered, Stmt.split, pre.splitBuffered_run, post.splitBuffered_run,
        body.splitBuffered_run]
/-- A block is split as it is without a buffer, and leaves the buffer as it was. -/
theorem Block.splitBuffered_run (buffer : List Hoist)
    : ∀ block : Block, (block.splitBuffered dialect).run buffer = (do
        return (← block.split dialect, buffer))
  | ⟨span, stmts⟩ => by
      have inside := Stmt.behindFronts_visitAllBuffered_run stmts
      simpa [Block.splitBuffered, Block.split, takeHoists] using
        congrArg ((fun run => (Block.mk span run.1, buffer)) <$> ·) inside
/-- Hoists are taken out of the buffer as they are left there, by induction on the statements. -/
theorem Stmt.behindFronts_visitAllBuffered_run
    : ∀ stmts : List Stmt,
      (Stmt.behindFronts <$> Stmt.visitAllBuffered dialect stmts).run [] = (do
        return (← Stmt.splitList dialect stmts, []))
  | [] => by simp [Stmt.visitAllBuffered, Stmt.splitList, Stmt.behindFronts, interleave]
  | stmt :: rest => by
      have later := Stmt.behindFronts_visitAllBuffered_run rest
      simp only [StateT.run_map, Stmt.visitAllBuffered_cons_run, Stmt.splitList, map_bind,
        Stmt.splitBuffered_run, bind_assoc, pure_bind, List.nil_append]
      refine bind_congr fun split => ?_
      simpa [Stmt.behindFronts_cons] using
        congrArg ((fun run => (split.1.map Hoist.toStmt ++ split.2 :: run.1, run.2)) <$> ·) later
theorem Stmt.splitCasesBuffered_run (buffer : List Hoist)
    : ∀ cases : List Case, (Stmt.splitCasesBuffered dialect cases).run buffer = (do
        return (← Stmt.splitCases dialect cases, buffer))
  | [] => by simp [Stmt.splitCasesBuffered, Stmt.splitCases]
  | ⟨_, _, body⟩ :: rest => by
      simp [Stmt.splitCasesBuffered, Stmt.splitCases, body.splitBuffered_run,
        Stmt.splitCasesBuffered_run]
end

-----------------------------------------------------------------------------------------
-- A block is split by a splice of its statements
-----------------------------------------------------------------------------------------

/-- Splits a statement from the buffer and the supply that the visit before has left, and asks for
what is then in the buffer, which is empty afterwards. What becomes of a statement whose split stops
does not matter, since the whole block is given up.
-/
def Stmt.visitBuffered (dialect : Dialect) (stmt : Stmt) (state : List Hoist × NameSupply)
    : Visit (List Hoist × NameSupply) (Stop CallFault) Stmt :=
  match (stmt.splitBuffered dialect).run state.1 state.2 with
  | .ok (stmt, front) names => ⟨stmt, ([], names), .ok (front.map Hoist.toStmt)⟩
  | .error stop names => ⟨stmt, ([], names), .error stop⟩

/-- A statement that is split is followed by the others, from an empty buffer. -/
theorem Stmt.visitAll_cons_of_ok {stmt stmt' : Stmt} {rest : List Stmt} {front : List Hoist}
    {place : Nat} {start middle : NameSupply}
    {after : Spliced (List Hoist × NameSupply) (Stop CallFault) Stmt}
    {notes : List (Nat × List Stmt)}
    (first : (stmt.splitBuffered dialect).run [] start = .ok (stmt', front) middle)
    (others : visitAll (Stmt.visitBuffered dialect) (place + 1) rest ([], middle) = (after, notes))
    : visitAll (Stmt.visitBuffered dialect) place (stmt :: rest) ([], start)
      = (⟨stmt' :: after.items, after.state, after.failure⟩,
        if (front.map Hoist.toStmt).isEmpty then notes
        else (place, front.map Hoist.toStmt) :: notes) := by
  have visit : stmt.visitBuffered dialect ([], start)
      = ⟨stmt', ([], middle), .ok (front.map Hoist.toStmt)⟩ := by
    simp only [visitBuffered, first]
  have afterwards : visitAll (Stmt.visitBuffered dialect) (place + 1) rest
      (stmt.visitBuffered dialect ([], start)).state = (after, notes) := by
    simpa only [visit] using others
  simpa only [visit] using visitAll_of_ok (congrArg Visit.front visit) afterwards

/-- A statement that is not split is the last one that is visited. -/
theorem Stmt.visitAll_cons_of_error {stmt : Stmt} {rest : List Stmt} {stop : Stop CallFault}
    {place : Nat} {start finish : NameSupply}
    (first : (stmt.splitBuffered dialect).run [] start = .error stop finish)
    : visitAll (Stmt.visitBuffered dialect) place (stmt :: rest) ([], start)
      = (⟨stmt :: rest, ([], finish), some stop⟩, []) := by
  have visit : stmt.visitBuffered dialect ([], start) = ⟨stmt, ([], finish), .error stop⟩ := by
    simp only [visitBuffered, first]
  simpa only [visit] using visitAll_of_error (congrArg Visit.front visit)

/-- Statements that are all split leave a splice with notes of their hoists, by induction on the
statements.
-/
theorem Stmt.visitAll_of_visitAllBuffered_ok {stmts stmts' : List Stmt}
    {fronts : List (List Hoist)} {buffer : List Hoist} {place : Nat} {start finish : NameSupply}
    (run : (Stmt.visitAllBuffered dialect stmts).run [] start
      = .ok ((fronts, stmts'), buffer) finish)
    : visitAll (Stmt.visitBuffered dialect) place stmts ([], start)
        = (⟨stmts', ([], finish), none⟩, notesFrom place (fronts.map (·.map Hoist.toStmt)))
      ∧ fronts.length = stmts'.length := by
  induction stmts generalizing stmts' fronts buffer place start finish with
  | nil =>
      cases run
      exact ⟨rfl, rfl⟩
  | cons stmt rest ih =>
      rw [visitAllBuffered_cons_run] at run
      rcases Splitting.bind_eq_ok_iff.mp run with ⟨⟨split, front⟩, middle, first, later⟩
      rcases Splitting.bind_eq_ok_iff.mp later with ⟨⟨⟨others, rest'⟩, _⟩, _, second, same⟩
      cases same
      rcases ih second with ⟨visited, sameLength⟩
      refine ⟨?_, congrArg Nat.succ sameLength⟩
      rw [visitAll_cons_of_ok first visited, List.map_cons, notesFrom]

/-- A statement that is not split ends a splice, by induction on the statements. -/
theorem Stmt.visitAll_of_visitAllBuffered_error {stmts : List Stmt} {stop : Stop CallFault}
    {place : Nat} {start finish : NameSupply}
    (run : (Stmt.visitAllBuffered dialect stmts).run [] start = .error stop finish)
    : ∃ items notes,
        visitAll (Stmt.visitBuffered dialect) place stmts ([], start)
          = (⟨items, ([], finish), some stop⟩, notes) := by
  induction stmts generalizing place start with
  | nil => cases run
  | cons stmt rest ih =>
      rw [visitAllBuffered_cons_run] at run
      rcases Splitting.bind_eq_error_iff.mp run with first | ⟨⟨split, front⟩, _, first, later⟩
      · exact ⟨_, _, visitAll_cons_of_error first⟩
      · rcases Splitting.bind_eq_error_iff.mp later with second | ⟨_, _, _, returned⟩
        · rcases ih second with ⟨items, notes, visited⟩
          exact ⟨_, _, visitAll_cons_of_ok first visited⟩
        · cases returned

/-- A block is split by a splice of its statements, whatever is in the buffer: it has the statements
that the splice leaves, and fails with the error of the splice. Either way the supply is left as the
splice leaves it.
-/
theorem Block.splitBuffered_run_eq_splice (span : Span) (stmts : List Stmt) (buffer : List Hoist)
    (start : NameSupply)
    : (Block.splitBuffered dialect ⟨span, stmts⟩).run buffer start
      = let spliced := splice (Stmt.visitBuffered dialect) stmts ([], start)
        match spliced.failure with
        | none => .ok (⟨span, spliced.items⟩, buffer) spliced.state.2
        | some stop => .error stop spliced.state.2 := by
  have body : (Block.splitBuffered dialect ⟨span, stmts⟩).run buffer = (do
      let (visited, _) ← (Stmt.visitAllBuffered dialect stmts).run []
      return (⟨span, Stmt.behindFronts visited⟩, buffer)) := by
    simp [Block.splitBuffered, takeHoists]
  rw [body]
  cases run : (Stmt.visitAllBuffered dialect stmts).run [] start with
  | ok visited finish =>
      rcases visited with ⟨⟨fronts, stmts'⟩, left⟩
      rcases Stmt.visitAll_of_visitAllBuffered_ok run with ⟨visited, sameLength⟩
      rw [splice_of_success visited rfl, insertNotes_notesFrom (by simpa using sameLength)]
      exact Splitting.bind_eq_ok_iff.mpr ⟨_, _, run, rfl⟩
  | error stop finish =>
      rcases Stmt.visitAll_of_visitAllBuffered_error run with ⟨items, notes, visited⟩
      rw [splice_of_failure visited rfl]
      exact Splitting.bind_eq_error_iff.mpr (.inl run)

end StackIR
