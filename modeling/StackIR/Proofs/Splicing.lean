import StackIR.Splice

/-! What splicing amounts to.

A splice visits the elements in order until a visit fails. If none fails, each element ends up
behind what its visit asked for, and otherwise nothing is put in: `splice_visits`. The notes that
are taken meanwhile do not show in the result.
-/

namespace StackIR

variable {σ ε α : Type}

/-- The action visits the items one after the other, each from the state that the visit before has
left, and leads from `start` to `finish`.
-/
inductive Visits (action : α → σ → Visit σ ε α)
    : σ → List α → List (Visit σ ε α) → σ → Prop
  | nil {start} : Visits action start [] [] start
  | cons {start item items visits finish}
    (rest : Visits action (action item start).state items visits finish)
    : Visits action start (item :: items) (action item start :: visits) finish

/-- There is one visit for each item. -/
theorem Visits.length_eq {action : α → σ → Visit σ ε α} {start finish : σ} {items : List α}
    {visits : List (Visit σ ε α)} (run : Visits action start items visits finish)
    : visits.length = items.length := by
  induction run with
  | nil => rfl
  | cons _ ih => exact congrArg Nat.succ ih

/-- All visits succeed, and they ask for `fronts`. -/
def AllSucceed (visits : List (Visit σ ε α)) (fronts : List (List α)) : Prop :=
  visits.map Visit.front = fronts.map .ok

/-- The last visit fails, and it is the first one to fail. -/
def FailsAtLast (visits : List (Visit σ ε α)) (error : ε) : Prop :=
  ∃ earlier last fronts,
    visits = earlier ++ [last] ∧ AllSucceed earlier fronts ∧ last.front = .error error

variable {action : α → σ → Visit σ ε α} {state : σ} {item : α} {items rest : List α}
  {place : Nat} {front : List α} {fronts : List (List α)} {notes : List (Nat × List α)}
  {visit : Visit σ ε α} {visits : List (Visit σ ε α)} {error : ε}

theorem AllSucceed.nil : AllSucceed ([] : List (Visit σ ε α)) [] := rfl

theorem AllSucceed.cons (succeeds : visit.front = .ok front) (others : AllSucceed visits fronts)
    : AllSucceed (visit :: visits) (front :: fronts) := by
  rw [AllSucceed, List.map_cons, List.map_cons, succeeds, others]

theorem FailsAtLast.singleton (fails : visit.front = .error error)
    : FailsAtLast [visit] error :=
  ⟨[], visit, [], rfl, .nil, fails⟩

theorem FailsAtLast.cons (succeeds : visit.front = .ok front) (fails : FailsAtLast visits error)
    : FailsAtLast (visit :: visits) error := by
  rcases fails with ⟨earlier, last, fronts, rfl, others, fails⟩
  exact ⟨visit :: earlier, last, front :: fronts, rfl, .cons succeeds others, fails⟩

-----------------------------------------------------------------------------------------
-- Notes
-----------------------------------------------------------------------------------------

/-- The notes for visits that ask for `fronts`, the first of them at `place`. -/
def notesFrom (place : Nat) : List (List α) → List (Nat × List α)
  | [] => []
  | front :: fronts =>
      if front.isEmpty then notesFrom (place + 1) fronts
      else (place, front) :: notesFrom (place + 1) fronts

/-- Notes are taken for the places of visits alone, by induction on the visits. -/
theorem le_of_mem_notesFrom {note : Nat × List α} (member : note ∈ notesFrom place fronts)
    : place ≤ note.1 := by
  induction fronts generalizing place with
  | nil => cases member
  | cons front fronts ih =>
      rw [notesFrom] at member
      split at member
      · exact Nat.le_of_succ_le (ih member)
      · rcases List.mem_cons.mp member with rfl | later
        · exact Nat.le_refl place
        · exact Nat.le_of_succ_le (ih later)

theorem insertNotes_nil (place : Nat) (items : List α) : insertNotes place [] items = items := by
  induction items generalizing place with
  | nil => rfl
  | cons item rest ih => rw [insertNotes, ih]

/-- Without a note for its place, an element gets nothing in front of it. -/
theorem insertNotes_of_later (later : ∀ note ∈ notes, place + 1 ≤ note.1)
    : insertNotes place notes (item :: rest) = item :: insertNotes (place + 1) notes rest := by
  cases notes with
  | nil => rfl
  | cons note notes =>
      have behind := later note List.mem_cons_self
      rw [insertNotes, if_neg (by omega)]

/-- To insert the notes is to put each front before its element, empty ones included, by induction
on the fronts. The notes left for an element are for its place or for later ones.
-/
theorem insertNotes_notesFrom (sameLength : fronts.length = items.length)
    : insertNotes place (notesFrom place fronts) items = interleave fronts items := by
  induction fronts generalizing place items with
  | nil =>
      cases List.length_eq_zero_iff.mp sameLength.symm
      rfl
  | cons front fronts ih =>
      obtain - | ⟨item, rest⟩ := items
      · cases sameLength
      have below : insertNotes (place + 1) (notesFrom (place + 1) fronts) rest
          = interleave fronts rest := ih (Nat.succ.inj sameLength)
      rw [interleave_cons, ← below, notesFrom]
      split
      · next empty =>
          rw [insertNotes_of_later fun note => le_of_mem_notesFrom, List.isEmpty_iff.mp empty,
            List.nil_append]
      · rw [insertNotes, if_pos rfl]

-----------------------------------------------------------------------------------------
-- Visits
-----------------------------------------------------------------------------------------

/-- A visit that fails is the last one. -/
theorem visitAll_of_error (fails : (action item state).front = .error error)
    : visitAll action place (item :: rest) state
      = (⟨(action item state).item :: rest, (action item state).state, some error⟩, []) := by
  rw [visitAll]
  simp only [fails]

/-- A visit that succeeds is followed by the others, from the state that it leaves. -/
theorem visitAll_of_ok (succeeds : (action item state).front = .ok front)
    {after : Spliced σ ε α}
    (others : visitAll action (place + 1) rest (action item state).state = (after, notes))
    : visitAll action place (item :: rest) state
      = (⟨(action item state).item :: after.items, after.state, after.failure⟩,
        if front.isEmpty then notes else (place, front) :: notes) := by
  rw [visitAll]
  simp only [succeeds, others]

/-- The visits lead up to the first failure, by induction on the items: the items visited are as
their visits have left them, and notes are taken if all visits succeed.
-/
theorem exists_visits (action : α → σ → Visit σ ε α) (place : Nat) (items : List α) (state : σ)
    : ∃ visits after notes,
        visitAll action place items state = (after, notes)
        ∧ Visits action state (items.take visits.length) visits after.state
        ∧ after.items = visits.map Visit.item ++ items.drop visits.length
        ∧ ((∃ fronts,
              AllSucceed visits fronts ∧ visits.length = items.length
              ∧ after.failure = none ∧ notes = notesFrom place fronts)
          ∨ ∃ error, FailsAtLast visits error ∧ after.failure = some error) := by
  induction items generalizing place state with
  | nil => exact ⟨[], _, _, rfl, .nil, rfl, .inl ⟨[], .nil, rfl, rfl, rfl⟩⟩
  | cons item rest ih =>
      cases outcome : (action item state).front with
      | error error =>
          exact ⟨[action item state], _, _, visitAll_of_error outcome, .cons .nil, rfl,
            .inr ⟨error, .singleton outcome, rfl⟩⟩
      | ok front =>
          obtain ⟨visits, after, notes, others, run, items, ends⟩ :=
            ih (place + 1) (action item state).state
          refine ⟨action item state :: visits, _, _, visitAll_of_ok outcome others, .cons run,
            congrArg ((action item state).item :: ·) items, ?_⟩
          rcases ends with ⟨fronts, succeed, length, failure, rfl⟩ | ⟨error, fails, failure⟩
          · exact .inl ⟨front :: fronts, .cons outcome succeed, congrArg Nat.succ length,
              failure, rfl⟩
          · exact .inr ⟨error, .cons outcome fails, failure⟩

-----------------------------------------------------------------------------------------
-- Splices
-----------------------------------------------------------------------------------------

/-- After a failure, a splice leaves what the visits leave. -/
theorem splice_of_failure {after : Spliced σ ε α}
    (visited : visitAll action 0 items state = (after, notes))
    (failure : after.failure = some error)
    : splice action items state = after := by
  simp only [splice, visited, failure]

/-- Without a failure the notes are inserted, also if there are none. -/
theorem splice_of_success {after : Spliced σ ε α}
    (visited : visitAll action 0 items state = (after, notes))
    (success : after.failure = none)
    : splice action items state = { after with items := insertNotes 0 notes after.items } := by
  simp only [splice, visited, success]
  cases notes with
  | nil => rw [insertNotes_nil, List.isEmpty_nil, if_pos rfl, ← success]
  | cons note notes => rfl

/-- A splice visits the items in order, each at most once and none that it puts in, and leaves the
state that the visits leave. Either all items are visited with success, and each then stands, as
its visit has left it, behind what its visit asked for. Or the last visit is the first to fail.
Then its error is reported and nothing is put in: the items visited are as their visits have left
them, the failed one included, and the others stay as they are.
-/
theorem splice_visits (action : α → σ → Visit σ ε α) (items : List α) (state : σ)
    : ∃ visits,
        Visits action state (items.take visits.length) visits (splice action items state).state
        ∧ ((∃ fronts,
              AllSucceed visits fronts ∧ visits.length = items.length
              ∧ (splice action items state).failure = none
              ∧ (splice action items state).items = interleave fronts (visits.map Visit.item))
          ∨ ∃ error,
              FailsAtLast visits error
              ∧ (splice action items state).failure = some error
              ∧ (splice action items state).items
                = visits.map Visit.item ++ items.drop visits.length
              ∧ (splice action items state).items.length = items.length) := by
  obtain ⟨visits, after, notes, visited, run, visitedItems, ends⟩ :=
    exists_visits action 0 items state
  refine ⟨visits, ?_⟩
  rcases ends with ⟨fronts, succeed, length, success, rfl⟩ | ⟨error, fails, failure⟩
  · have all : after.items = visits.map Visit.item := by
      rw [visitedItems, length, List.drop_length, List.append_nil]
    have sameLength : fronts.length = (visits.map Visit.item).length := by
      simpa using (congrArg List.length succeed).symm
    rw [splice_of_success visited success]
    refine ⟨run, .inl ⟨fronts, succeed, length, success, ?_⟩⟩
    rw [all]
    exact insertNotes_notesFrom sameLength
  · have bound := run.length_eq
    rw [splice_of_failure visited failure]
    refine ⟨run, .inr ⟨error, fails, failure, visitedItems, ?_⟩⟩
    rw [List.length_take] at bound
    rw [visitedItems, List.length_append, List.length_map, List.length_drop]
    omega

/-- An action that notes its calls in the state is called on the items up to the first failure. -/
example
    : splice (fun item (called : List Nat) =>
        if item = 2 then ⟨item, called ++ [item], .error "boom"⟩
        else ⟨item + 100, called ++ [item], .ok [0]⟩) [1, 2, 3] []
      = ⟨[101, 2, 3], [1, 2], some "boom"⟩ := rfl

end StackIR
