/-! Splicing: new elements are put in front of the elements of a list.

Each element is visited once, in order, by an action that may change it, fail, and ask for
elements in front of it. Nothing is put in before all visits have succeeded: what a visit asks for
is noted down with the place of its element, unless it asks for nothing.
-/

namespace StackIR

/-- What a visit to one element leaves: the element, the state, and either the elements to
put in front of it or an error.
-/
structure Visit (σ ε α : Type) where
  item : α
  state : σ
  front : Except ε (List α)

/-- What visits to a list leave: the list, the state, and the error of the last visit if
it failed.
-/
structure Spliced (σ ε α : Type) where
  items : List α
  state : σ
  failure : Option ε

/-- Visits the elements, which stand at the places from `place` on, up to the first failure. Gives
the elements after the visits, and notes for each visit that asked for elements the place that they
go in front of.
-/
def visitAll {σ ε α : Type} (action : α → σ → Visit σ ε α)
    : Nat → List α → σ → Spliced σ ε α × List (Nat × List α)
  | _, [], state => (⟨[], state, none⟩, [])
  | place, item :: rest, state =>
      let visit := action item state
      match visit.front with
      | .error error => (⟨visit.item :: rest, visit.state, some error⟩, [])
      | .ok front =>
          let (after, notes) := visitAll action (place + 1) rest visit.state
          (⟨visit.item :: after.items, after.state, after.failure⟩,
            if front.isEmpty then notes else (place, front) :: notes)

/-- Puts the elements of the notes in front of the elements at their places. The notes are in the
order of places, and the elements stand at the places from `place` on.
-/
def insertNotes {α : Type} : Nat → List (Nat × List α) → List α → List α
  | _, _, [] => []
  | place, [], item :: rest => item :: insertNotes (place + 1) [] rest
  | place, (target, front) :: notes, item :: rest =>
      if target = place then front ++ item :: insertNotes (place + 1) notes rest
      else item :: insertNotes (place + 1) ((target, front) :: notes) rest

/-- The elements, each behind what is put in front of it. -/
def interleave {α : Type} (fronts : List (List α)) (items : List α) : List α :=
  (fronts.zipWith (fun front item => front ++ [item]) items).flatten

theorem interleave_cons {α : Type} (front : List α) (item : α) (fronts : List (List α))
    (items : List α)
    : interleave (front :: fronts) (item :: items) = front ++ item :: interleave fronts items := by
  simp [interleave]

/-- Visits the elements in order and, if no visit fails, puts in front of each element what
its visit asked for. After a failure the list keeps its length and the changes made so far.
-/
def splice {σ ε α : Type} (action : α → σ → Visit σ ε α) (items : List α) (state : σ)
    : Spliced σ ε α :=
  let (after, notes) := visitAll action 0 items state
  match after.failure with
  | some _ => after
  | none => if notes.isEmpty then after else { after with items := insertNotes 0 notes after.items }

end StackIR
