import StackIR.Dialect.Stack
import StackIR.Proofs.Steps

/-! The whole life of a name supply.

A supply is asked for names, told of names, and lent to splits of any blocks, in any order.
Whatever the requests are, a name that it hands out was not used before, and after them just
those names are used that were used at the start, marked, or handed out: `Life.accounts`.
Splits that fail count like the others: the names that they took stay used.
-/

namespace StackIR.NameSupply

/-- What a supply may be asked to do. -/
inductive Request where
  /-- A fresh name is asked for; without a wanted name, the hint is empty. -/
  | newName (hint : Name)
  | markUsed (name : Name)
  /-- The supply is lent to a split of the block. -/
  | split (block : Block)

/-- How a name comes into use. -/
inductive NameEvent where
  | handed (name : Name)
  | marked (name : Name)
deriving DecidableEq, Repr

/-- The supply after the request, if the request returns. A split returns when it succeeds and
when it meets a malformed call.
-/
def Request.serve (dialect : Dialect) : Request → NameSupply → Option NameSupply
  | .newName hint, supply => (supply.freshFor? dialect hint).map Prod.snd
  | .markUsed name, supply => some (supply.markUsed name)
  | .split block, supply =>
      match block.split dialect supply with
      | .ok _ finish => some finish
      | .error (.failed _) finish => some finish
      | .error .noFreeName _ => none

/-- The supply after the requests, one after the other, if all of them return. -/
def Request.serveAll (dialect : Dialect) (requests : List Request) (supply : NameSupply)
    : Option NameSupply :=
  requests.foldlM (fun supply request => request.serve dialect supply) supply

/-- The request returns and leaves `finish`; the events are listed in order. A split hands out
the names that lead from the supply that it is lent to the one that it gives back.
-/
inductive Request.Serves (dialect : Dialect)
    : NameSupply → Request → List NameEvent → NameSupply → Prop
  | newName {start hint name finish}
    (given : start.freshFor? dialect hint = some (name, finish))
    : Serves dialect start (.newName hint) [.handed name] finish
  | markUsed {start name}
    : Serves dialect start (.markUsed name) [.marked name] (start.markUsed name)
  | split {start block block' names finish}
    (succeeds : block.split dialect start = .ok block' finish)
    (handed : start.Hands dialect names finish)
    : Serves dialect start (.split block) (names.map .handed) finish
  | failedSplit {start block fault names finish}
    (fails : block.split dialect start = .error (.failed fault) finish)
    (handed : start.Hands dialect names finish)
    : Serves dialect start (.split block) (names.map .handed) finish

/-- All requests return, the last leaves `finish`, and these are the events of them all. -/
inductive Life (dialect : Dialect)
    : NameSupply → List Request → List NameEvent → NameSupply → Prop
  | nil {start} : Life dialect start [] [] start
  | cons {start request front middle requests back finish}
    (first : Request.Serves dialect start request front middle)
    (rest : Life dialect middle requests back finish)
    : Life dialect start (request :: requests) (front ++ back) finish

variable {dialect : Dialect} {start middle finish other : NameSupply} {request : Request}
  {requests : List Request} {events front back : List NameEvent} {names : List Name}

-----------------------------------------------------------------------------------------
-- What the events say of the supply
-----------------------------------------------------------------------------------------

/-- The events account for what became of the supply. -/
structure Accounts (dialect : Dialect) (start : NameSupply) (events : List NameEvent)
    (finish : NameSupply) : Prop where
  /-- A name is legal when it is handed out, and was neither used before nor by an event. -/
  fresh : ∀ earlier name later, events = earlier ++ .handed name :: later
    → name ≠ "" ∧ dialect.isReserved name = false ∧ name ∉ start.used
      ∧ .marked name ∉ earlier ∧ .handed name ∉ earlier
  used : ∀ name, name ∈ finish.used
    ↔ name ∈ start.used ∨ .marked name ∈ events ∨ .handed name ∈ events
  counter : start.counter ≤ finish.counter

namespace Accounts

theorem nil (supply : NameSupply) : Accounts dialect supply [] supply where
  fresh earlier name later same := by simp at same
  used name := by simp
  counter := Nat.le_refl _

theorem handed {hint name : Name}
    (given : start.freshFor? dialect hint = some (name, finish))
    : Accounts dialect start [.handed name] finish where
  fresh earlier other later same := by
    have free := isFree_iff.mp (isFree_of_freshFor? given)
    obtain ⟨rfl, rfl, rfl⟩ : earlier = [] ∧ other = name ∧ later = [] := by
      simpa [List.singleton_eq_append_iff] using same
    exact ⟨free.1, free.2.2, free.2.1, by simp, by simp⟩
  used other := by simp [mem_used_of_freshFor? given, or_comm]
  counter := counter_le_of_freshFor? given

theorem marked (supply : NameSupply) (name : Name)
    : Accounts dialect supply [.marked name] (supply.markUsed name) where
  fresh earlier other later same := by simp [List.singleton_eq_append_iff] at same
  used other := by simp [mem_used_markUsed, or_comm]
  counter := Nat.le_refl _

/-- Two accounts after each other make one. A name that is handed out in the second part was
not used in between, so neither before nor by an event of the first part.
-/
theorem append (first : Accounts dialect start front middle)
    (second : Accounts dialect middle back finish)
    : Accounts dialect start (front ++ back) finish where
  fresh earlier name later same := by
    rcases List.append_eq_append_iff.mp same with ⟨inner, rfl, inBack⟩ | ⟨inner, rfl, inBack⟩
    · obtain ⟨nonempty, unreserved, unused, unmarked, unhanded⟩ :=
        second.fresh inner name later inBack
      rw [first.used] at unused
      grind
    · cases inner with
      | nil =>
          obtain ⟨nonempty, unreserved, unused, -, -⟩ := second.fresh [] name later inBack.symm
          rw [first.used] at unused
          grind
      | cons event inner =>
          obtain ⟨rfl, -⟩ := List.cons.inj inBack
          exact first.fresh earlier name inner rfl
  used name := by
    rw [second.used, first.used]
    grind
  counter := Nat.le_trans first.counter second.counter

/-- Names that are handed out one after the other, by induction on them. -/
theorem hands (handed : start.Hands dialect names finish)
    : Accounts dialect start (names.map .handed) finish := by
  induction handed with
  | nil => exact nil _
  | cons first rest ih => exact (Accounts.handed first).append ih

end Accounts

/-- Every request accounts for its events. -/
theorem Request.Serves.accounts (served : Request.Serves dialect start request events finish)
    : Accounts dialect start events finish := by
  cases served with
  | newName given => exact .handed given
  | markUsed => exact .marked start _
  | split _ handed | failedSplit _ handed => exact .hands handed

/-- So does a whole life, by induction on the requests. -/
theorem Life.accounts (life : Life dialect start requests events finish)
    : Accounts dialect start events finish := by
  induction life with
  | nil => exact .nil _
  | cons first rest ih => exact first.accounts.append ih

-----------------------------------------------------------------------------------------
-- Requests that return have one life
-----------------------------------------------------------------------------------------

/-- The names that lead from one supply to another are determined by the two: a supply that has
handed out a name is another one.
-/
theorem Hands.names_eq {names' : List Name} (handed : start.Hands dialect names finish)
    (handed' : start.Hands dialect names' finish)
    : names = names' := by
  induction handed generalizing names' with
  | nil =>
      cases names' with
      | nil => rfl
      | cons name rest =>
          have used := handed'.mem_used_iff.mpr (.inl List.mem_cons_self)
          exact absurd used (handed'.nodup.2 name List.mem_cons_self)
  | @cons start name middle names finish first rest ih =>
      cases handed' with
      | nil =>
          have known := (Hands.cons first rest).mem_used_iff.mpr (.inl List.mem_cons_self)
          exact absurd known ((Hands.cons first rest).nodup.2 name List.mem_cons_self)
      | cons first' rest' =>
          cases first.symm.trans first'
          rw [ih rest']

/-- A request returns exactly if it is served, and what it leaves is what it is said to leave. -/
theorem Request.serve_eq_some_iff
    : request.serve dialect start = some finish
      ↔ ∃ events, Request.Serves dialect start request events finish := by
  constructor
  · intro returns
    cases request with
    | newName hint =>
        obtain ⟨⟨name, after⟩, given, rfl⟩ := Option.map_eq_some_iff.mp returns
        exact ⟨_, .newName given⟩
    | markUsed name =>
        cases returns
        exact ⟨_, .markUsed⟩
    | split block =>
        rw [serve] at returns
        split at returns
        · next block' after succeeds =>
            cases returns
            obtain ⟨names, handed⟩ := Block.exists_hands_of_ok succeeds
            exact ⟨_, .split succeeds handed⟩
        · next fault after fails =>
            cases returns
            obtain ⟨names, handed⟩ := Block.exists_hands_of_error fails
            exact ⟨_, .failedSplit fails handed⟩
        · cases returns
  · intro holds
    rcases holds with ⟨events, served⟩
    cases served with
    | newName given => rw [serve, given, Option.map_some]
    | markUsed => rfl
    | split succeeds => simp only [serve, succeeds]
    | failedSplit fails => simp only [serve, fails]

/-- The events of a request are determined by the supplies before and after it. -/
theorem Request.Serves.events_eq {events' : List NameEvent}
    (served : Request.Serves dialect start request events finish)
    (served' : Request.Serves dialect start request events' finish)
    : events = events' := by
  cases served with
  | newName given =>
      obtain ⟨given'⟩ := served'
      cases given.symm.trans given'
      rfl
  | markUsed =>
      cases served'
      rfl
  | split _ handed | failedSplit _ handed =>
      cases served' with
      | split _ handed' | failedSplit _ handed' => rw [handed.names_eq handed']

/-- Requests all return exactly if they have a life, by induction on them. -/
theorem Request.serveAll_eq_some_iff
    : Request.serveAll dialect requests start = some finish
      ↔ ∃ events, Life dialect start requests events finish := by
  induction requests generalizing start with
  | nil =>
      constructor
      · intro returns
        cases returns
        exact ⟨[], .nil⟩
      · intro holds
        rcases holds with ⟨events, life⟩
        cases life
        rfl
  | cons request requests ih =>
      rw [serveAll, List.foldlM_cons, Option.bind_eq_bind, Option.bind_eq_some_iff]
      constructor
      · intro holds
        rcases holds with ⟨middle, returns, others⟩
        obtain ⟨front, first⟩ := Request.serve_eq_some_iff.mp returns
        obtain ⟨back, rest⟩ := ih.mp others
        exact ⟨_, .cons first rest⟩
      · intro holds
        rcases holds with ⟨events, life⟩
        obtain - | ⟨first, rest⟩ := life
        exact ⟨_, Request.serve_eq_some_iff.mpr ⟨_, first⟩, ih.mpr ⟨_, rest⟩⟩

/-- A life has the events that it has by no choice: each request leads to one supply. -/
theorem Life.events_eq {events' : List NameEvent}
    (life : Life dialect start requests events finish)
    (life' : Life dialect start requests events' finish)
    : events = events' := by
  induction life generalizing events' with
  | nil =>
      cases life'
      rfl
  | cons first rest ih =>
      obtain - | ⟨first', rest'⟩ := life'
      have leads := Request.serve_eq_some_iff.mpr ⟨_, first⟩
      have leads' := Request.serve_eq_some_iff.mpr ⟨_, first'⟩
      cases leads.symm.trans leads'
      rw [first.events_eq first', ih rest']

/-- Requests may be stopped at any point; the counter is never less later on. -/
theorem Request.exists_serveAll_of_append {earlier later : List Request}
    (returns : Request.serveAll dialect (earlier ++ later) start = some finish)
    : ∃ middle, Request.serveAll dialect earlier start = some middle
        ∧ Request.serveAll dialect later middle = some finish
        ∧ start.counter ≤ middle.counter ∧ middle.counter ≤ finish.counter := by
  rw [serveAll, List.foldlM_append, Option.bind_eq_bind, Option.bind_eq_some_iff] at returns
  obtain ⟨middle, before, behind⟩ := returns
  obtain ⟨front, first⟩ := Request.serveAll_eq_some_iff.mp before
  obtain ⟨back, second⟩ := Request.serveAll_eq_some_iff.mp behind
  exact ⟨middle, before, behind, first.accounts.counter, second.accounts.counter⟩

/-- Requests that all return come with one list of events. Every name in it that is handed out,
directly or in a split, is not empty, not reserved, not used at the start, and neither marked
nor handed out before. Used after the requests are the names that were used at the start and
those of the events. And the counter does not decrease from one request to the next.
-/
theorem serveAll_unique_names
    (returns : Request.serveAll dialect requests start = some finish)
    : ∃ events,
        Life dialect start requests events finish
        ∧ (∀ events', Life dialect start requests events' finish → events' = events)
        ∧ (∀ earlier name later, events = earlier ++ .handed name :: later
          → name ≠ "" ∧ dialect.isReserved name = false ∧ name ∉ start.used
            ∧ .marked name ∉ earlier ∧ .handed name ∉ earlier)
        ∧ (∀ name, finish.isUsed name = true
          ↔ name ∈ start.used ∨ .marked name ∈ events ∨ .handed name ∈ events)
        ∧ ∀ earlier later, requests = earlier ++ later
          → ∃ middle, Request.serveAll dialect earlier start = some middle
            ∧ Request.serveAll dialect later middle = some finish
            ∧ start.counter ≤ middle.counter ∧ middle.counter ≤ finish.counter := by
  obtain ⟨events, life⟩ := Request.serveAll_eq_some_iff.mp returns
  refine ⟨events, life, fun events' other => other.events_eq life, life.accounts.fresh, ?_, ?_⟩
  · intro name
    rw [isUsed_iff]
    exact life.accounts.used name
  · intro earlier later same
    subst same
    exact Request.exists_serveAll_of_append returns

/-- Requests to a supply that knows `f` and `_7`: names with and without hints, one of which looks
like a numbered name, a name from elsewhere, a split of `pop(h(1))`, `pop()`, which fails at the
second call, and a split of `pop(h())`.
-/
def Request.mixed : List Request :=
  let pop := Callee.builtin .null ⟨22⟩
  [.newName "f", .markUsed "_5", .newName "a_2", .newName "a", .newName "a",
    .split (.ofStmts [
      .expr .null (.call .null pop [.call .null (.ofName "h") [.literal (.number "1")]]),
      .expr .null (.call .null pop [])
    ]),
    .split (.ofStmts [.expr .null (.call .null pop [.call .null (.ofName "h") []])]),
    .newName ""]

/-- The names go around `f`, `a_2`, `_5` and `_7`. The failed split takes `_4` and `_6`. -/
theorem serveAll_unique_names_mixed
    : ∃ finish,
        Request.serveAll .stack Request.mixed (.ofNames ["f", "_7"]) = some finish
        ∧ finish.isUsed "_6" = true
        ∧ ∃ events,
            Life .stack (.ofNames ["f", "_7"]) Request.mixed events finish
            ∧ events = [.handed "f_1", .marked "_5", .handed "a_2", .handed "a", .handed "a_3",
              .handed "_4", .handed "_6", .handed "_8", .handed "_9"]
            ∧ ∀ earlier name later, events = earlier ++ .handed name :: later
              → name ∉ (ofNames ["f", "_7"]).used ∧ .handed name ∉ earlier := by
  have returns : Request.serveAll .stack Request.mixed (.ofNames ["f", "_7"]) = some _ := rfl
  obtain ⟨events, life, only, fresh, used, -⟩ := serveAll_unique_names returns
  have same := only _
    (.cons (.newName rfl) (.cons .markUsed (.cons (.newName rfl) (.cons (.newName rfl)
      (.cons (.newName rfl) (.cons (.failedSplit rfl (.cons rfl (.cons rfl .nil)))
        (.cons (.split rfl (.cons rfl .nil)) (.cons (.newName rfl) .nil))))))))
  refine ⟨_, returns, by rfl, events, life, same.symm, fun earlier name later inside => ?_⟩
  obtain ⟨-, -, unused, -, unhanded⟩ := fresh earlier name later inside
  exact ⟨unused, unhanded⟩

end StackIR.NameSupply
