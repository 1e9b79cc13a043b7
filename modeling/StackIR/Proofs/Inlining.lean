import StackIR.Dialect.Stack
import StackIR.Proofs.Uses

/-! Inlining: what undoes a split.

Inlining reads a block in the order of its text, takes out every declaration that alone binds
a minted name to a value, and puts the value, itself inlined, in the place of the name.
-/

namespace StackIR

/-- The expressions that some names stand for. -/
abbrev Values := Name → Option Expr

mutual
/-- Puts in the place of every identifier the value that it stands for, if there is one. -/
def Expr.inline (values : Values) : Expr → Expr
  | .ident i => (values i.name).getD (.ident i)
  | .literal l => .literal l
  | .call span callee args => .call span callee (Expr.inlineArgs values args)
def Expr.inlineArgs (values : Values) : List Expr → List Expr
  | [] => []
  | arg :: args => arg.inline values :: Expr.inlineArgs values args
end

/-- The hoist that the statement is, if it alone binds a minted name to a value. -/
def Stmt.hoist? (isMinted : Name → Bool) : Stmt → Option Hoist
  | .declare span [binding] (some value) =>
      if isMinted binding.name then some ⟨span, binding.name, value⟩ else none
  | _ => none

/-- Lets the name of a hoist stand for its value. -/
def Values.add (values : Values) (hoist : Hoist) : Values :=
  fun name => if name = hoist.name then some (hoist.value.inline values) else values name

mutual
/-- Inlines values in a statement that is not a hoist itself. -/
def Stmt.inline (isMinted : Name → Bool) (values : Values) : Stmt → Stmt
  | .expr span value => .expr span (value.inline values)
  | .assign span targets value => .assign span targets (value.inline values)
  | .declare span bindings value => .declare span bindings (value.map (Expr.inline values))
  | .define span name params returns body =>
      .define span name params returns (body.inline isMinted values)
  | .branch span condition body =>
      .branch span (condition.inline values) (body.inline isMinted values)
  | .switch span subject cases =>
      .switch span (subject.inline values) (Stmt.inlineCases isMinted values cases)
  | .loop span pre condition post body =>
      .loop span (pre.inline isMinted values) (condition.inline values)
        (post.inline isMinted values) (body.inline isMinted values)
  | .breakLoop span => .breakLoop span
  | .continueLoop span => .continueLoop span
  | .leave span => .leave span
  | .block body => .block (body.inline isMinted values)
def Block.inline (isMinted : Name → Bool) (values : Values) : Block → Block
  | ⟨span, stmts⟩ => ⟨span, Stmt.inlineList isMinted values stmts⟩
/-- Takes hoists out of a list of statements and inlines their values behind them. -/
def Stmt.inlineList (isMinted : Name → Bool) (values : Values) : List Stmt → List Stmt
  | [] => []
  | stmt :: rest =>
      match stmt.hoist? isMinted with
      | some hoist => Stmt.inlineList isMinted (values.add hoist) rest
      | none => stmt.inline isMinted values :: Stmt.inlineList isMinted values rest
def Stmt.inlineCases (isMinted : Name → Bool) (values : Values) : List Case → List Case
  | [] => []
  | ⟨span, label, body⟩ :: rest =>
      ⟨span, label, body.inline isMinted values⟩ :: Stmt.inlineCases isMinted values rest
end

/-- The block without the declarations of minted names, their values in place of them. -/
def Block.inlineMinted (isMinted : Name → Bool) (block : Block) : Block :=
  block.inline isMinted fun _ => none

mutual
/-- Inlining depends on what the names of an expression stand for, and on nothing else. -/
theorem Expr.inline_congr {values values' : Values}
    : ∀ {expr : Expr}, (∀ name ∈ expr.names, values name = values' name)
      → expr.inline values = expr.inline values'
  | .ident i, same => by simp [Expr.inline, same i.name (by simp [Expr.names])]
  | .literal _, _ => rfl
  | .call _ _ args, same => by
      simp only [Expr.names, List.forall_mem_append] at same
      rw [Expr.inline, Expr.inline, Expr.inlineArgs_congr same.2]
theorem Expr.inlineArgs_congr {values values' : Values}
    : ∀ {args : List Expr}, (∀ name ∈ Expr.argNames args, values name = values' name)
      → Expr.inlineArgs values args = Expr.inlineArgs values' args
  | [], _ => rfl
  | arg :: args, same => by
      simp only [Expr.argNames, List.forall_mem_append] at same
      rw [Expr.inlineArgs, Expr.inlineArgs, Expr.inline_congr same.1,
        Expr.inlineArgs_congr same.2]
end

mutual
theorem Expr.inline_none : ∀ expr : Expr, expr.inline (fun _ => none) = expr
  | .ident _ | .literal _ => rfl
  | .call _ _ args => by rw [Expr.inline, Expr.inlineArgs_none args]
theorem Expr.inlineArgs_none : ∀ args : List Expr, Expr.inlineArgs (fun _ => none) args = args
  | [] => rfl
  | arg :: args => by rw [Expr.inlineArgs, arg.inline_none, Expr.inlineArgs_none args]
end

namespace Values

/-- None of the names stands for a value. -/
def Spares (values : Values) (names : List Name) : Prop := ∀ name ∈ names, values name = none

/-- Lets the names of hoists stand for their values, one hoist after the other. -/
def addAll (values : Values) (hoists : List Hoist) : Values := hoists.foldl add values

theorem addAll_append (values : Values) (front back : List Hoist)
    : values.addAll (front ++ back) = (values.addAll front).addAll back :=
  List.foldl_append

theorem spares_append {values : Values} {front back : List Name}
    : values.Spares (front ++ back) ↔ values.Spares front ∧ values.Spares back :=
  List.forall_mem_append

theorem addAll_apply {values : Values} {hoists : List Hoist} {name : Name}
    (others : ∀ hoist ∈ hoists, hoist.name ≠ name)
    : values.addAll hoists name = values name := by
  induction hoists generalizing values with
  | nil => rfl
  | cons hoist hoists ih =>
      obtain ⟨other, others⟩ := List.forall_mem_cons.mp others
      rw [addAll, List.foldl_cons, ← addAll, ih others, add, if_neg (Ne.symm other)]

/-- Hoists change nothing about names that were used before their own names were minted. -/
theorem Spares.addAll {values : Values} {names : List Name} {hoists : List Hoist}
    {before after : NameSupply} (spares : values.Spares names) (known : before.Knows names)
    (minted : Hoist.Minted before after hoists)
    : (values.addAll hoists).Spares names := by
  intro name member
  rw [addAll_apply (minted.ne_of_mem_used (known name member)), spares name member]

end Values

theorem Expr.inline_eq_self {values : Values} {expr : Expr} (spares : values.Spares expr.names)
    : expr.inline values = expr := by
  rw [Expr.inline_congr spares, Expr.inline_none]

-----------------------------------------------------------------------------------------
-- Inlining after outlining
-----------------------------------------------------------------------------------------

variable {dialect : Dialect} {values : Values}

/-- Hoists change nothing about arguments that know none of their names. -/
theorem Expr.inlineArgs_addAll {args : List Expr} {hoists : List Hoist}
    {before after : NameSupply} (known : before.Knows (Expr.argNames args))
    (minted : Hoist.Minted before after hoists)
    : Expr.inlineArgs (values.addAll hoists) args = Expr.inlineArgs values args :=
  Expr.inlineArgs_congr fun name member =>
    Values.addAll_apply (minted.ne_of_mem_used (known name member))

mutual
/-- Inlining the values of its hoists gives an expression back, by induction over the derivation.
Hoists are taken in their order, and later ones change no name of the values before them.
-/
theorem Expr.Flattens.inline_eq {values : Values} {start expr hoists flat finish}
    : Expr.Flattens dialect start expr hoists flat finish → start.Knows expr.names
      → values.Spares expr.names → flat.inline (values.addAll hoists) = expr
  | .ident, _, spares | .literal, _, spares => Expr.inline_eq_self spares
  | .call _ outlined, known, spares => by
      rw [Expr.inline, outlined.inlineArgs_eq (NameSupply.knows_append.mp known).2
        (Values.spares_append.mp spares).2]
theorem Expr.ArgsOutline.inlineArgs_eq {values : Values} {start slots args hoists flat finish}
    : Expr.ArgsOutline dialect start slots args hoists flat finish
      → start.Knows (Expr.argNames args) → values.Spares (Expr.argNames args)
      → Expr.inlineArgs (values.addAll hoists) flat = args
  | .nil, _, _ => rfl
  | .literalOnly rest, known, spares => by
      obtain ⟨knownHere, knownThere⟩ := NameSupply.knows_append.mp known
      obtain ⟨sparesHere, sparesThere⟩ := Values.spares_append.mp spares
      rw [Expr.inlineArgs, rest.inlineArgs_eq knownThere sparesThere,
        Expr.inline_eq_self (sparesHere.addAll knownHere rest.hoists_minted)]
  | .outlinable rest first, known, spares => by
      obtain ⟨knownHere, knownThere⟩ := NameSupply.knows_append.mp known
      obtain ⟨sparesHere, sparesThere⟩ := Values.spares_append.mp spares
      have arg := first.inline_eq (knownHere.grow rest.grows)
        (sparesHere.addAll knownHere rest.hoists_minted)
      rw [Values.addAll_append, Expr.inlineArgs, arg,
        Expr.inlineArgs_addAll (rest.knows_names knownThere) first.hoists_minted,
        rest.inlineArgs_eq knownThere sparesThere]
theorem Expr.Outlines.inline_eq {values : Values} {start expr hoists ref finish}
    : Expr.Outlines dialect start expr hoists ref finish → start.Knows expr.names
      → values.Spares expr.names → ref.inline (values.addAll hoists) = expr
  | .ident, _, spares => Expr.inline_eq_self spares
  | .bind _ flattened _, known, spares => by
      have value := flattened.inline_eq known spares
      rw [Values.addAll_append]
      simpa [Values.addAll, Values.add, Expr.inline] using value
end

-----------------------------------------------------------------------------------------
-- Inlining after a split
-----------------------------------------------------------------------------------------

variable {isMinted : Name → Bool}

/-- Inlining takes all hoists that stand in front of a statement. -/
theorem Stmt.inlineList_hoists {hoists : List Hoist} {rest : List Stmt}
    (recognized : ∀ hoist ∈ hoists, isMinted hoist.name = true)
    : Stmt.inlineList isMinted values (hoists.map Hoist.toStmt ++ rest)
      = Stmt.inlineList isMinted (values.addAll hoists) rest := by
  induction hoists generalizing values with
  | nil => rfl
  | cons hoist hoists ih =>
      obtain ⟨here, there⟩ := List.forall_mem_cons.mp recognized
      have taken : hoist.toStmt.hoist? isMinted = some hoist := by
        simp [Hoist.toStmt, Declaration.single, Declaration.toStmt, Stmt.hoist?, here]
      rw [List.map_cons, List.cons_append, Stmt.inlineList, taken]
      exact ih there

/-- The names belong to the program that is split: the supply knows them, they stand for no
values, and they do not count as minted.
-/
structure Values.Foreign (isMinted : Name → Bool) (values : Values) (supply : NameSupply)
    (names : List Name)
    : Prop where
  known : supply.Knows names
  spares : values.Spares names
  ordinary : ∀ name ∈ names, isMinted name = false

/-- All names that are minted between the two states count as minted. -/
def Recognizes (isMinted : Name → Bool) (before after : NameSupply) : Prop :=
  ∀ name, NameSupply.minted before after name = true → isMinted name = true

section
variable {start middle finish : NameSupply} {front back names : List Name}

theorem Values.foreign_append
    : values.Foreign isMinted start (front ++ back)
      ↔ values.Foreign isMinted start front ∧ values.Foreign isMinted start back := by
  constructor
  · intro holds
    rcases holds with ⟨known, spares, ordinary⟩
    obtain ⟨knownFront, knownBack⟩ := NameSupply.knows_append.mp known
    obtain ⟨sparesFront, sparesBack⟩ := Values.spares_append.mp spares
    obtain ⟨ordinaryFront, ordinaryBack⟩ := List.forall_mem_append.mp ordinary
    exact ⟨⟨knownFront, sparesFront, ordinaryFront⟩, ⟨knownBack, sparesBack, ordinaryBack⟩⟩
  · intro holds
    rcases holds with ⟨front, back⟩
    exact ⟨NameSupply.knows_append.mpr ⟨front.known, back.known⟩,
      Values.spares_append.mpr ⟨front.spares, back.spares⟩,
      List.forall_mem_append.mpr ⟨front.ordinary, back.ordinary⟩⟩

/-- Names of the program stay so behind hoists whose names are minted meanwhile. -/
theorem Values.Foreign.behind {hoists : List Hoist}
    (foreign : values.Foreign isMinted start names) (grows : start.Grows middle)
    (minted : Hoist.Minted start middle hoists)
    : (values.addAll hoists).Foreign isMinted middle names :=
  ⟨foreign.known.grow grows, foreign.spares.addAll foreign.known minted, foreign.ordinary⟩

theorem Values.Foreign.grow (foreign : values.Foreign isMinted start names)
    (grows : start.Grows middle)
    : values.Foreign isMinted middle names :=
  ⟨foreign.known.grow grows, foreign.spares, foreign.ordinary⟩

theorem Recognizes.first (recognizes : Recognizes isMinted start finish)
    (first : start.Grows middle) (second : middle.Grows finish)
    : Recognizes isMinted start middle := by
  intro name minted
  exact recognizes name (by rw [first.minted_eq_or second, minted, Bool.true_or])

theorem Recognizes.second (recognizes : Recognizes isMinted start finish)
    (first : start.Grows middle) (second : middle.Grows finish)
    : Recognizes isMinted middle finish := by
  intro name minted
  exact recognizes name (by rw [first.minted_eq_or second, minted, Bool.or_true])

end

/-- A statement of the program is no hoist after a split, since it binds no minted name. -/
theorem Stmt.Splits.hoist?_eq_none {start stmt hoists stmt' finish}
    (derived : Stmt.Splits dialect start stmt hoists stmt' finish)
    (ordinary : ∀ name ∈ stmt.names, isMinted name = false)
    : stmt'.hoist? isMinted = none := by
  cases derived with
  | declare flattened =>
      simp only [Stmt.names, List.forall_mem_append, List.forall_mem_map] at ordinary
      unfold Stmt.hoist?
      split
      · next same =>
          cases same
          rw [ordinary.1 _ List.mem_cons_self]
          rfl
      · rfl
  | declareUnset =>
      unfold Stmt.hoist?
      split
      · next same => cases same
      · rfl
  | _ => rfl

mutual
/-- Behind its hoists a statement is inlined to what it was, by induction over the derivation.
-/
theorem Stmt.Splits.inline_eq {values : Values} {start stmt hoists stmt' finish}
    : Stmt.Splits dialect start stmt hoists stmt' finish
      → values.Foreign isMinted start stmt.names → Recognizes isMinted start finish
      → stmt'.inline isMinted (values.addAll hoists) = stmt
  | .expr flattened, foreign, _ => by
      rw [Stmt.inline, flattened.inline_eq foreign.known foreign.spares]
  | .assign flattened, foreign, _ => by
      obtain ⟨-, foreign⟩ := Values.foreign_append.mp foreign
      rw [Stmt.inline, flattened.inline_eq foreign.known foreign.spares]
  | .declare flattened, foreign, _ => by
      obtain ⟨-, foreign⟩ := Values.foreign_append.mp foreign
      rw [Stmt.inline, Option.map_some, flattened.inline_eq foreign.known foreign.spares]
  | .declareUnset, _, _ | .breakLoop, _, _ | .continueLoop, _, _ | .leave, _, _ => rfl
  | .define inner, foreign, recognizes => by
      obtain ⟨-, foreign⟩ := Values.foreign_append.mp foreign
      rw [Stmt.inline]
      exact congrArg _ (inner.inline_eq foreign recognizes)
  | .block inner, foreign, recognizes => by
      rw [Stmt.inline]
      exact congrArg _ (inner.inline_eq foreign recognizes)
  | .branch outlined inner, foreign, recognizes => by
      obtain ⟨here, below⟩ := Values.foreign_append.mp foreign
      rw [Stmt.inline, outlined.inline_eq here.known here.spares,
        inner.inline_eq (below.behind outlined.grows outlined.hoists_minted)
          (recognizes.second outlined.grows inner.grows)]
  | .switch outlined inner, foreign, recognizes => by
      obtain ⟨here, below⟩ := Values.foreign_append.mp foreign
      rw [Stmt.inline, outlined.inline_eq here.known here.spares,
        inner.inlineCases_eq (below.behind outlined.grows outlined.hoists_minted)
          (recognizes.second outlined.grows inner.grows)]
  | .loop first second third, foreign, recognizes => by
      obtain ⟨foreign, inBody⟩ := Values.foreign_append.mp foreign
      obtain ⟨foreign, inPost⟩ := Values.foreign_append.mp foreign
      obtain ⟨inPre, inCondition⟩ := Values.foreign_append.mp foreign
      have later := second.grows.trans third.grows
      have rest := recognizes.second first.grows later
      rw [Stmt.inline]
      simp only [Values.addAll, List.foldl_nil]
      rw [first.inline_eq inPre (recognizes.first first.grows later),
        Expr.inline_eq_self inCondition.spares,
        second.inline_eq (inPost.grow first.grows) (rest.first second.grows third.grows),
        third.inline_eq (inBody.grow (first.grows.trans second.grows))
          (rest.second second.grows third.grows)]
theorem Block.Splits.inline_eq {values : Values} {start block block' finish}
    : Block.Splits dialect start block block' finish
      → values.Foreign isMinted start block.names → Recognizes isMinted start finish
      → block'.inline isMinted values = block
  | .mk inner, foreign, recognizes => by
      rw [Block.inline, inner.inlineList_eq foreign recognizes]
theorem Stmt.ListSplits.inlineList_eq {values : Values} {start stmts stmts' finish}
    : Stmt.ListSplits dialect start stmts stmts' finish
      → values.Foreign isMinted start (Stmt.listNames stmts) → Recognizes isMinted start finish
      → Stmt.inlineList isMinted values stmts' = stmts
  | .nil, _, _ => rfl
  | .cons first rest, foreign, recognizes => by
      obtain ⟨here, below⟩ := Values.foreign_append.mp foreign
      have early := recognizes.first first.grows rest.grows
      rw [Stmt.inlineList_hoists fun hoist member => early _ (first.hoists_minted hoist member),
        Stmt.inlineList, first.hoist?_eq_none here.ordinary]
      dsimp only
      rw [first.inline_eq here early,
        rest.inlineList_eq (below.behind first.grows first.hoists_minted)
          (recognizes.second first.grows rest.grows)]
theorem Stmt.CasesSplit.inlineCases_eq {values : Values} {start cases cases' finish}
    : Stmt.CasesSplit dialect start cases cases' finish
      → values.Foreign isMinted start (Stmt.caseNames cases) → Recognizes isMinted start finish
      → Stmt.inlineCases isMinted values cases' = cases
  | .nil, _, _ => rfl
  | .cons first rest, foreign, recognizes => by
      obtain ⟨here, below⟩ := Values.foreign_append.mp foreign
      rw [Stmt.inlineCases, first.inline_eq here (recognizes.first first.grows rest.grows),
        rest.inlineCases_eq (below.grow first.grows)
          (recognizes.second first.grows rest.grows)]
end

/-- A split mints names of its own. In its result each of them is used exactly twice: as the
only binding of a declaration with a value, and behind it as an identifier. Inlining these
declarations gives the block back as it was.
-/
theorem inlineMinted_split {block block' : Block} {start finish : NameSupply}
    (split : block.split dialect start = .ok block' finish) (known : start.Knows block.names)
    : (∀ name, NameSupply.minted start finish name = true
        → rolesOf name block'.uses = [.boundToValue, .read])
      ∧ block'.inlineMinted (NameSupply.minted start finish) = block := by
  have derived := Block.split_eq_ok_iff.mp split
  constructor
  · intro name isMinted
    have unknown : name ∉ block.names := fun member =>
      (NameSupply.minted_iff.mp isMinted).2 (known name member)
    rw [derived.rolesOf_uses unknown, hoistRoles, if_pos isMinted]
  · refine derived.inline_eq ⟨known, fun _ _ => rfl, fun name member => ?_⟩ fun _ => id
    exact NameSupply.minted_eq_false_of_mem (known name member)

/-- The block `if f(g(1), x) { let y := h(k()) }`, each node at a place of its own. -/
def Block.nestedInCondition : Block :=
  ⟨⟨0, 0, 33⟩, [.branch ⟨0, 0, 33⟩
    (.call ⟨0, 3, 13⟩ (.user ⟨⟨0, 3, 4⟩, "f"⟩) [
      .call ⟨0, 5, 9⟩ (.user ⟨⟨0, 5, 6⟩, "g"⟩) [.literal ⟨⟨0, 7, 8⟩, .number, "1"⟩],
      .ident ⟨⟨0, 11, 12⟩, "x"⟩])
    ⟨⟨0, 14, 33⟩, [.declare ⟨0, 16, 31⟩ [⟨⟨0, 20, 21⟩, "y"⟩]
      (some (.call ⟨0, 25, 31⟩ (.user ⟨⟨0, 25, 26⟩, "h"⟩)
        [.call ⟨0, 27, 30⟩ (.user ⟨⟨0, 27, 28⟩, "k"⟩) []]))]⟩]⟩

/-- Four names are minted, and inlining their values gives the block back, spans included. -/
theorem inlineMinted_split_nestedInCondition
    : ∃ block' finish,
        Block.nestedInCondition.split .stack (.ofBlock .nestedInCondition) = .ok block' finish
        ∧ block'.names
          = ["_1", "_2", "g", "_1", "_3", "f", "_2", "x", "_3", "_4", "k", "y", "h", "_4"]
        ∧ (∀ name, NameSupply.minted (.ofBlock .nestedInCondition) finish name = true
          → rolesOf name block'.uses = [.boundToValue, .read])
        ∧ block'.inlineMinted (NameSupply.minted (.ofBlock .nestedInCondition) finish)
          = .nestedInCondition := by
  have split : Block.nestedInCondition.split .stack (.ofBlock .nestedInCondition)
      = .ok _ _ := rfl
  have known : (NameSupply.ofBlock .nestedInCondition).Knows Block.nestedInCondition.names :=
    fun _ => NameSupply.mem_used_ofBlock.mpr
  exact ⟨_, _, split, by decide, inlineMinted_split split known⟩

end StackIR
