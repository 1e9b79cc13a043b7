import StackIR.Dialect.Stack
import StackIR.Proofs.Placement
import StackIR.Proofs.Uses

/-! Lexical scopes.

A variable is visible in the rest of the statements among which it is declared, and in the blocks
inside them. What a loop declares first is visible in all of it, and a function sees nothing but
its parameters and results. A split neither adds a fault of scope to a block nor removes one,
since each hoist stands right in front of the only statement that refers to it:
`Block.split_keeps_scopes`.
-/

namespace StackIR

-----------------------------------------------------------------------------------------
-- Faults of scope
-----------------------------------------------------------------------------------------

inductive ScopeFault where
  /-- A variable is read or assigned where it is not visible. -/
  | hidden (ident : Ident)
  /-- A variable is declared where another one of its name is visible. -/
  | redeclared (binding : Binding)
deriving DecidableEq

namespace ScopeFault

/-- The faults of references that stand where these names are visible. -/
def ofRefs (visible : List Name) (refs : List Ident) : List ScopeFault :=
  (refs.filter (·.name ∉ visible)).map hidden

/-- The faults of bindings, each of which is visible to those behind it. -/
def ofBindings (visible : List Name) : List Binding → List ScopeFault
  | [] => []
  | binding :: rest =>
      (if binding.name ∈ visible then [redeclared binding] else [])
        ++ ofBindings (binding.name :: visible) rest

end ScopeFault

mutual
/-- The variables that an expression reads, wherever they stand in it. -/
def Expr.reads : Expr → List Ident
  | .ident i => [i]
  | .literal _ => []
  | .call _ _ args => Expr.argReads args
def Expr.argReads : List Expr → List Ident
  | [] => []
  | arg :: args => arg.reads ++ Expr.argReads args
end

/-- The names that a statement adds to those that are visible behind it. -/
def Stmt.declared : Stmt → List Name
  | .declare _ bindings _ => bindings.map Binding.name
  | _ => []

/-- The names that are visible behind statements. -/
def Stmt.scopeAfter (visible : List Name) (stmts : List Stmt) : List Name :=
  stmts.foldl (fun visible stmt => stmt.declared ++ visible) visible

open ScopeFault

mutual
/-- The faults of a statement that stands where these names are visible. A declaration is not
visible in its own value.
-/
def Stmt.scopeFaults (visible : List Name) : Stmt → List ScopeFault
  | .expr _ value => ofRefs visible value.reads
  | .assign _ targets value => ofRefs visible targets ++ ofRefs visible value.reads
  | .declare _ bindings value =>
      ofRefs visible ((value.map Expr.reads).getD []) ++ ofBindings visible bindings
  | .define _ _ params returns body =>
      ofBindings [] (params ++ returns)
        ++ body.scopeFaults ((params ++ returns).map Binding.name)
  | .branch _ condition body => ofRefs visible condition.reads ++ body.scopeFaults visible
  | .switch _ subject cases =>
      ofRefs visible subject.reads ++ Stmt.caseScopeFaults visible cases
  | .loop _ pre condition post body =>
      let inside := Stmt.scopeAfter visible pre.stmts
      pre.scopeFaults visible
        ++ (ofRefs inside condition.reads ++ (post.scopeFaults inside ++ body.scopeFaults inside))
  | .breakLoop _ | .continueLoop _ | .leave _ => []
  | .block body => body.scopeFaults visible
/-- The faults of a block that stands where these names are visible. -/
def Block.scopeFaults (visible : List Name) : Block → List ScopeFault
  | ⟨_, stmts⟩ => Stmt.listScopeFaults visible stmts
def Stmt.listScopeFaults (visible : List Name) : List Stmt → List ScopeFault
  | [] => []
  | stmt :: rest =>
      stmt.scopeFaults visible ++ Stmt.listScopeFaults (stmt.declared ++ visible) rest
def Stmt.caseScopeFaults (visible : List Name) : List Case → List ScopeFault
  | [] => []
  | ⟨_, _, body⟩ :: rest => body.scopeFaults visible ++ Stmt.caseScopeFaults visible rest
end

/-- All variables that the block reads or assigns are visible there, and none is declared where
one of its name is visible.
-/
def Block.isScoped (visible : List Name) (block : Block) : Bool :=
  (block.scopeFaults visible).isEmpty

theorem Stmt.scopeAfter_append (visible : List Name) (front back : List Stmt)
    : Stmt.scopeAfter visible (front ++ back)
      = Stmt.scopeAfter (Stmt.scopeAfter visible front) back :=
  List.foldl_append

theorem Stmt.scopeAfter_cons (visible : List Name) (stmt : Stmt) (rest : List Stmt)
    : Stmt.scopeAfter visible (stmt :: rest) = Stmt.scopeAfter (stmt.declared ++ visible) rest :=
  rfl

theorem Stmt.listScopeFaults_append (visible : List Name) (front back : List Stmt)
    : Stmt.listScopeFaults visible (front ++ back)
      = Stmt.listScopeFaults visible front
        ++ Stmt.listScopeFaults (Stmt.scopeAfter visible front) back := by
  induction front generalizing visible with
  | nil => rfl
  | cons stmt rest ih =>
      rw [List.cons_append, listScopeFaults, ih, listScopeFaults, List.append_assoc]
      rfl

mutual
theorem Expr.name_mem_names : ∀ {expr : Expr}, ∀ ref ∈ expr.reads, ref.name ∈ expr.names
  | .ident i => by simp [Expr.reads, Expr.names]
  | .literal _ => by simp [Expr.reads]
  | .call _ _ args => by
      intro ref member
      exact List.mem_append_right _ (Expr.name_mem_argNames ref member)
theorem Expr.name_mem_argNames
    : ∀ {args : List Expr}, ∀ ref ∈ Expr.argReads args, ref.name ∈ Expr.argNames args
  | [] => by simp [Expr.argReads]
  | arg :: args => by
      intro ref member
      rcases List.mem_append.mp member with here | there
      · exact List.mem_append_left _ (Expr.name_mem_names ref here)
      · exact List.mem_append_right _ (Expr.name_mem_argNames ref there)
end

namespace ScopeFault

variable {visible visible' : List Name}

/-- The faults of references depend only on which of their names are visible. -/
theorem ofRefs_congr {refs : List Ident}
    (same : ∀ ref ∈ refs, ref.name ∈ visible' ↔ ref.name ∈ visible)
    : ofRefs visible' refs = ofRefs visible refs := by
  rw [ofRefs, ofRefs]
  congr 1
  refine List.filter_congr fun ref member => ?_
  simp only [same ref member]

theorem ofBindings_congr {bindings : List Binding}
    (same : ∀ binding ∈ bindings, binding.name ∈ visible' ↔ binding.name ∈ visible)
    : ofBindings visible' bindings = ofBindings visible bindings := by
  induction bindings generalizing visible visible' with
  | nil => rfl
  | cons binding rest ih =>
      obtain ⟨here, there⟩ := List.forall_mem_cons.mp same
      simp only [ofBindings, here]
      congr 1
      refine ih fun other member => ?_
      simp only [List.mem_cons, there other member]

theorem ofRefs_append (front back : List Ident)
    : ofRefs visible (front ++ back) = ofRefs visible front ++ ofRefs visible back := by
  simp [ofRefs]

end ScopeFault

-----------------------------------------------------------------------------------------
-- Scopes of a block and of its split
-----------------------------------------------------------------------------------------

namespace Hoist

/-- The names that are visible behind hoists. -/
def scopeAfter (visible : List Name) (hoists : List Hoist) : List Name :=
  Stmt.scopeAfter visible (hoists.map toStmt)

def scopeFaults (visible : List Name) (hoists : List Hoist) : List ScopeFault :=
  Stmt.listScopeFaults visible (hoists.map toStmt)

variable {visible : List Name}

theorem scopeAfter_append (front back : List Hoist)
    : scopeAfter visible (front ++ back) = scopeAfter (scopeAfter visible front) back := by
  rw [scopeAfter, List.map_append, Stmt.scopeAfter_append]
  rfl

theorem scopeFaults_append (front back : List Hoist)
    : scopeFaults visible (front ++ back)
      = scopeFaults visible front ++ scopeFaults (scopeAfter visible front) back := by
  rw [scopeFaults, List.map_append, Stmt.listScopeFaults_append]
  rfl

theorem scopeAfter_cons (hoist : Hoist) (hoists : List Hoist)
    : scopeAfter visible (hoist :: hoists) = scopeAfter (hoist.name :: visible) hoists :=
  rfl

theorem mem_scopeAfter_iff {name : Name} {hoists : List Hoist}
    : name ∈ scopeAfter visible hoists
      ↔ (∃ hoist ∈ hoists, hoist.name = name) ∨ name ∈ visible := by
  induction hoists generalizing visible with
  | nil => simp [scopeAfter, Stmt.scopeAfter]
  | cons hoist hoists ih =>
      rw [scopeAfter_cons, ih]
      simp only [List.mem_cons, exists_eq_or_imp, eq_comm (a := name), or_left_comm, or_assoc]

end Hoist

open NameSupply

/-- Before a split that began with `origin` and has come to `current`, a part of a block stands
where `visible` is visible, and behind what the split put there it stands where `visible'` is.
These differ in names alone that have been minted since.
-/
structure ScopesAgree (origin current : NameSupply) (visible visible' : List Name) : Prop where
  grows : Grows origin current
  known : current.Knows visible'
  same : ∀ name ∈ origin.used, name ∈ visible' ↔ name ∈ visible

namespace ScopesAgree

variable {origin current finish : NameSupply} {visible visible' names : List Name}

/-- A scope agrees with itself if all of it is known. -/
theorem refl (known : origin.Knows names) (grows : Grows origin current)
    : ScopesAgree origin current names names :=
  ⟨grows, known.grow grows, fun _ _ => .rfl⟩

theorem grow (agree : ScopesAgree origin current visible visible')
    (grows : Grows current finish)
    : ScopesAgree origin finish visible visible' :=
  ⟨agree.grows.trans grows, agree.known.grow grows, agree.same⟩

theorem declare (agree : ScopesAgree origin current visible visible')
    (known : origin.Knows names)
    : ScopesAgree origin current (names ++ visible) (names ++ visible') := by
  refine ⟨agree.grows, knows_append.mpr ⟨known.grow agree.grows, agree.known⟩, ?_⟩
  intro name old
  rw [List.mem_append, List.mem_append, agree.same name old]

/-- Hoists of minted names come to be visible. -/
theorem mint {hoists : List Hoist} (agree : ScopesAgree origin current visible visible')
    (grows : Grows current finish) (minted : Hoist.Minted current finish hoists)
    : ScopesAgree origin finish visible (Hoist.scopeAfter visible' hoists) := by
  refine ⟨agree.grows.trans grows, ?_, ?_⟩
  · intro name member
    rcases Hoist.mem_scopeAfter_iff.mp member with ⟨hoist, among, rfl⟩ | before
    · exact (minted_iff.mp (minted hoist among)).1
    · exact grows name (agree.known name before)
  · intro name old
    have new := minted.ne_of_mem_used (agree.grows name old)
    have notHoisted : ¬∃ hoist ∈ hoists, hoist.name = name := by simpa using new
    rw [Hoist.mem_scopeAfter_iff, or_iff_right notHoisted, agree.same name old]

theorem ofRefs_eq {refs : List Ident} (agree : ScopesAgree origin current visible visible')
    (known : ∀ ref ∈ refs, ref.name ∈ origin.used)
    : ofRefs visible' refs = ofRefs visible refs :=
  ofRefs_congr fun ref member => agree.same ref.name (known ref member)

theorem ofBindings_eq {bindings : List Binding}
    (agree : ScopesAgree origin current visible visible')
    (known : origin.Knows (bindings.map Binding.name))
    : ofBindings visible' bindings = ofBindings visible bindings :=
  ofBindings_congr fun _ member => agree.same _ (known _ (List.mem_map_of_mem member))

end ScopesAgree

-----------------------------------------------------------------------------------------
-- A split neither adds nor removes a fault
-----------------------------------------------------------------------------------------

variable {dialect : Dialect} {origin : NameSupply}

/-- Hoists that are put behind references do not hide or reveal them. -/
theorem ScopeFault.ofRefs_hoists {visible : List Name} {refs : List Ident} {hoists : List Hoist}
    {current finish : NameSupply} (minted : Hoist.Minted current finish hoists)
    (known : ∀ ref ∈ refs, ref.name ∈ current.used)
    : ofRefs (Hoist.scopeAfter visible hoists) refs = ofRefs visible refs := by
  refine ofRefs_congr fun ref member => ?_
  have new := minted.ne_of_mem_used (known ref member)
  rw [Hoist.mem_scopeAfter_iff, or_iff_right (by simpa using new)]

/-- A hoist of a fresh name has the faults of its value alone. -/
theorem Hoist.scopeFaults_fresh {visible : List Name} {hoist : Hoist}
    (fresh : hoist.name ∉ visible)
    : Hoist.scopeFaults visible [hoist] = ofRefs visible hoist.value.reads := by
  simp [Hoist.scopeFaults, Hoist.toStmt, Declaration.single, Declaration.toStmt,
    Stmt.listScopeFaults, Stmt.scopeFaults, ofBindings, fresh]

/-- A hoist is visible to the reference to it. -/
theorem Hoist.ofRefs_ref (visible : List Name) (span : Span) (name : Name) (value : Expr)
    : ofRefs (Hoist.scopeAfter visible [⟨span, name, value⟩]) (Expr.ident ⟨span, name⟩).reads
      = [] := by
  simp [ofRefs, Hoist.mem_scopeAfter_iff, Expr.reads]

/-- What is hoisted out of the first part stands between the two halves of the rest. -/
theorem perm_nested {α : Type} {front inner ref later first rest : List α}
    (inFirst : (inner ++ ref).Perm first) (inRest : (front ++ later).Perm rest)
    : (front ++ inner ++ (ref ++ later)).Perm (first ++ rest) :=
  calc
    front ++ inner ++ (ref ++ later) = front ++ (inner ++ ref ++ later) := by
      simp only [List.append_assoc]
    List.Perm _ (front ++ (first ++ later)) := (inFirst.append_right _).append_left _
    List.Perm _ (first ++ (front ++ later)) := List.perm_append_comm_assoc _ _ _
    List.Perm _ (first ++ rest) := inRest.append_left _

mutual
/-- The faults of an expression are those of the hoists and of the expression behind them, by
induction over the derivation.
-/
theorem Expr.Flattens.scopeFaults_perm {start expr hoists flat finish visible visible'}
    : Expr.Flattens dialect start expr hoists flat finish
      → ScopesAgree origin start visible visible' → origin.Knows expr.names
      → (Hoist.scopeFaults visible' hoists
          ++ ofRefs (Hoist.scopeAfter visible' hoists) flat.reads).Perm
          (ofRefs visible expr.reads)
  | .ident, agree, known | .literal, agree, known => by
      rw [← agree.ofRefs_eq fun ref member => known _ (Expr.name_mem_names ref member)]
      exact .refl _
  | .call _ outlined, agree, known => by
      rw [Expr.names, knows_append] at known
      exact outlined.scopeFaults_perm agree known.2
theorem Expr.ArgsOutline.scopeFaults_perm {start slots args hoists flat finish visible visible'}
    : Expr.ArgsOutline dialect start slots args hoists flat finish
      → ScopesAgree origin start visible visible' → origin.Knows (Expr.argNames args)
      → (Hoist.scopeFaults visible' hoists
          ++ ofRefs (Hoist.scopeAfter visible' hoists) (Expr.argReads flat)).Perm
          (ofRefs visible (Expr.argReads args))
  | .nil, _, _ => .refl _
  | .literalOnly rest, agree, known => by
      rw [Expr.argNames, knows_append] at known
      have after := agree.mint rest.grows rest.hoists_minted
      rw [Expr.argReads, Expr.argReads, ofRefs_append, ofRefs_append,
        after.ofRefs_eq fun ref member => known.1 _ (Expr.name_mem_names ref member)]
      exact List.perm_append_comm_assoc _ _ _ |>.trans
        ((rest.scopeFaults_perm agree known.2).append_left _)
  | .outlinable rest first, agree, known => by
      rw [Expr.argNames, knows_append] at known
      have middle := agree.mint rest.grows rest.hoists_minted
      have knownRest := rest.knows_names (known.2.grow agree.grows)
      -- The hoists of this argument hide nothing from the later ones, whose names are older.
      rw [Hoist.scopeFaults_append, Hoist.scopeAfter_append, Expr.argReads, Expr.argReads,
        ofRefs_append, ofRefs_append, ofRefs_hoists first.hoists_minted fun ref member =>
          knownRest _ (Expr.name_mem_argNames ref member)]
      exact perm_nested (first.scopeFaults_perm middle known.1)
        (rest.scopeFaults_perm agree known.2)
theorem Expr.Outlines.scopeFaults_perm {start expr hoists ref finish visible visible'}
    : Expr.Outlines dialect start expr hoists ref finish
      → ScopesAgree origin start visible visible' → origin.Knows expr.names
      → (Hoist.scopeFaults visible' hoists
          ++ ofRefs (Hoist.scopeAfter visible' hoists) ref.reads).Perm
          (ofRefs visible expr.reads)
  | .ident, agree, known => by
      rw [← agree.ofRefs_eq fun ref member => known _ (Expr.name_mem_names ref member)]
      exact .refl _
  | .bind _ flattened handed, agree, known => by
      have middle := agree.mint flattened.grows flattened.hoists_minted
      have isNew : minted _ _ _ = true := (minted_of_fresh? handed).trans (decide_eq_true rfl)
      have fresh := fun visible => (minted_iff.mp isNew).2 (middle.known _ visible)
      rw [Hoist.scopeFaults_append, Hoist.scopeFaults_fresh fresh, Hoist.scopeAfter_append,
        Hoist.ofRefs_ref, List.append_nil]
      exact flattened.scopeFaults_perm agree known
end

theorem Stmt.Splits.declared_eq {start stmt hoists stmt' finish}
    (derived : Stmt.Splits dialect start stmt hoists stmt' finish)
    : stmt'.declared = stmt.declared := by
  cases derived <;> rfl

theorem Stmt.knows_declared {stmt : Stmt} (known : origin.Knows stmt.names)
    : origin.Knows stmt.declared := by
  cases stmt with
  | declare =>
      rw [Stmt.names, knows_append] at known
      exact known.1
  | _ => nofun

/-- Behind statements and behind their split, the scopes agree, by induction over the derivation. -/
theorem Stmt.ListSplits.scopesAgree {stmts : List Stmt} {start stmts' finish visible visible'}
    (derived : Stmt.ListSplits dialect start stmts stmts' finish)
    (agree : ScopesAgree origin start visible visible')
    (known : origin.Knows (Stmt.listNames stmts))
    : ScopesAgree origin finish (Stmt.scopeAfter visible stmts)
        (Stmt.scopeAfter visible' stmts') := by
  induction stmts generalizing start stmts' visible visible' with
  | nil =>
      cases derived
      exact agree
  | cons stmt stmts ih =>
      cases derived with
      | cons first rest =>
          rw [Stmt.listNames, knows_append] at known
          have here := (agree.mint first.grows first.hoists_minted).declare
            (Stmt.knows_declared known.1)
          rw [Stmt.scopeAfter_append, Stmt.scopeAfter_cons, Stmt.scopeAfter_cons,
            first.declared_eq]
          exact ih rest here known.2

mutual
/-- The faults of a statement are those of its hoists and of what stands behind them, by induction
over the derivation.
-/
theorem Stmt.Splits.scopeFaults_perm {start stmt hoists stmt' finish visible visible'}
    : Stmt.Splits dialect start stmt hoists stmt' finish
      → ScopesAgree origin start visible visible' → origin.Knows stmt.names
      → (Hoist.scopeFaults visible' hoists
          ++ stmt'.scopeFaults (Hoist.scopeAfter visible' hoists)).Perm
          (stmt.scopeFaults visible)
  | .expr flattened, agree, known => flattened.scopeFaults_perm agree known
  | .assign flattened, agree, known => by
      rw [Stmt.names, knows_append] at known
      have after := agree.mint flattened.grows flattened.hoists_minted
      rw [Stmt.scopeFaults, Stmt.scopeFaults,
        after.ofRefs_eq fun ref member => known.1 _ (List.mem_map_of_mem member)]
      exact (List.perm_append_comm_assoc _ _ _).trans
        ((flattened.scopeFaults_perm agree known.2).append_left _)
  | .declare flattened, agree, known => by
      rw [Stmt.names, knows_append] at known
      have after := agree.mint flattened.grows flattened.hoists_minted
      rw [Stmt.scopeFaults, Stmt.scopeFaults, after.ofBindings_eq known.1, ← List.append_assoc]
      exact (flattened.scopeFaults_perm agree known.2).append_right _
  | .declareUnset, agree, known => by
      rw [Stmt.names, knows_append] at known
      rw [Stmt.scopeFaults, Stmt.scopeFaults, ← agree.ofBindings_eq known.1]
      exact .refl _
  | .breakLoop, _, _ | .continueLoop, _, _ | .leave, _, _ => .refl _
  | .define inner, agree, known => by
      rw [Stmt.names, knows_append] at known
      rw [Stmt.scopeFaults, Stmt.scopeFaults, List.map_append]
      have signature := fun name member => known.1 name (List.mem_cons_of_mem _ member)
      exact (inner.scopeFaults_perm (.refl signature agree.grows) known.2).append_left _
  | .block inner, agree, known => inner.scopeFaults_perm agree known
  | .branch outlined inner, agree, known => by
      rw [Stmt.names, knows_append] at known
      have after := agree.mint outlined.grows outlined.hoists_minted
      rw [Stmt.scopeFaults, Stmt.scopeFaults, ← List.append_assoc]
      exact (outlined.scopeFaults_perm agree known.1).append
        (inner.scopeFaults_perm after known.2)
  | .switch outlined inner, agree, known => by
      rw [Stmt.names, knows_append] at known
      have after := agree.mint outlined.grows outlined.hoists_minted
      rw [Stmt.scopeFaults, Stmt.scopeFaults, ← List.append_assoc]
      exact (outlined.scopeFaults_perm agree known.1).append
        (inner.scopeFaults_perm after known.2)
  | .loop (.mk first) second third, agree, known => by
      simp only [Stmt.names, knows_append] at known
      obtain ⟨⟨⟨knownPre, knownCondition⟩, knownPost⟩, knownBody⟩ := known
      -- What `pre` declares is visible in the rest of the loop, and so are its hoists.
      have inside := first.scopesAgree agree knownPre
      have behind := inside.grow second.grows
      have conditionStays := List.Perm.of_eq <|
        inside.ofRefs_eq fun ref member => knownCondition _ (Expr.name_mem_names ref member)
      exact (first.scopeFaults_perm agree knownPre).append
        (conditionStays.append ((second.scopeFaults_perm inside knownPost).append
          (third.scopeFaults_perm behind knownBody)))
theorem Block.Splits.scopeFaults_perm {start block block' finish visible visible'}
    : Block.Splits dialect start block block' finish
      → ScopesAgree origin start visible visible' → origin.Knows block.names
      → (block'.scopeFaults visible').Perm (block.scopeFaults visible)
  | .mk inner, agree, known => inner.scopeFaults_perm agree known
theorem Stmt.ListSplits.scopeFaults_perm {start stmts stmts' finish visible visible'}
    : Stmt.ListSplits dialect start stmts stmts' finish
      → ScopesAgree origin start visible visible' → origin.Knows (Stmt.listNames stmts)
      → (Stmt.listScopeFaults visible' stmts').Perm (Stmt.listScopeFaults visible stmts)
  | .nil, _, _ => .refl _
  | .cons first rest, agree, known => by
      rw [Stmt.listNames, knows_append] at known
      have here := (agree.mint first.grows first.hoists_minted).declare
        (Stmt.knows_declared known.1)
      rw [Stmt.listScopeFaults_append, Stmt.listScopeFaults, Stmt.listScopeFaults,
        ← List.append_assoc, first.declared_eq]
      exact (first.scopeFaults_perm agree known.1).append (rest.scopeFaults_perm here known.2)
theorem Stmt.CasesSplit.scopeFaults_perm {start cases cases' finish visible visible'}
    : Stmt.CasesSplit dialect start cases cases' finish
      → ScopesAgree origin start visible visible' → origin.Knows (Stmt.caseNames cases)
      → (Stmt.caseScopeFaults visible' cases').Perm (Stmt.caseScopeFaults visible cases)
  | .nil, _, _ => .refl _
  | .cons first rest, agree, known => by
      rw [Stmt.caseNames, knows_append] at known
      exact (first.scopeFaults_perm agree known.1).append
        (rest.scopeFaults_perm (agree.grow first.grows) known.2)
end

/-- Each hoist that a split inserts stands among the same statements as the statement that it is
hoisted from, before it, with nothing between them but other hoists of this statement; and the
hoists have the minted names. Wherever the block is put, with what is visible there known to the
supply, the split has the same faults of scope as the block. So if the block has none, all that
the split reads or assigns is visible, and it redeclares nothing.
-/
theorem Block.split_keeps_scopes {block block' : Block} {start finish : NameSupply}
    (split : block.split dialect start = .ok block' finish) (known : start.Knows block.names)
    : (∃ hoists : List Hoist,
        block.Extends (.outlining dialect) hoists block'
        ∧ ∀ name, minted start finish name = true ↔ name ∈ hoists.map Hoist.name)
      ∧ ∀ outer : List Name, start.Knows outer
        → (block'.scopeFaults outer).Perm (block.scopeFaults outer)
          ∧ block'.isScoped outer = block.isScoped outer := by
  have derivation := Block.split_eq_ok_iff.mp split
  obtain ⟨hoists, inside, record⟩ := derivation.exists_extends Rewrite.outlining_allows
  refine ⟨⟨hoists, inside, fun name => record.handed.minted_iff⟩, ?_⟩
  intro outer knownOuter
  have sameFaults := derivation.scopeFaults_perm (.refl knownOuter (.refl start)) known
  refine ⟨sameFaults, ?_⟩
  rw [isScoped, isScoped, Bool.eq_iff_iff, List.isEmpty_iff, List.isEmpty_iff]
  exact ⟨fun none => (none ▸ sameFaults).symm.eq_nil, fun none => (none ▸ sameFaults).eq_nil⟩

/-- The statements `function f(a) -> r { r := g(k(a)) }` and
`for { let i := f(k(x)) } h(i) { i := h(f(i)) } { if k(i) { x := i } }`.
-/
def Block.functionAndLoop : Block :=
  .ofStmts [
    .define .null "f" [.ofName "a"] [.ofName "r"] (.ofStmts [.assign .null [.ofName "r"]
      (.call .null (.ofName "g") [.call .null (.ofName "k") [.ofName "a"]])]),
    .loop .null
      (.ofStmts [.declareName "i"
        (.call .null (.ofName "f") [.call .null (.ofName "k") [.ofName "x"]])])
      (.call .null (.ofName "h") [.ofName "i"])
      (.ofStmts [.assign .null [.ofName "i"]
        (.call .null (.ofName "h") [.call .null (.ofName "f") [.ofName "i"]])])
      (.ofStmts [.branch .null (.call .null (.ofName "k") [.ofName "i"])
        (.ofStmts [.assign .null [.ofName "x"] (.ofName "i")])])]

/-- With `x` visible neither the block nor its split has a fault. With nothing visible both have
two, where `x` is read and where it is assigned. Four hoists stand in four different blocks.
-/
theorem Block.split_keeps_scopes_functionAndLoop
    : ∃ block' finish,
        functionAndLoop.split .stack (.ofBlock functionAndLoop) = .ok block' finish
        ∧ (∃ hoists : List Hoist,
          functionAndLoop.Extends (.outlining .stack) hoists block'
          ∧ ∀ name, minted (.ofBlock functionAndLoop) finish name = true
            ↔ name ∈ hoists.map Hoist.name)
        ∧ block'.names
          = ["f", "a", "r", "_1", "k", "a", "r", "g", "_1", "_2", "k", "x", "i", "f", "_2", "h",
            "i", "_3", "f", "i", "i", "h", "_3", "_4", "k", "i", "_4", "x", "i"]
        ∧ functionAndLoop.isScoped ["x"] = true
        ∧ block'.isScoped ["x"] = true
        ∧ (block'.scopeFaults []).Perm [.hidden (.ofName "x"), .hidden (.ofName "x")] := by
  have split : functionAndLoop.split .stack (.ofBlock functionAndLoop) = .ok _ _ := rfl
  have known : (NameSupply.ofBlock functionAndLoop).Knows functionAndLoop.names :=
    fun _ => mem_used_ofBlock.mpr
  have occurs : ∀ name ∈ ["x"], name ∈ functionAndLoop.names := by decide
  have outer : (NameSupply.ofBlock functionAndLoop).Knows ["x"] :=
    fun name member => mem_used_ofBlock.mpr (occurs name member)
  obtain ⟨places, faults⟩ := split_keeps_scopes split known
  refine ⟨_, _, split, places, by decide, by decide, ?_, ?_⟩
  · rw [(faults ["x"] outer).2]
    decide
  · exact (faults [] nofun).1

end StackIR
