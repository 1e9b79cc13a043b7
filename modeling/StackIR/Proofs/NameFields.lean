import Mathlib.Logic.Function.Basic
import StackIR.Encoding.Stmt
import StackIR.Proofs.Renaming

/-! The fields of a program that hold names.

In the encoding of a node these are the fields called `name`, at any depth. A renaming changes the
texts in all of them and nothing else: `Block.toDatum_rename`. The name set of a block holds exactly
the names that cannot be replaced without changing the block: `Block.nameSet_exact`.
-/

namespace StackIR

-----------------------------------------------------------------------------------------
-- Changing the texts in all fields of one name
-----------------------------------------------------------------------------------------

namespace Datum

/-- Changes the datum if it is a text. -/
def mapText (change : String → String) : Datum → Datum
  | .string text => .string (change text)
  | datum => datum

mutual
/-- Changes the texts in the fields called `key` of all records in the datum. -/
def mapTextsAt (key : String) (change : String → String) : Datum → Datum
  | .list items => .list (mapTextsInItems key change items)
  | .record fields => .record (mapTextsInFields key change fields)
  | datum => datum
def mapTextsInItems (key : String) (change : String → String) : List Datum → List Datum
  | [] => []
  | item :: items => item.mapTextsAt key change :: mapTextsInItems key change items
def mapTextsInFields (key : String) (change : String → String) : Fields → Fields
  | [] => []
  | (label, content) :: fields =>
      let inner := content.mapTextsAt key change
      (label, if label = key then inner.mapText change else inner)
        :: mapTextsInFields key change fields
end

theorem mapTextsInItems_eq_map (key : String) (change : String → String) (items : List Datum)
    : mapTextsInItems key change items = items.map (mapTextsAt key change) := by
  induction items with
  | nil => rfl
  | cons item items ih => rw [mapTextsInItems, ih, List.map_cons]

variable {α : Type} {encode : α → Datum} {changed : α → α} {key : String}
  {change : String → String}

/-- An encoded list changes as its encoded elements do. -/
theorem ofList_map (each : ∀ value, encode (changed value) = (encode value).mapTextsAt key change)
    (values : List α)
    : ofList encode (values.map changed) = (ofList encode values).mapTextsAt key change := by
  rw [ofList, ofList, mapTextsAt, mapTextsInItems_eq_map, List.map_map, List.map_map]
  exact congrArg list (List.map_congr_left fun value _ => each value)

theorem ofOption_map
    (each : ∀ value, encode (changed value) = (encode value).mapTextsAt key change)
    (value? : Option α)
    : ofOption encode (value?.map changed) = (ofOption encode value?).mapTextsAt key change := by
  cases value? with
  | none => rfl
  | some value => exact each value

end Datum

-----------------------------------------------------------------------------------------
-- A renaming changes the fields called `name`
-----------------------------------------------------------------------------------------

open Datum

-- The keys of an encoded node are fixed texts: once its parts are rewritten, `rfl` compares them
-- with `name`.

variable (rename : Name → Name)

theorem Ident.toDatum_rename (ident : Ident)
    : (ident.rename rename).toDatum = ident.toDatum.mapTextsAt "name" rename := rfl

theorem Binding.toDatum_rename (binding : Binding)
    : (binding.rename rename).toDatum = binding.toDatum.mapTextsAt "name" rename := rfl

theorem Callee.toDatum_rename (callee : Callee)
    : (callee.rename rename).toDatum = callee.toDatum.mapTextsAt "name" rename := by
  cases callee <;> rfl

/-- No field of a constant is called `name`. -/
theorem Case.mapTextsAt_label (label : Option Literal)
    : (ofOption Literal.toDatum label).mapTextsAt "name" rename
      = ofOption Literal.toDatum label := by
  cases label <;> rfl

mutual
theorem Expr.toDatum_rename : ∀ expr : Expr,
    (expr.rename rename).toDatum = expr.toDatum.mapTextsAt "name" rename
  | .ident _ => rfl
  | .literal _ => rfl
  | .call _ callee args => by
      rw [Expr.rename, Expr.toDatum, Callee.toDatum_rename, Expr.toData_renameArgs args]
      rfl
theorem Expr.toData_renameArgs : ∀ args : List Expr,
    Expr.toData (Expr.renameArgs rename args)
      = mapTextsInItems "name" rename (Expr.toData args)
  | [] => rfl
  | arg :: args => by
      rw [Expr.renameArgs, Expr.toData, Expr.toDatum_rename arg, Expr.toData_renameArgs args]
      rfl
end

mutual
theorem Stmt.toDatum_rename : ∀ stmt : Stmt,
    (stmt.rename rename).toDatum = stmt.toDatum.mapTextsAt "name" rename
  | .expr _ value => by
      rw [Stmt.rename, Stmt.toDatum, Expr.toDatum_rename]
      rfl
  | .assign _ targets value => by
      rw [Stmt.rename, Stmt.toDatum, Expr.toDatum_rename,
        ofList_map (Ident.toDatum_rename rename)]
      rfl
  | .declare _ bindings value => by
      rw [Stmt.rename, Stmt.toDatum, Declaration.toDatum,
        ofList_map (Binding.toDatum_rename rename), ofOption_map (Expr.toDatum_rename rename)]
      rfl
  | .define _ name params returns body => by
      rw [Stmt.rename, Stmt.toDatum, ofList_map (Binding.toDatum_rename rename),
        ofList_map (Binding.toDatum_rename rename), Block.toDatum_rename body]
      rfl
  | .branch _ condition body => by
      rw [Stmt.rename, Stmt.toDatum, Expr.toDatum_rename, Block.toDatum_rename body]
      rfl
  | .switch _ subject cases => by
      rw [Stmt.rename, Stmt.toDatum, Expr.toDatum_rename, Case.toData_renameCases cases]
      rfl
  | .loop _ pre condition post body => by
      rw [Stmt.rename, Stmt.toDatum, Expr.toDatum_rename, Block.toDatum_rename pre,
        Block.toDatum_rename post, Block.toDatum_rename body]
      rfl
  | .breakLoop _ | .continueLoop _ | .leave _ => rfl
  | .block body => by
      rw [Stmt.rename, Stmt.toDatum, Block.toDatum_rename body]
      rfl
termination_by structural x => x
/-- A renamed block is encoded as the block is, but for the texts in the fields called `name`. -/
theorem Block.toDatum_rename : ∀ block : Block,
    (block.rename rename).toDatum = block.toDatum.mapTextsAt "name" rename
  | ⟨_, stmts⟩ => by
      rw [Block.rename, Block.toDatum, Stmt.toData_renameList stmts]
      rfl
termination_by structural x => x
theorem Stmt.toData_renameList : ∀ stmts : List Stmt,
    Stmt.toData (Stmt.renameList rename stmts)
      = mapTextsInItems "name" rename (Stmt.toData stmts)
  | [] => rfl
  | stmt :: rest => by
      rw [Stmt.renameList, Stmt.toData, Stmt.toDatum_rename stmt, Stmt.toData_renameList rest]
      rfl
termination_by structural x => x
theorem Case.toData_renameCases : ∀ cases : List Case,
    Case.toData (Stmt.renameCases rename cases)
      = mapTextsInItems "name" rename (Case.toData cases)
  | [] => rfl
  | ⟨_, label, body⟩ :: rest => by
      rw [Stmt.renameCases, Case.toData, Case.toDatum, Block.toDatum_rename body,
        ← Case.mapTextsAt_label rename label, Case.toData_renameCases rest]
      rfl
termination_by structural x => x
end

-----------------------------------------------------------------------------------------
-- The name set of a block is exact
-----------------------------------------------------------------------------------------

/-- The block with `other` wherever it has `name`. -/
def Block.replaceName (name other : Name) (block : Block) : Block :=
  block.rename (Function.update id name other)

/-- A name can be replaced by another without a change exactly if it does not occur. -/
theorem Block.replaceName_eq_iff {name other : Name} (different : other ≠ name) (block : Block)
    : block.replaceName name other = block ↔ name ∉ block.names := by
  rw [replaceName, rename_eq_iff]
  constructor
  · intro fixes occurs
    have moved := fixes name occurs
    rw [Function.update_self] at moved
    exact different moved
  · intro absent held occurs
    exact Function.update_of_ne (ne_of_mem_of_not_mem occurs absent) other id

/-- The name set of a block is exact. A renaming changes the texts in the fields called `name` of
the encoding, all of them and nothing else. A name is in the set exactly if some other name in its
place changes the block, and then every other name does. A renaming leaves the block alone exactly
if it fixes the set, so one that moves only names outside the set changes nothing.
-/
theorem Block.nameSet_exact (block : Block)
    : (∀ rename, (block.rename rename).toDatum = block.toDatum.mapTextsAt "name" rename)
      ∧ (∀ name, name ∈ block.nameSet
        ↔ ∃ other, other ≠ name ∧ block.replaceName name other ≠ block)
      ∧ (∀ name other, other ≠ name
        → (name ∈ block.nameSet ↔ block.replaceName name other ≠ block))
      ∧ ∀ rename, block.rename rename = block ↔ ∀ name ∈ block.nameSet, rename name = name := by
  have each {name other : Name} (different : other ≠ name)
      : name ∈ block.nameSet ↔ block.replaceName name other ≠ block := by
    rw [mem_nameSet, ne_eq, replaceName_eq_iff different, not_not]
  refine ⟨fun rename => block.toDatum_rename rename, ?_, fun _ _ => each, ?_⟩
  · intro name
    constructor
    · intro occurs
      have longer : name ++ "_" ≠ name := by
        intro same
        have sameLength := congrArg String.length same
        simp at sameLength
      exact ⟨name ++ "_", longer, (each longer).mp occurs⟩
    · intro replaced
      obtain ⟨other, different, changes⟩ := replaced
      exact (each different).mpr changes
  · intro rename
    simp only [rename_eq_iff, mem_nameSet]

/-- The program `function f(a) -> r, s { r := g(a) }`, then
`for { let i := 0 } lt(i, n) { i := f(i) } { switch i case "z" { h() } default { break } }`.
-/
def Block.search : Block :=
  .ofStmts [
    .define .null "f" [.ofName "a"] [.ofName "r", .ofName "s"]
      (.ofStmts [.assign .null [.ofName "r"] (.call .null (.ofName "g") [.ofName "a"])]),
    .loop .null
      (.ofStmts [.declareName "i" (.literal (.number "0"))])
      (.call .null (.builtin .null ⟨9⟩) [.ofName "i", .ofName "n"])
      (.ofStmts [.assign .null [.ofName "i"] (.call .null (.ofName "f") [.ofName "i"])])
      (.ofStmts [
        .switch .null (.ofName "i") [
          .labelled (.string "z") (.ofStmts [.ofExpr (.call .null (.ofName "h") [])]),
          .otherwise (.ofStmts [.breakLoop .null])]])]

/-- The names that stand only in the loop condition, as a result, or as a callee in a case are in
the set. The text of a label is not, so `z` can be renamed to a name that occurs.
-/
theorem Block.nameSet_exact_search
    : "n" ∈ Block.search.nameSet
      ∧ "s" ∈ Block.search.nameSet
      ∧ "h" ∈ Block.search.nameSet
      ∧ "z" ∉ Block.search.nameSet
      ∧ Block.search.replaceName "z" "n" = Block.search := by
  obtain ⟨-, -, exact, fixes⟩ := Block.nameSet_exact Block.search
  have absent : "z" ∉ Block.search.nameSet := by
    rw [exact "z" "y" (by decide), ne_eq, not_not]
    decide
  refine ⟨(exact "n" "m" (by decide)).mpr (by decide),
    (exact "s" "r" (by decide)).mpr (by decide), (exact "h" "f" (by decide)).mpr (by decide),
    absent, (fixes _).mpr ?_⟩
  intro name occurs
  exact Function.update_of_ne (ne_of_mem_of_not_mem occurs absent) "n" id

end StackIR
