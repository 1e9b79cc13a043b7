import StackIR.Encoding.Expr
import StackIR.Stmt

/-! The encoding of statements, blocks and cases.

Decoding what was encoded gives the node back: `Stmt.ofDatum?_toDatum` and its companions.
-/

namespace StackIR

def Binding.toDatum (binding : Binding) : Datum :=
  .record [("span", binding.span.toDatum), ("name", binding.name.toDatum)]

def Binding.ofDatum? (datum : Datum) : Option Binding := do
  let fields ← datum.fields?
  return ⟨← fields.span?, ← fields.read "name" Name.ofDatum?⟩

def Declaration.toDatum (declaration : Declaration) : Datum :=
  .record [("span", declaration.span.toDatum),
    ("variables", .ofList Binding.toDatum declaration.bindings),
    ("value", .ofOption Expr.toDatum declaration.value)]

mutual
def Stmt.toDatum : Stmt → Datum
  | .expr span value =>
      .variant "ExpressionStatement"
        (.record [("span", span.toDatum), ("expression", value.toDatum)])
  | .assign span targets value =>
      .variant "Assignment" (.record [("span", span.toDatum),
        ("variable_names", .ofList Ident.toDatum targets), ("value", value.toDatum)])
  | .declare span bindings value =>
      .variant "VariableDeclaration" (Declaration.toDatum ⟨span, bindings, value⟩)
  | .define span name params returns body =>
      .variant "FunctionDefinition" (.record [("span", span.toDatum),
        ("name", name.toDatum), ("parameters", .ofList Binding.toDatum params),
        ("return_variables", .ofList Binding.toDatum returns), ("body", body.toDatum)])
  | .branch span condition body =>
      .variant "If" (.record [("span", span.toDatum), ("condition", condition.toDatum),
        ("body", body.toDatum)])
  | .switch span subject cases =>
      .variant "Switch" (.record [("span", span.toDatum), ("expression", subject.toDatum),
        ("cases", .list (Case.toData cases))])
  | .loop span pre condition post body =>
      .variant "ForLoop" (.record [("span", span.toDatum), ("pre", pre.toDatum),
        ("condition", condition.toDatum), ("post", post.toDatum), ("body", body.toDatum)])
  | .breakLoop span => .variant "Break" (.record [("span", span.toDatum)])
  | .continueLoop span => .variant "Continue" (.record [("span", span.toDatum)])
  | .leave span => .variant "Leave" (.record [("span", span.toDatum)])
  | .block body => .variant "Block" body.toDatum
def Block.toDatum : Block → Datum
  | ⟨span, stmts⟩ =>
      .record [("span", span.toDatum), ("statements", .list (Stmt.toData stmts))]
/-- Writes the statements of a block. -/
def Stmt.toData : List Stmt → List Datum
  | [] => []
  | stmt :: rest => stmt.toDatum :: Stmt.toData rest
def Case.toDatum : Case → Datum
  | ⟨span, label, body⟩ =>
      .record [("span", span.toDatum), ("value", .ofOption Literal.toDatum label),
        ("body", body.toDatum)]
/-- Writes the cases of a `switch`. -/
def Case.toData : List Case → List Datum
  | [] => []
  | case :: rest => case.toDatum :: Case.toData rest
end

mutual
/-- Reads a statement, given as a variant. -/
def Stmt.ofDatum? : Datum → Option Stmt
  | .record [(tag, .record fields)] => do
      let span ← Datum.Fields.span? fields
      let read {α : Type} (key : String) (decode : Datum → Option α) : Option α :=
        Datum.Fields.read key decode fields
      match tag with
      | "ExpressionStatement" => return .expr span (← read "expression" Expr.ofDatum?)
      | "Assignment" =>
          return .assign span (← read "variable_names" (Datum.listOf? Ident.ofDatum?))
            (← read "value" Expr.ofDatum?)
      | "VariableDeclaration" =>
          return .declare span (← read "variables" (Datum.listOf? Binding.ofDatum?))
            (← Datum.Fields.readOption "value" Expr.ofDatum? fields)
      | "FunctionDefinition" => do
          let name ← read "name" Name.ofDatum?
          let params ← read "parameters" (Datum.listOf? Binding.ofDatum?)
          let returns ← read "return_variables" (Datum.listOf? Binding.ofDatum?)
          let ⟨body, _⟩ ← Datum.Fields.subrecord? "body" fields
          return .define span name params returns (← Block.ofFields? body)
      | "If" => do
          let ⟨body, _⟩ ← Datum.Fields.subrecord? "body" fields
          return .branch span (← read "condition" Expr.ofDatum?) (← Block.ofFields? body)
      | "Switch" => do
          let ⟨cases, _⟩ ← Datum.Fields.sublist? "cases" fields
          return .switch span (← read "expression" Expr.ofDatum?) (← Case.ofData? cases)
      | "ForLoop" => do
          let ⟨pre, _⟩ ← Datum.Fields.subrecord? "pre" fields
          let ⟨post, _⟩ ← Datum.Fields.subrecord? "post" fields
          let ⟨body, _⟩ ← Datum.Fields.subrecord? "body" fields
          return .loop span (← Block.ofFields? pre) (← read "condition" Expr.ofDatum?)
            (← Block.ofFields? post) (← Block.ofFields? body)
      | "Break" => return .breakLoop span
      | "Continue" => return .continueLoop span
      | "Leave" => return .leave span
      | "Block" => return .block (← Block.ofFields? fields)
      | _ => none
  | _ => none
termination_by datum => sizeOf datum
/-- Reads a block, given by the fields of its record. -/
def Block.ofFields? (fields : Datum.Fields) : Option Block := do
  let span ← fields.span?
  let ⟨stmts, _⟩ ← fields.sublist? "statements"
  return ⟨span, ← Stmt.ofData? stmts⟩
termination_by sizeOf fields
/-- Reads the statements of a block. -/
def Stmt.ofData? : List Datum → Option (List Stmt)
  | [] => some []
  | datum :: rest => return (← Stmt.ofDatum? datum) :: (← Stmt.ofData? rest)
termination_by data => sizeOf data
/-- Reads a case of a `switch`. -/
def Case.ofDatum? : Datum → Option Case
  | .record fields => do
      let span ← Datum.Fields.span? fields
      let label ← Datum.Fields.readOption "value" Literal.ofDatum? fields
      let ⟨body, _⟩ ← Datum.Fields.subrecord? "body" fields
      return ⟨span, label, ← Block.ofFields? body⟩
  | _ => none
termination_by datum => sizeOf datum
/-- Reads the cases of a `switch`. -/
def Case.ofData? : List Datum → Option (List Case)
  | [] => some []
  | datum :: rest => return (← Case.ofDatum? datum) :: (← Case.ofData? rest)
termination_by data => sizeOf data
end

def Block.ofDatum? (datum : Datum) : Option Block := do
  Block.ofFields? (← datum.fields?)

-----------------------------------------------------------------------------------------
-- Decoding inverts encoding
-----------------------------------------------------------------------------------------

open Datum

theorem Binding.ofDatum?_toDatum (binding : Binding)
    : ofDatum? binding.toDatum = some binding := by
  simp [ofDatum?, toDatum, fields?, Fields.span?_cons, Fields.read, List.lookup_cons,
    Name.ofDatum?_toDatum]

theorem Expr.toDatum_ne_null (expr : Expr) : expr.toDatum ≠ .null := by
  cases expr <;> simp [toDatum, variant]

theorem Literal.toDatum_ne_null (literal : Literal) : literal.toDatum ≠ .null := by
  simp [toDatum]

/-- The fields of the record that encodes a block. -/
def Block.toFields (block : Block) : Fields :=
  [("span", block.span.toDatum), ("statements", .list (Stmt.toData block.stmts))]

theorem Block.toDatum_eq_record (block : Block) : block.toDatum = .record block.toFields := by
  cases block
  simp [toDatum, toFields]

mutual
theorem Stmt.ofDatum?_toDatum (stmt : Stmt) : Stmt.ofDatum? stmt.toDatum = some stmt := by
  cases stmt with
  | define _ _ _ _ body =>
      simp [Stmt.toDatum, Stmt.ofDatum?, variant, Fields.span?_cons, Fields.read,
        Fields.subrecord?, List.lookup_cons, Name.ofDatum?_toDatum,
        listOf?_ofList Binding.ofDatum?_toDatum, Block.toDatum_eq_record,
        Block.ofFields?_toFields body]
  | branch _ _ body =>
      simp [Stmt.toDatum, Stmt.ofDatum?, variant, Fields.span?_cons, Fields.read,
        Fields.subrecord?, List.lookup_cons, Expr.ofDatum?_toDatum, Block.toDatum_eq_record,
        Block.ofFields?_toFields body]
  | switch _ _ cases =>
      simp [Stmt.toDatum, Stmt.ofDatum?, variant, Fields.span?_cons, Fields.read,
        Fields.sublist?, List.lookup_cons, Expr.ofDatum?_toDatum, Case.ofData?_toData cases]
  | loop _ pre _ post body =>
      simp [Stmt.toDatum, Stmt.ofDatum?, variant, Fields.span?_cons, Fields.read,
        Fields.subrecord?, List.lookup_cons, Expr.ofDatum?_toDatum, Block.toDatum_eq_record,
        Block.ofFields?_toFields pre, Block.ofFields?_toFields post,
        Block.ofFields?_toFields body]
  | block body =>
      have read := Block.ofFields?_toFields body
      rw [Block.toFields] at read
      simp [Stmt.toDatum, Stmt.ofDatum?, variant, Block.toDatum_eq_record, Block.toFields,
        Fields.span?_cons, read]
  | _ =>
      simp [Stmt.toDatum, Stmt.ofDatum?, Declaration.toDatum, variant, Fields.span?_cons,
        Fields.read, Fields.readOption, List.lookup_cons, Expr.ofDatum?_toDatum,
        listOf?_ofList Ident.ofDatum?_toDatum, listOf?_ofList Binding.ofDatum?_toDatum,
        optionOf?_ofOption Expr.ofDatum?_toDatum Expr.toDatum_ne_null]
theorem Block.ofFields?_toFields (block : Block)
    : Block.ofFields? block.toFields = some block := by
  cases block with
  | mk span stmts =>
      rw [Block.ofFields?]
      simp [Block.toFields, Fields.span?_cons, Fields.sublist?, List.lookup_cons,
        Stmt.ofData?_toData stmts]
theorem Stmt.ofData?_toData : ∀ stmts : List Stmt, Stmt.ofData? (Stmt.toData stmts) = some stmts
  | [] => by simp [Stmt.toData, Stmt.ofData?]
  | stmt :: rest => by
      simp [Stmt.toData, Stmt.ofData?, Stmt.ofDatum?_toDatum stmt, Stmt.ofData?_toData rest]
theorem Case.ofDatum?_toDatum (case : Case) : Case.ofDatum? case.toDatum = some case := by
  cases case with
  | mk _ _ body =>
      simp [Case.toDatum, Case.ofDatum?, Fields.span?_cons, Fields.readOption,
        Fields.subrecord?, List.lookup_cons, Block.toDatum_eq_record,
        Block.ofFields?_toFields body,
        optionOf?_ofOption Literal.ofDatum?_toDatum Literal.toDatum_ne_null]
theorem Case.ofData?_toData : ∀ cases : List Case, Case.ofData? (Case.toData cases) = some cases
  | [] => by simp [Case.toData, Case.ofData?]
  | case :: rest => by
      simp [Case.toData, Case.ofData?, Case.ofDatum?_toDatum case, Case.ofData?_toData rest]
end

theorem Block.ofDatum?_toDatum (block : Block) : ofDatum? block.toDatum = some block := by
  simp [ofDatum?, toDatum_eq_record, fields?, ofFields?_toFields]

end StackIR
