import StackIR.Encoding.Datum
import StackIR.Expr

/-! The encoding of expressions and of what they are made of.

A span may be left out of a node on input, and then is the null span; on output every
field is written. Decoding what was encoded gives the node back: `Expr.ofDatum?_toDatum`.
-/

namespace StackIR

def Span.toDatum (span : Span) : Datum :=
  .record [("file", .ofNat span.file.toNat), ("lo", .ofNat span.lo.toNat),
    ("hi", .ofNat span.hi.toNat)]

def Span.ofDatum? (datum : Datum) : Option Span := do
  let fields ← datum.fields?
  return ⟨← fields.read "file" Datum.word64?, ← fields.read "lo" Datum.word32?,
    ← fields.read "hi" Datum.word32?⟩

/-- The span of a node, which may be left out. -/
def Datum.Fields.span? (fields : Datum.Fields) : Option Span :=
  fields.readOr "span" .null Span.ofDatum?

def Name.toDatum (name : Name) : Datum := .string name

def Name.ofDatum? (datum : Datum) : Option Name := datum.string?

def BuiltinHandle.toDatum (handle : BuiltinHandle) : Datum := .ofNat handle.index.toNat

def BuiltinHandle.ofDatum? (datum : Datum) : Option BuiltinHandle :=
  datum.word64?.map BuiltinHandle.mk

def VerbatimHandle.toDatum (handle : VerbatimHandle) : Datum :=
  .record [("inputs", .ofNat handle.inputs.toNat), ("outputs", .ofNat handle.outputs.toNat)]

def VerbatimHandle.ofDatum? (datum : Datum) : Option VerbatimHandle := do
  let fields ← datum.fields?
  return ⟨← fields.read "inputs" Datum.word64?, ← fields.read "outputs" Datum.word64?⟩

def Ident.toDatum (ident : Ident) : Datum :=
  .record [("span", ident.span.toDatum), ("name", ident.name.toDatum)]

def Ident.ofDatum? (datum : Datum) : Option Ident := do
  let fields ← datum.fields?
  return ⟨← fields.span?, ← fields.read "name" Name.ofDatum?⟩

def LiteralKind.tag : LiteralKind → String
  | .number => "Number"
  | .boolean => "Boolean"
  | .string => "String"

def LiteralKind.ofTag? (tag : String) : Option LiteralKind :=
  [number, boolean, string].find? (·.tag == tag)

def LiteralKind.toDatum (kind : LiteralKind) : Datum := .string kind.tag

/-- A kind is given by its tag alone, or as a variant without content. -/
def LiteralKind.ofDatum? : Datum → Option LiteralKind
  | .string tag => ofTag? tag
  | .record [(tag, .null)] => ofTag? tag
  | _ => none

def Literal.toDatum (literal : Literal) : Datum :=
  .record [("span", literal.span.toDatum), ("kind", literal.kind.toDatum),
    ("value", .string literal.value)]

def Literal.ofDatum? (datum : Datum) : Option Literal := do
  let fields ← datum.fields?
  return ⟨← fields.span?, ← fields.read "kind" LiteralKind.ofDatum?,
    ← fields.read "value" Datum.string?⟩

def Callee.toDatum : Callee → Datum
  | .builtin span handle =>
      .variant "Builtin" (.record [("span", span.toDatum), ("handle", handle.toDatum)])
  | .verbatim span handle =>
      .variant "Verbatim" (.record [("span", span.toDatum), ("handle", handle.toDatum)])
  | .user ident => .variant "Identifier" ident.toDatum

def Callee.ofDatum? : Datum → Option Callee
  | .record [(tag, content)] =>
      match tag with
      | "Builtin" => do
          let fields ← content.fields?
          return .builtin (← fields.span?) (← fields.read "handle" BuiltinHandle.ofDatum?)
      | "Verbatim" => do
          let fields ← content.fields?
          return .verbatim (← fields.span?) (← fields.read "handle" VerbatimHandle.ofDatum?)
      | "Identifier" => return .user (← Ident.ofDatum? content)
      | _ => none
  | _ => none

mutual
def Expr.toDatum : Expr → Datum
  | .ident i => .variant "Identifier" i.toDatum
  | .literal l => .variant "Literal" l.toDatum
  | .call span callee args =>
      .variant "FunctionCall" (.record [("span", span.toDatum),
        ("function_name", callee.toDatum), ("arguments", .list (Expr.toData args))])
/-- Writes the arguments of a call. -/
def Expr.toData : List Expr → List Datum
  | [] => []
  | expr :: rest => expr.toDatum :: Expr.toData rest
end

def Call.toDatum (call : Call) : Datum :=
  .record [("span", call.span.toDatum), ("function_name", call.callee.toDatum),
    ("arguments", .list (Expr.toData call.args))]

mutual
/-- Reads an expression, given as a variant. -/
def Expr.ofDatum? : Datum → Option Expr
  | .record [(tag, content)] =>
      match tag with
      | "Identifier" => return .ident (← Ident.ofDatum? content)
      | "Literal" => return .literal (← Literal.ofDatum? content)
      | "FunctionCall" => return (← Call.ofDatum? content).toExpr
      | _ => none
  | _ => none
termination_by datum => sizeOf datum
/-- Reads a call. -/
def Call.ofDatum? : Datum → Option Call
  | .record fields => do
      let span ← Datum.Fields.span? fields
      let callee ← Datum.Fields.read "function_name" Callee.ofDatum? fields
      let ⟨args, _⟩ ← Datum.Fields.sublist? "arguments" fields
      return ⟨span, callee, ← Expr.ofData? args⟩
  | _ => none
termination_by datum => sizeOf datum
/-- Reads the arguments of a call. -/
def Expr.ofData? : List Datum → Option (List Expr)
  | [] => some []
  | datum :: rest => return (← Expr.ofDatum? datum) :: (← Expr.ofData? rest)
termination_by data => sizeOf data
end

-----------------------------------------------------------------------------------------
-- Decoding inverts encoding
-----------------------------------------------------------------------------------------

open Datum

theorem Span.ofDatum?_toDatum (span : Span) : ofDatum? span.toDatum = some span := by
  simp [ofDatum?, toDatum, Fields.read, fields?, List.lookup_cons, word64?_ofNat, word32?_ofNat]

theorem Datum.Fields.span?_cons (span : Span) (fields : Fields)
    : Fields.span? (("span", span.toDatum) :: fields) = some span := by
  simp [span?, readOr, Span.ofDatum?_toDatum]

theorem Name.ofDatum?_toDatum (name : Name) : ofDatum? (toDatum name) = some name := rfl

theorem BuiltinHandle.ofDatum?_toDatum (handle : BuiltinHandle)
    : ofDatum? handle.toDatum = some handle := by
  simp [ofDatum?, toDatum, word64?_ofNat]

theorem VerbatimHandle.ofDatum?_toDatum (handle : VerbatimHandle)
    : ofDatum? handle.toDatum = some handle := by
  simp [ofDatum?, toDatum, Fields.read, fields?, List.lookup_cons, word64?_ofNat]

theorem Ident.ofDatum?_toDatum (ident : Ident) : ofDatum? ident.toDatum = some ident := by
  simp [ofDatum?, toDatum, fields?, Fields.span?_cons, Fields.read, List.lookup_cons,
    Name.ofDatum?_toDatum]

theorem LiteralKind.ofDatum?_toDatum (kind : LiteralKind) : ofDatum? kind.toDatum = some kind := by
  cases kind <;> decide

theorem Literal.ofDatum?_toDatum (literal : Literal)
    : ofDatum? literal.toDatum = some literal := by
  simp [ofDatum?, toDatum, fields?, Fields.span?_cons, Fields.read, List.lookup_cons,
    LiteralKind.ofDatum?_toDatum, string?]

theorem Callee.ofDatum?_toDatum (callee : Callee) : ofDatum? callee.toDatum = some callee := by
  cases callee <;>
    simp [ofDatum?, toDatum, variant, fields?, Fields.span?_cons, Fields.read, List.lookup_cons,
      BuiltinHandle.ofDatum?_toDatum, VerbatimHandle.ofDatum?_toDatum,
      Ident.ofDatum?_toDatum]

mutual
theorem Expr.ofDatum?_toDatum : ∀ expr : Expr, Expr.ofDatum? expr.toDatum = some expr
  | .ident i => by simp [Expr.toDatum, Expr.ofDatum?, variant, Ident.ofDatum?_toDatum]
  | .literal l => by simp [Expr.toDatum, Expr.ofDatum?, variant, Literal.ofDatum?_toDatum]
  | .call _ callee args => by
      simp [Expr.toDatum, Expr.ofDatum?, Call.ofDatum?, Call.toExpr, variant,
        Fields.span?_cons, Fields.read, Fields.sublist?, List.lookup_cons,
        Callee.ofDatum?_toDatum callee, Expr.ofData?_toData args]
theorem Expr.ofData?_toData : ∀ exprs : List Expr, Expr.ofData? (Expr.toData exprs) = some exprs
  | [] => by simp [Expr.toData, Expr.ofData?]
  | expr :: rest => by
      simp [Expr.toData, Expr.ofData?, Expr.ofDatum?_toDatum expr, Expr.ofData?_toData rest]
end

theorem Call.ofDatum?_toDatum (call : Call) : ofDatum? call.toDatum = some call := by
  simp [ofDatum?, toDatum, Fields.span?_cons, Fields.read, Fields.sublist?, List.lookup_cons,
    Callee.ofDatum?_toDatum, Expr.ofData?_toData]

end StackIR
