import StackIR.Span

/-! What is reported when work on a program fails. -/

namespace StackIR

/-- A way in which a program is malformed, with a code for tools if there is one. -/
structure Defect where
  message : String
  code : Option String
deriving DecidableEq, Repr

/-- The message, and the code in brackets if there is one. -/
def Defect.text (defect : Defect) : String :=
  match defect.code with
  | none => defect.message
  | some code => defect.message ++ " [" ++ code ++ "]"

inductive Error where
  /-- The program is malformed at a place. -/
  | malformed (span : Span) (defect : Defect)
  /-- No pass has the given letter. -/
  | unknownStep (letter : Char)
  | generic (message : String)
deriving DecidableEq, Repr

namespace Error

/-- A malformed place, reported with a code. -/
def malformedAt (span : Span) (code message : String) : Error :=
  .malformed span ⟨message, some code⟩

/-- The code of a malformed place, if it has one. -/
def code? : Error → Option String
  | .malformed _ defect => defect.code
  | _ => none

def text : Error → String
  | .malformed span defect => "Invariant violation at " ++ span.text ++ ": " ++ defect.text
  | .unknownStep letter => "Unknown optimizer step: '" ++ letter.toString ++ "'"
  | .generic message => "Generic error: " ++ message

end Error

/-- Why a run ends without a result: it reports an error, or it asks for a fresh name when
no number for one is left.
-/
inductive Stop (ε : Type) where
  | failed (error : ε)
  | noFreeName
deriving DecidableEq, Repr

/-- The stop with its error, if it has one, put in other words. -/
def Stop.map {ε ε' : Type} (f : ε → ε') : Stop ε → Stop ε'
  | .failed error => .failed (f error)
  | .noFreeName => .noFreeName

end StackIR
