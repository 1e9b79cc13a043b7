import StackIR.Span

/-! Compile-time constants. -/

namespace StackIR

inductive LiteralKind where
  | number
  | boolean
  | string
deriving DecidableEq, Repr

/-- A constant. `value` is the source text of a number or a boolean, and the contents of a
string without quotes or escapes.
-/
structure Literal where
  span : Span
  kind : LiteralKind
  value : String
deriving DecidableEq, Repr

namespace Literal

/-- The number whose source text is `text`, placed at the null span. -/
def number (text : String) : Literal := ⟨.null, .number, text⟩

/-- The number written in decimal, with a sign if it is negative. -/
def ofInt : Int → Literal
  | .ofNat n => number (Decimal.text n)
  | .negSucc n => number ("-" ++ Decimal.text (n + 1))

/-- The constant `true` or `false`, placed at the null span. -/
def boolean (value : Bool) : Literal := ⟨.null, .boolean, if value then "true" else "false"⟩

/-- The string with the given contents, placed at the null span. -/
def string (contents : String) : Literal := ⟨.null, .string, contents⟩

/-- The same constant at another place. -/
def withSpan (literal : Literal) (span : Span) : Literal := { literal with span }

end Literal
end StackIR
