import StackIR.Text.Decimal

/-! Source positions, which every node of a program carries. -/

namespace StackIR

/-- The stretch of the source file `file` from offset `lo` to offset `hi`. -/
structure Span where
  file : UInt64
  lo : UInt32
  hi : UInt32
deriving DecidableEq, Repr

namespace Span

/-- The span of a node that stands in no source file. -/
def null : Span := ⟨0, 0, 0⟩

instance : Inhabited Span := ⟨null⟩

/-- Tells the null span from all others. -/
def isNull (span : Span) : Bool := span == null

/-- The text `Span(file:lo-hi)`. -/
def text (span : Span) : String :=
  "Span(" ++ Decimal.text span.file.toNat ++ ":" ++ Decimal.text span.lo.toNat ++ "-"
    ++ Decimal.text span.hi.toNat ++ ")"

/-- A span is written in one line. -/
theorem newline_not_mem_text (span : Span) : '\n' ∉ span.text.toList := by
  simp [text, Decimal.toList_text, Decimal.newline_not_mem_digits]

end Span
end StackIR
