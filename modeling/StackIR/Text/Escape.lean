/-! Escapes in string literals: quotes, backslashes and control characters are spelled
out.
-/

namespace StackIR

/-- The control characters are those of the Unicode category Cc. -/
def isControl (c : Char) : Bool := c.toNat < 0x20 || (0x7F ≤ c.toNat && c.toNat ≤ 0x9F)

/-- The two lower-case hexadecimal digits of a number below 256. -/
def hexByte (n : Nat) : List Char := [Nat.digitChar (n / 16), Nat.digitChar (n % 16)]

/-- One character as it stands between the quotes of a literal. -/
def escapeChar (c : Char) : List Char :=
  match c with
  | '"' => ['\\', '"']
  | '\\' => ['\\', '\\']
  | '\n' => ['\\', 'n']
  | '\r' => ['\\', 'r']
  | '\t' => ['\\', 't']
  | c => if isControl c then '\\' :: 'x' :: hexByte c.toNat else [c]

/-- The contents of a string as they stand between the quotes of a literal. -/
def escape (contents : List Char) : List Char := contents.flatMap escapeChar

theorem escape_append (front back : List Char)
    : escape (front ++ back) = escape front ++ escape back :=
  List.flatMap_append

end StackIR
