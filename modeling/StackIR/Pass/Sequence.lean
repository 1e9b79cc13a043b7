import StackIR.Pass
import StackIR.Pass.Settings

/-! Sequences of passes, written as one letter a pass with blanks between them at will. -/

namespace StackIR.Pass

/-- The passes that a sequence names, in order. Fails at the first letter that names none.
-/
def parseSequence (letters : List Char) : Except Error (List Pass) :=
  (letters.filter (!isBlank ·)).mapM fun letter =>
    match find? letter with
    | some pass => .ok pass
    | none => .error (.unknownStep letter)

/-- Runs one pass, and checks its promise if the settings say so. -/
def runWith (settings : Settings) (dialect : Dialect) (pass : Pass) : Work Unit := do
  pass.run dialect
  if settings.verify then
    Work.check (pass.verify dialect)

/-- Runs the passes that a sequence names. A sequence with an unknown letter runs none. -/
def runSequence (settings : Settings) (dialect : Dialect) (sequence : String) : Work Unit :=
  match parseSequence sequence.toList with
  | .ok passes => passes.forM (runWith settings dialect)
  | .error error => throw (.failed error)

end StackIR.Pass
