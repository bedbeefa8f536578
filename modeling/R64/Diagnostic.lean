import R64.Fault
import R64.Source.Line
import R64.Text.Terminal
/-!
Diagnostics: a fault, how grave it is, and the line that it concerns.
-/
namespace R64

inductive Level where
  | error | warn | note
  deriving DecidableEq

structure Diagnostic where
  level : Level
  fault : Fault
  line : Option Line
  deriving DecidableEq

namespace Diagnostic

def error (fault : Fault) (line : Option Line) : Diagnostic := ⟨.error, fault, line⟩

def isError (d : Diagnostic) : Bool := d.level == .error

def heading : Level → Text
  | .error => Terminal.emphasised .red "error"
  | .warn => Terminal.emphasised .yellow "warn"
  | .note => Terminal.emphasised .green "note"

/-- The source line under its place, with the number in a margin. -/
def excerpt (l : Line) : List Text :=
  let bar : Text := List.replicate 6 ' ' ++ Terminal.coloured .blue "|"
  [List.replicate 5 ' ' ++ Terminal.coloured .blue "-->" ++ " " ++
      Terminal.underlined (l.file ++ ":" ++ Text.decimal l.number),
    bar,
    " " ++ Terminal.coloured .blue (Text.padLeft 4 (Text.decimal l.number) ++ " |") ++ " " ++ l.text,
    bar]

def render (d : Diagnostic) : List Text :=
  (heading d.level ++ ": " ++ d.fault.message) ::
    match d.line with
    | some l => excerpt l
    | none => []

end Diagnostic

end R64
