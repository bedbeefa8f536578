import R64.Text
/-!
Terminal attributes. A colour holds until the next colour or until `plain`, so two coloured parts that follow each
other need one reset only.
-/
namespace R64.Terminal

inductive Colour where
  | red | green | yellow | blue | cyan
  deriving DecidableEq

def sequence (number : Nat) : Text := "\x1b[" ++ Text.decimal number ++ "m"

def Colour.on : Colour → Text
  | .red => sequence 31
  | .green => sequence 32
  | .yellow => sequence 33
  | .blue => sequence 34
  | .cyan => sequence 36

/-- Back to the terminal's own colour. -/
def plain : Text := sequence 39

def bold : Text := sequence 1

def boldOff : Text := sequence 22

def underline : Text := sequence 4

def underlineOff : Text := sequence 24

def coloured (c : Colour) (s : Text) : Text := c.on ++ s ++ plain

def emphasised (c : Colour) (s : Text) : Text := c.on ++ bold ++ s ++ plain ++ boldOff

def underlined (s : Text) : Text := underline ++ s ++ underlineOff

end R64.Terminal
