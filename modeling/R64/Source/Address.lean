import R64.Literal.Basic
import R64.Text.Blank
/-!
Address operands: in brackets a base, an offset, or both in either order. A term that is an integer literal is the
offset, any other term is the base; whether the base is a register is not decided here.
-/
namespace R64

structure Address where
  base : Option Text
  offset : Option Text
  deriving DecidableEq

namespace Address

/-- Enter one term with its sign. A second offset or a second base is refused. A base loses one plus sign. -/
def enter? (a : Address) (term : Text) : Option Address :=
  if Literal.isInteger term then
    if a.offset.isSome then none else some { a with offset := some term }
  else if a.base.isSome then none
  else some { a with base := some ((Text.dropLead? '+' term).getD term) }

/-- A leading sign as a text of its own, and what follows it after blanks. -/
def splitSign : Text → Text × Text
  | [] => ([], [])
  | c :: s => if c = '+' ∨ c = '-' then ([c], Text.trimStart s) else ([], c :: s)

/-- The first term ends at a blank or at the sign of the second. -/
def endsFirst (c : Char) : Bool := Text.isBlank c || c == '+' || c == '-'

/-- The second term, which needs a sign and ends at a blank; only blanks may follow. -/
def second? (a : Address) (s : Text) : Option Address :=
  let (sign, rest) := splitSign s
  if sign = [] ∨ rest = [] then none
  else if Text.trimStart (rest.dropWhile fun c => !Text.isBlank c) ≠ [] then none
  else a.enter? (sign ++ rest.takeWhile fun c => !Text.isBlank c)

def parse? (s : Text) : Option Address :=
  (Text.between? '[' ']' s).bind fun inner =>
    let (sign, rest) := splitSign (Text.trim inner)
    if rest = [] then none
    else
      (enter? ⟨none, none⟩ (sign ++ rest.takeWhile fun c => !endsFirst c)).bind fun a =>
        let tail := Text.trimStart (rest.dropWhile fun c => !endsFirst c)
        if tail = [] then some a else a.second? tail

end Address

end R64
