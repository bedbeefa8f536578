import R64.Text.Utf8
/-!
Source lines and how a file is cut into them.
-/
namespace R64

/-- One line of a source: the file that it stands in, its number counted from one, and its text as written. -/
structure Line where
  file : Text
  number : Nat
  text : Text
  deriving DecidableEq

namespace Line

variable {α : Type} [DecidableEq α]

/-- What stands before a line feed without one carriage return right before it. Characters are given last first. -/
def closed (cr : α) : List α → List α
  | [] => []
  | c :: acc => if c = cr then acc.reverse else (c :: acc).reverse

/-- The lines of what follows `acc`, the characters of an unfinished line, last first. A last line without line feed
counts if it is not empty and is kept as it is. -/
def cut (lf cr : α) : List α → List α → List (List α)
  | acc, [] => if acc = [] then [] else [acc.reverse]
  | acc, c :: s => if c = lf then closed cr acc :: cut lf cr [] s else cut lf cr (c :: acc) s

def ofText (s : Text) : List Text := cut '\n' '\r' [] s

def ofBytes (bytes : List UInt8) : List Text := (cut 0x0A 0x0D [] bytes).map Text.ofBytes

end Line

end R64
