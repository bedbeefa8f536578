import R64.Text
/-!
Text macros. A definition replaces every occurrence of its name, from the left and without overlap, and never looks at
text that it has put in itself. Definitions are applied one after another in the order in which they were made.
-/
namespace R64

/-- Definitions as pairs of a name and its replacement, oldest first. -/
structure Macros where
  definitions : Array (Text × Text)
  deriving DecidableEq

namespace Macros

def empty : Macros := ⟨#[]⟩

def define (m : Macros) (name replacement : Text) : Macros := ⟨m.definitions.push (name, replacement)⟩

/-- Replace the occurrences of `name` from the place `pos` on. An occurrence is replaced in the line itself, and the
search goes on behind what has been put in its place. -/
def replaceFrom (name replacement : Text) (hname : name ≠ []) (line : Text) (pos : Nat) : Text :=
  match hlocate : Text.locate? name (line.drop pos) with
  | none => line
  | some found =>
    have := (Text.locate?_isPrefix hlocate).length_le
    let start := pos + found
    replaceFrom name replacement hname (line.take start ++ replacement ++ line.drop (start + name.length))
      (start + replacement.length)
termination_by line.length - pos
decreasing_by
  have hpositive := List.length_pos_iff.mpr hname
  simp only [List.length_drop, List.length_append, List.length_take] at this ⊢
  omega

theorem replaceFrom_of_none {name replacement line : Text} {hname : name ≠ []} {pos : Nat}
    (h : Text.locate? name (line.drop pos) = none) : replaceFrom name replacement hname line pos = line := by
  rw [replaceFrom]
  split
  · rfl
  · next hlocate => cases h.symm.trans hlocate

theorem replaceFrom_of_some {name replacement line : Text} {hname : name ≠ []} {pos found : Nat}
    (h : Text.locate? name (line.drop pos) = some found) :
    replaceFrom name replacement hname line pos =
      replaceFrom name replacement hname
        (line.take (pos + found) ++ replacement ++ line.drop (pos + found + name.length))
        (pos + found + replacement.length) := by
  rw [replaceFrom]
  split
  · next hlocate => cases h.symm.trans hlocate
  · next hlocate =>
    cases h.symm.trans hlocate
    rfl

/-- Apply one definition. One without a name makes no change. -/
def apply (definition : Text × Text) (line : Text) : Text :=
  if hname : definition.1 = [] then line else replaceFrom definition.1 definition.2 hname line 0

def expand (m : Macros) (line : Text) : Text :=
  m.definitions.foldl (fun line definition => apply definition line) line

end Macros

end R64
