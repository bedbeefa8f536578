/-!
Text as a list of characters. Source lines, operands, paths and everything printed share this one type, so that
every function on text is a recursion on a list. String literals stand for their characters.
-/
namespace R64

abbrev Text := List Char

instance : Coe String Text := ⟨String.toList⟩

namespace Text

/-- ASCII letters become lower case; every other character stays. -/
def lower (s : Text) : Text := s.map Char.toLower

/-- ASCII letters become upper case; every other character stays. -/
def upper (s : Text) : Text := s.map Char.toUpper

/-- The lower-case form of a name whose letters are all lower case or all upper case. A name in mixed case has none. -/
def foldCase (s : Text) : Option Text :=
  if s = lower s ∨ s = upper s then some (lower s) else none

def dropLead? (c : Char) : Text → Option Text
  | [] => none
  | d :: ds => if d = c then some ds else none

def dropTrail? (c : Char) (s : Text) : Option Text :=
  if s.getLast? = some c then some s.dropLast else none

/-- The text between a leading `l` and a final `r`, which are two different occurrences. -/
def between? (l r : Char) (s : Text) : Option Text :=
  (dropLead? l s).bind (dropTrail? r)

/-- The pieces between the occurrences of `c`; there is always at least one. -/
def split (c : Char) : Text → List Text
  | [] => [[]]
  | d :: ds =>
    if d = c then [] :: split c ds
    else match split c ds with
      | [] => [[d]]
      | piece :: pieces => (d :: piece) :: pieces

/-- The place where the leftmost occurrence of a pattern begins. -/
def locate? (pattern : Text) : Text → Option Nat
  | [] => if pattern = [] then some 0 else none
  | c :: s => if pattern.isPrefixOf (c :: s) then some 0 else (locate? pattern s).map (· + 1)

theorem locate?_isPrefix {pattern s : Text} {n : Nat} (h : locate? pattern s = some n) : pattern <+: s.drop n := by
  induction s generalizing n with
  | nil =>
    rw [locate?] at h
    split at h
    · next hpattern => rw [hpattern]; exact List.nil_prefix
    · cases h
  | cons c s ih =>
    rw [locate?] at h
    split at h
    · next hstart =>
      cases h
      exact List.isPrefixOf_iff_prefix.mp hstart
    · obtain ⟨m, hm, rfl⟩ := Option.map_eq_some_iff.mp h
      exact ih hm

theorem locate?_eq_none_iff {pattern s : Text} : locate? pattern s = none ↔ ¬ pattern <:+: s := by
  induction s with
  | nil => simp [locate?]
  | cons c s ih =>
    rw [locate?, List.infix_cons_iff, ← List.isPrefixOf_iff_prefix]
    split
    · next hstart => simp [hstart]
    · next hstart => simp [hstart, ih]

def occurs (pattern s : Text) : Bool := (locate? pattern s).isSome

theorem occurs_iff {pattern s : Text} : occurs pattern s ↔ pattern <:+: s := by
  rw [occurs, Option.isSome_iff_ne_none, ne_eq, locate?_eq_none_iff, Classical.not_not]

def byteLength : Text → Nat
  | [] => 0
  | c :: s => c.utf8Size + byteLength s

def decimal (n : Nat) : Text := Nat.toDigits 10 n

/-- The hexadecimal numeral of `n` in lower case, with at least `width` digits. -/
def hex (width n : Nat) : Text := (Nat.toDigits 16 n).leftpad width '0'

/-- The hexadecimal numeral of `n` in upper case, with at least `width` digits. -/
def hexUpper (width n : Nat) : Text := upper (hex width n)

/-- Fill with spaces on the right up to `width`; a longer text is not cut. -/
def padRight (width : Nat) (s : Text) : Text := s.rightpad width ' '

/-- Fill with spaces on the left up to `width`; a longer text is not cut. -/
def padLeft (width : Nat) (s : Text) : Text := s.leftpad width ' '

end Text

end R64
