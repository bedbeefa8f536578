import R64.Text
/-!
Blanks are the characters with the Unicode property White_Space, wherever a line is trimmed or cut.
-/
namespace R64.Text

/-- Code point ranges of the White_Space property, both ends included. -/
def blankRanges : List (Nat × Nat) :=
  [(0x09, 0x0D), (0x20, 0x20), (0x85, 0x85), (0xA0, 0xA0), (0x1680, 0x1680), (0x2000, 0x200A),
    (0x2028, 0x2029), (0x202F, 0x202F), (0x205F, 0x205F), (0x3000, 0x3000)]

def isBlank (c : Char) : Bool :=
  blankRanges.any fun r => decide (r.1 ≤ c.toNat ∧ c.toNat ≤ r.2)

def trimStart (s : Text) : Text := s.dropWhile isBlank

def trimEnd (s : Text) : Text := (s.reverse.dropWhile isBlank).reverse

def trim (s : Text) : Text := trimEnd (trimStart s)

theorem length_trimStart_le (s : Text) : (trimStart s).length ≤ s.length := by
  induction s with
  | nil => exact Nat.le_refl _
  | cons c cs ih =>
    by_cases h : isBlank c
    · simpa [trimStart, List.dropWhile_cons, h] using Nat.le_succ_of_le ih
    · simp [trimStart, h]

end R64.Text
