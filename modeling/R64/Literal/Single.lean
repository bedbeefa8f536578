import R64.Machine.Word
/-!
Single-precision numbers. A non-negative finite number is its bit pattern read as a natural number; as long as the
exponent field is `s + 1` the pattern counts units of `2 ^ s` times the least positive number, which is `2 ^ -149`.
Rounding is done once, on the exact quotient, to the nearest pattern and in a tie to the even one.
-/
namespace R64.Single

/-- The pattern of positive infinity, the least that is not a finite number. -/
def infinity : Nat := 0x7F800000

def quietNaN : Nat := 0x7FC00000

def signWeight : Nat := 0x80000000

def signedWord (negative : Bool) (pattern : Nat) : Word := UInt32.ofNat (negative.toNat * signWeight + pattern)

def isInfinite (w : Word) : Bool := w = signedWord false infinity ∨ w = signedWord true infinity

/-- Whether a word is zero, with either sign. -/
def isZero (w : Word) : Bool := w = signedWord false 0 ∨ w = signedWord true 0

/-- The natural number nearest to `num / den`, in a tie the even one. -/
def nearestEven (num den : Nat) : Nat :=
  let q := num / den
  let r := num % den
  if 2 * r < den then q else if den < 2 * r then q + 1 else q + q % 2

/-- The exponent step of `num / den`: the number of times that the unit has to be doubled, starting at the least
positive number, so that the quotient has at most 24 bits. -/
def scale (num den : Nat) : Nat := ((num <<< 149) / den).log2 - 23

/-- The pattern nearest to `num / den`, infinity included. A carry out of the fraction moves into the exponent field by
itself. -/
def round (num den : Nat) : Nat :=
  let s := scale num den
  min infinity (s * 0x800000 + nearestEven (num <<< 149) (den <<< s))

end R64.Single
