import R64.Literal.Digits
import R64.Literal.Single
/-!
Decimal fractions with an optional exponent, and the spelled-out values that are no fractions.
-/
namespace R64.Literal

def powerOfTen (k : Nat) : Nat := Nat.pow 10 k

/-- The number `digits * 10 ^ exponent`, with its sign. -/
structure Decimal where
  negative : Bool
  digits : Text
  exponent : Int
  deriving DecidableEq

namespace Decimal

/-- All digits as one natural number, the point left out. -/
def mantissa (d : Decimal) : Nat := value 10 d.digits

def isZero (d : Decimal) : Bool := d.digits.all (· == '0')

/-- Number of digits before the point when the first digit that is not zero stands right after it: a non-zero number
lies between `10 ^ (magnitude - 1)` and `10 ^ magnitude`. -/
def magnitude (d : Decimal) : Int := d.exponent + (d.digits.dropWhile (· == '0')).length

/-- The single-precision pattern nearest to the absolute value. Beyond `10 ^ 40` it is infinity and below `10 ^ -46` it
is zero, whatever the digits, so that no power of ten has to be computed there. -/
def pattern (d : Decimal) : Nat :=
  if d.isZero then 0
  else if 40 < d.magnitude then Single.infinity
  else if d.magnitude < -45 then 0
  else match d.exponent with
    | .ofNat k => Single.round (d.mantissa * powerOfTen k) 1
    | .negSucc k => Single.round d.mantissa (powerOfTen (k + 1))

end Decimal

/-- What the text of a floating-point number denotes. -/
inductive FloatText where
  | infinite (negative : Bool)
  | notANumber (negative : Bool)
  | finite (value : Decimal)
  deriving DecidableEq

namespace FloatText

/-- An exponent that has reached this number takes up no further digits. -/
def exponentLimit : Nat := 0x10000

/-- The exponent that digits stand for. The digits after the limit is reached do not count. -/
def exponentValue (s : Text) : Nat :=
  s.foldl (fun n c => if n < exponentLimit then n * 10 + digitValue c else n) 0

/-- The exponent at the end of a number: nothing, or `e` in either case, an optional sign and at least one digit. -/
def exponent? : Text → Option Int
  | [] => some 0
  | c :: s =>
    if c = 'e' ∨ c = 'E' then
      let (negative, digits) := splitSign s
      if isNumeral 10 digits then
        some (if negative then -(exponentValue digits : Int) else exponentValue digits)
      else none
    else none

/-- Digits before and after an optional point, at least one in all, and what follows them. -/
def fraction? (s : Text) : Option (Text × Text × Text) :=
  let whole := s.takeWhile (isDigit 10)
  let rest := s.dropWhile (isDigit 10)
  let part := match rest with
    | '.' :: t => (t.takeWhile (isDigit 10), t.dropWhile (isDigit 10))
    | _ => ([], rest)
  if whole = [] ∧ part.1 = [] then none else some (whole, part.1, part.2)

/-- Read an optional sign and then an infinity, a word for no number, or a decimal fraction with an optional exponent.
-/
def parse? (s : Text) : Option FloatText :=
  let (negative, body) := splitSign s
  if body.lower = "inf" ∨ body.lower = "infinity" then some (.infinite negative)
  else if body.lower = "nan" then some (.notANumber negative)
  else (fraction? body).bind fun (whole, part, rest) =>
    (exponent? rest).map fun e => .finite ⟨negative, whole ++ part, e - part.length⟩

/-- The single-precision number that is meant, with a finite number rounded. -/
def toWord : FloatText → Word
  | .infinite negative => Single.signedWord negative Single.infinity
  | .notANumber negative => Single.signedWord negative Single.quietNaN
  | .finite d => Single.signedWord d.negative d.pattern

def read? (s : Text) : Option Word := (parse? s).map toWord

end FloatText

end R64.Literal
