import R64.Text
/-!
Signs and unsigned numerals in any base up to sixteen.
-/
namespace R64.Literal

/-- Whether the text has a leading minus sign, and what follows the sign, if there is one. -/
def splitSign : Text → Bool × Text
  | [] => (false, [])
  | c :: s => if c = '-' then (true, s) else if c = '+' then (false, s) else (false, c :: s)

/-- The value of a digit, letters in either case. -/
def digit? (c : Char) : Option Nat :=
  if '0' ≤ c ∧ c ≤ '9' then some (c.toNat - '0'.toNat)
  else if 'a' ≤ c ∧ c ≤ 'f' then some (c.toNat - 'a'.toNat + 10)
  else if 'A' ≤ c ∧ c ≤ 'F' then some (c.toNat - 'A'.toNat + 10)
  else none

def digitValue (c : Char) : Nat := (digit? c).getD 0

def isDigit (base : Nat) (c : Char) : Bool := (digit? c).any (· < base)

/-- One or more digits. -/
def isNumeral (base : Nat) (s : Text) : Bool := s != [] && s.all (isDigit base)

/-- The number that digits stand for, the highest digit first; any number of leading zeros is allowed. -/
def value (base : Nat) (s : Text) : Nat := s.foldl (fun n c => n * base + digitValue c) 0

def checkedMul (a b : Int64) : Option Int64 :=
  if BitVec.smulOverflow a.toBitVec b.toBitVec then none else some (a * b)

def checkedAdd (a b : Int64) : Option Int64 :=
  if BitVec.saddOverflow a.toBitVec b.toBitVec then none else some (a + b)

/-- One more digit behind a number that is read in 64 bits. -/
def pushDigit? (base : Nat) (n : Int64) (c : Char) : Option Int64 :=
  (checkedMul n (Int64.ofNat base)).bind (checkedAdd · (Int64.ofNat (digitValue c)))

/-- The number that digits stand for, read in 64 bits; the first step that overflows ends the reading. -/
def value64? (base : Nat) (s : Text) : Option Int64 := s.foldlM (pushDigit? base) 0

def numeral? (base : Nat) (s : Text) : Option Nat := if isNumeral base s then some (value base s) else none

end R64.Literal
