import R64.Literal.Decimal
import R64.Literal.Error
import R64.Machine.Operation
import R64.Machine.Register
import R64.Machine.Word
import R64.Text.Quote
/-!
The literals of assembly text. Every reading is a function of the whole text; it gives a value or the reason why there
is none.
-/
namespace R64.Literal

inductive Radix where
  | decimal | hexadecimal | binary
  deriving DecidableEq

namespace Radix

def all : List Radix := [.decimal, .hexadecimal, .binary]

def base : Radix → Nat
  | .decimal => 10
  | .hexadecimal => 16
  | .binary => 2

def marker : Radix → Text
  | .decimal => ""
  | .hexadecimal => "0x"
  | .binary => "0b"

def digits? (r : Radix) (s : Text) : Option Text :=
  let body := (splitSign s).2
  let digits := body.drop r.marker.length
  if r.marker.isPrefixOf body && isNumeral r.base digits then some digits else none

end Radix

def isInteger (s : Text) : Bool := Radix.all.any fun r => (r.digits? s).isSome

/-- The word for the digits of the literal `s`: they are read in 64 bits, take the sign of the literal and are cut down
to 32 bits, if the number has a signed or an unsigned representation there. -/
def inRadix (s digits : Text) (base : Nat) : Except LiteralError Word :=
  match value64? base digits with
  | none => .error (.outOfRange s)
  | some magnitude =>
    let value := if (splitSign s).1 then -magnitude else magnitude
    if value < -0x80000000 ∨ 0xffffffff < value then .error (.outOfRange s)
    else .ok value.toUInt64.toUInt32

/-- A character in single quotes, or an escape in single quotes: its code point. -/
def character (s : Text) : Except LiteralError Word :=
  let read : Option Char := (Text.between? '\'' '\'' s).bind fun body =>
    match body with
    | [c] => if c = '\\' then none else some c
    | [c, e] => if c = '\\' then Text.unescape e else none
    | _ => none
  match read with
  | some c => .ok c.val
  | none => .error (.character s)

/-- An integer literal, or else a character. -/
def integer (s : Text) : Except LiteralError Word :=
  match Radix.all.findSome? fun r => (r.digits? s).map fun digits => inRadix s digits r.base with
  | some result => result
  | none =>
    match character s with
    | .ok w => .ok w
    | .error _ => .error (.integer s)

/-- Whether there is a digit other than zero before the exponent. -/
def hasNonzeroMantissa (s : Text) : Bool :=
  (s.takeWhile fun c => c ≠ 'e' ∧ c ≠ 'E').any fun c => '1' ≤ c ∧ c ≤ '9'

/-- The pattern of a single-precision number. An integer literal is no floating-point number. An infinity that is not
written as one, or a zero that is written with another digit, is out of range. -/
def single (s : Text) : Except LiteralError Word :=
  if s = [] ∨ isInteger s then .error (.single s)
  else match FloatText.read? s with
    | none => .error (.single s)
    | some value =>
      if Single.isInfinite value ∧ ¬ Text.occurs "inf" s.lower then .error (.outOfRange s)
      else if Single.isZero value ∧ hasNonzeroMantissa s then .error (.outOfRange s)
      else .ok value

/-- The code points of a string in double quotes, closed by a zero unless the last of them is zero already. -/
def string (s : Text) : Except LiteralError (List Word) :=
  match (Text.between? '"' '"' s).bind Text.decodeEscapes with
  | none => .error (.string s)
  | some body =>
    let words := body.map Char.val
    .ok (if words.getLast? = some 0 then words else words ++ [0])

/-- One word: an integer, a character or a floating-point number. -/
def word (s : Text) : Except LiteralError Word :=
  match integer s with
  | .ok w => .ok w
  | .error (.outOfRange t) => .error (.outOfRange t)
  | .error _ =>
    match single s with
    | .ok w => .ok w
    | .error (.outOfRange t) => .error (.outOfRange t)
    | .error _ => .error (.word s)

/-- An item of data: one word, or the words of a string. -/
def data (s : Text) : Except LiteralError (List Word) :=
  match word s with
  | .ok w => .ok [w]
  | .error _ =>
    match string s with
    | .ok ws => .ok ws
    | .error _ => .error (.data s)

/-- The digits after the letter of a numbered register. -/
def registerNumber? : Text → Option Nat
  | [] => none
  | c :: s => if c = 'r' ∨ c = 'R' then numeral? 10 s else none

def register (s : Text) : Except LiteralError Register :=
  match registerNumber? s with
  | some n => if h : n < 64 then .ok ⟨n, h⟩ else .error (.register s)
  | none =>
    match Register.ofName? s with
    | some r => .ok r
    | none => .error (.register s)

def isRegister (s : Text) : Bool :=
  match register s with
  | .ok _ => true
  | .error _ => false

/-- A rounding mode by name, or by its number from zero to four. -/
def roundingMode (s : Text) : Except LiteralError RoundingMode :=
  match RoundingMode.parse? s with
  | some mode => .ok mode
  | none =>
    match integer s with
    | .ok w =>
      match (Coded.all : List RoundingMode)[w.toNat]? with
      | some mode => .ok mode
      | none => .error (.roundingMode s)
    | .error _ => .error (.roundingMode s)

end R64.Literal
