import R64.Text
/-!
Why a literal cannot be read.
-/
namespace R64

/-- What the text cannot be read as, or that its value has no place in a word. Each cause carries the text as it was
written. -/
inductive LiteralError where
  | integer (s : Text)
  | outOfRange (s : Text)
  | single (s : Text)
  | character (s : Text)
  | string (s : Text)
  | word (s : Text)
  | data (s : Text)
  | register (s : Text)
  | roundingMode (s : Text)
  deriving DecidableEq

def LiteralError.message : LiteralError → Text
  | .integer s => "Cannot convert `" ++ s ++ "` to int"
  | .outOfRange s => "`" ++ s ++ "` cannot be represented with 32 bit"
  | .single s => "Cannot convert `" ++ s ++ "` to float"
  | .character s => "Cannot convert `" ++ s ++ "` to char"
  | .string s => "Cannot convert `" ++ s ++ "` to char array"
  | .word s => "Cannot convert `" ++ s ++ "` to 32 bit word"
  | .data s => "Cannot convert `" ++ s ++ "` to word array"
  | .register s => "Unknown register `" ++ s ++ "`"
  | .roundingMode s => "Unknown rounding mode `" ++ s ++ "`"

end R64
