import R64.Text
/-!
UTF-8 in both directions. Reading accepts every byte sequence: where it is not well formed, each longest initial part
of a sequence that could have been completed, or else a single byte, is read as U+FFFD.
-/
namespace R64.Text

/-- What a byte can begin: a character of its own, or a sequence of two to four bytes. For a longer sequence `lo` and
`hi` bound the second byte, and `bits` are the bits that the first byte contributes. -/
inductive Lead where
  | single
  | double (bits : Nat)
  | triple (bits lo hi : Nat)
  | quadruple (bits lo hi : Nat)
  | stray

/-- Overlong forms, surrogates and values above U+10FFFF are excluded through the range of the second byte. -/
def Lead.ofByte (b : Nat) : Lead :=
  if b < 0x80 then .single
  else if b < 0xC2 then .stray
  else if b < 0xE0 then .double (b - 0xC0)
  else if b = 0xE0 then .triple 0 0xA0 0xBF
  else if b = 0xED then .triple 0xD 0x80 0x9F
  else if b < 0xF0 then .triple (b - 0xE0) 0x80 0xBF
  else if b = 0xF0 then .quadruple 0 0x90 0xBF
  else if b < 0xF4 then .quadruple (b - 0xF0) 0x80 0xBF
  else if b = 0xF4 then .quadruple 4 0x80 0x8F
  else .stray

def isContinuation (b : Nat) : Bool := decide (0x80 ≤ b ∧ b ≤ 0xBF)

def replacement : Char := '�'

/-- Read bytes as UTF-8, with U+FFFD for what is not well formed. -/
def ofBytes : List UInt8 → Text
  | [] => []
  | b :: r =>
    match Lead.ofByte b.toNat with
    | .single => Char.ofNat b.toNat :: ofBytes r
    | .stray => replacement :: ofBytes r
    | .double bits =>
      match r with
      | [] => [replacement]
      | b₁ :: r₁ =>
        if isContinuation b₁.toNat then Char.ofNat (bits * 64 + b₁.toNat % 64) :: ofBytes r₁
        else replacement :: ofBytes (b₁ :: r₁)
    | .triple bits lo hi =>
      match r with
      | [] => [replacement]
      | b₁ :: r₁ =>
        if lo ≤ b₁.toNat ∧ b₁.toNat ≤ hi then
          match r₁ with
          | [] => [replacement]
          | b₂ :: r₂ =>
            if isContinuation b₂.toNat then
              Char.ofNat ((bits * 64 + b₁.toNat % 64) * 64 + b₂.toNat % 64) :: ofBytes r₂
            else replacement :: ofBytes (b₂ :: r₂)
        else replacement :: ofBytes (b₁ :: r₁)
    | .quadruple bits lo hi =>
      match r with
      | [] => [replacement]
      | b₁ :: r₁ =>
        if lo ≤ b₁.toNat ∧ b₁.toNat ≤ hi then
          match r₁ with
          | [] => [replacement]
          | b₂ :: r₂ =>
            if isContinuation b₂.toNat then
              match r₂ with
              | [] => [replacement]
              | b₃ :: r₃ =>
                if isContinuation b₃.toNat then
                  Char.ofNat (((bits * 64 + b₁.toNat % 64) * 64 + b₂.toNat % 64) * 64 + b₃.toNat % 64) :: ofBytes r₃
                else replacement :: ofBytes (b₃ :: r₃)
            else replacement :: ofBytes (b₂ :: r₂)
        else replacement :: ofBytes (b₁ :: r₁)

def toBytes (s : Text) : List UInt8 := s.flatMap String.utf8EncodeChar

end R64.Text
