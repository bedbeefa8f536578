import R64.Machine.Word
import R64.Source.FileSystem
import R64.Text.Quote
import R64.Text.Utf8
import R64.Fault
/-!
Memory images as files. The raw format holds the bytes of each word, the lowest first. The other two are text: one
line for each word with its address, or one line for each word with a separator.
-/
namespace R64

inductive Format where
  | raw | mif | coe
  deriving DecidableEq

namespace Format

def extension : Format → Text
  | .raw => ".hex"
  | .mif => ".mif"
  | .coe => ".coe"

/-- The four bytes of a word, the lowest first. -/
def littleEndian (w : Word) : List UInt8 :=
  [1, 0x100, 0x10000, 0x1000000].map fun weight => UInt8.ofNat (w.toNat / weight % 256)

def wordDigits (w : Word) : Text := Text.hex 8 w.toNat

/-- Number of bits in the binary numeral of `n`; zero has none. -/
def bitLength (n : Nat) : Nat := if n = 0 then 0 else n.log2 + 1

/-- Number of hexadecimal digits for the addresses of `depth` words. -/
def addressWidth (depth : Nat) : Nat := (bitLength (depth - 1) + 3) / 4

def lineOf (s : Text) : Text := s ++ "\n"

def mifLine (width : Nat) (address : Nat) (w : Word) : Text :=
  lineOf (Text.hex width address ++ " : " ++ wordDigits w ++ ";")

/-- Depth and width, then an address and a value for each word. -/
def mifText (words : List Word) : Text :=
  let width := addressWidth words.length
  lineOf ("DEPTH = " ++ Text.decimal words.length ++ ";") ++ lineOf "WIDTH = 32;" ++ lineOf "ADDRESS_RADIX = HEX;" ++
    lineOf "DATA_RADIX = HEX;" ++ lineOf "CONTENT" ++ lineOf "BEGIN" ++ lineOf "" ++
    (words.zipIdx.flatMap fun (w, address) => mifLine width address w) ++
    lineOf "" ++ lineOf "END;"

def coeLine (mark : Text) (w : Word) : Text := lineOf (wordDigits w ++ mark)

/-- A vector of values with a comma after each but the last, which has a semicolon. -/
def coeText (words : List Word) : Text :=
  lineOf "memory_initialization_radix=16;" ++ lineOf "memory_initialization_vector=" ++
    words.dropLast.flatMap (coeLine ",") ++ words.getLast?.toList.flatMap (coeLine ";")

def encode (f : Format) (words : List Word) : List UInt8 :=
  match f with
  | .raw => words.flatMap littleEndian
  | .mif => Text.toBytes (mifText words)
  | .coe => Text.toBytes (coeText words)

/-- The path of the image file: quotes are left out, and the extension of the format is added if it is not there. -/
def destination (f : Format) (dest : Text) : Text :=
  let path := Text.unquote dest
  if f.extension.isSuffixOf path then path else path ++ f.extension

/-- Write an image file, where `write` writes a whole file or tells why it cannot. The path that is written to is
returned. -/
def saveM {m : Type → Type} [Monad m] (write : Text → List UInt8 → m (Option Fault)) (f : Format) (words : List Word)
    (dest : Text) : m (Except Fault Text) := do
  let path := f.destination dest
  match ← write path (f.encode words) with
  | none => return .ok path
  | some fault => return .error fault

end Format

end R64
