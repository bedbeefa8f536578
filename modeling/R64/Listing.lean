import R64.Assembly.Run
import R64.Machine.Disassembly
import R64.Text.Blank
/-!
The listing: every emitted word with its address, next to the source line that it comes from, and then the symbols.
-/
namespace R64.Listing

def margin : Nat := 19

def rule (n : Nat) : Text := List.replicate n '-'

def separator : Text := rule margin ++ "+" ++ rule 53

/-- The line above the words of a file; longer names leave fewer dashes. -/
def fileHeader (file : Text) : Text := rule margin ++ "+------[" ++ file ++ "]" ++ rule (45 - file.byteLength)

/-- The four bytes of a word, the highest first. -/
def bytes (w : Word) : Text :=
  List.intercalate " " ([0x1000000, 0x10000, 0x100, 1].map fun weight => Text.hexUpper 2 (w.toNat / weight % 256))

/-- What is shown beside the first word of a segment: an instruction, with the word after it in the image as its
immediate, and its source, or the source alone. -/
def body (image : Array Word) (s : Segment) (w : Word) : Text :=
  let source := Text.trim s.line.text
  if s.isInstruction then (Fields.unpack w).render image[s.start + 1]? ++ "  <- " ++ source
  else Terminal.coloured .cyan source

def wordLine (address w : Word) (number body : Text) : Text :=
  "[" ++ Text.hexUpper 4 address.toNat ++ "] " ++ bytes w ++ " | " ++ Text.padLeft 4 number ++ ": " ++ body

def segmentWords (image : Array Word) (s : Segment) : List Word := (image.extract s.start s.stop).toList

/-- The lines for the words of a segment. Number and source stand beside the first word only. -/
def segmentLines (image : Array Word) (s : Segment) : List Text :=
  (segmentWords image s).zipIdx.map fun (w, k) =>
    wordLine (s.address + UInt32.ofNat k) w (if k = 0 then Text.decimal s.line.number else [])
      (if k = 0 then body image s w else [])

/-- The lines for segments after one from the file `previous`; a header stands where the file changes. -/
def segmentsLines (image : Array Word) : Option Text → List Segment → List Text
  | _, [] => []
  | previous, s :: rest =>
    (if previous = some s.line.file then [] else [fileHeader s.line.file]) ++
      segmentLines image s ++ segmentsLines image (some s.line.file) rest

def symbolLine (symbol : Text × Word) : Text :=
  Text.padLeft margin [] ++ "| " ++ Terminal.coloured .green (symbol.1 ++ ":") ++ " 0x" ++
    Text.hexUpper 4 symbol.2.toNat

/-- The listing of a run; a failed run has none. -/
def lines (r : Report) : List Text :=
  match r.image with
  | none => []
  | some image =>
    segmentsLines image none r.segments.toList ++
      (if r.symbols.isEmpty then [] else separator :: r.symbols.toList.map symbolLine) ++ [separator]

end R64.Listing
