import R64.Diagnostic
/-!
Object code under construction. A label that is used gets a zero word in its place and is recorded; linking writes the
addresses of the definitions over these places.
-/
namespace R64

/-- A use of a label: the word at `position` is to hold its address. -/
structure Reference where
  label : Text
  position : Nat
  line : Line
  deriving DecidableEq

/-- The address of a label and the line that defines it. -/
structure Definition where
  address : Word
  line : Line
  deriving DecidableEq

/-- Words, uses of labels in order of emission, and defined labels in order of definition. -/
structure CodeBuffer where
  words : Array Word
  references : Array Reference
  definitions : Array (Text × Definition)
  deriving DecidableEq

namespace CodeBuffer

def empty : CodeBuffer := ⟨#[], #[], #[]⟩

def size (b : CodeBuffer) : Nat := b.words.size

def isEmpty (b : CodeBuffer) : Bool := b.words.isEmpty

def push (b : CodeBuffer) (w : Word) : CodeBuffer := { b with words := b.words.push w }

def append (b : CodeBuffer) (ws : List Word) : CodeBuffer := { b with words := b.words ++ ws }

/-- Fill with zeros up to a length. A length below the present one is refused. -/
def fillTo? (b : CodeBuffer) (length : Nat) : Option CodeBuffer :=
  if length < b.size then none
  else some { b with words := b.words ++ Array.replicate (length - b.size) 0 }

/-- Emit a zero in the place of the address of `label`. -/
def refer (b : CodeBuffer) (label : Text) (line : Line) : CodeBuffer :=
  { b with words := b.words.push 0, references := b.references.push ⟨label, b.size, line⟩ }

def definition? (b : CodeBuffer) (label : Text) : Option Definition :=
  (b.definitions.find? fun d => d.1 == label).map (·.2)

/-- The address of the next word when the first word stands at `origin`; addresses wrap at 32 bits. -/
def nextAddress (b : CodeBuffer) (origin : Word) : Word := UInt32.ofNat b.size + origin

/-- Bind `label` to the address of the next word. A label that is bound already keeps its definition, which is
returned. -/
def define (b : CodeBuffer) (label : Text) (origin : Word) (line : Line) : CodeBuffer × Option Definition :=
  match b.definition? label with
  | some earlier => (b, some earlier)
  | none => ({ b with definitions := b.definitions.push (label, ⟨b.nextAddress origin, line⟩) }, none)

def symbols (b : CodeBuffer) : Array (Text × Word) := b.definitions.map fun d => (d.1, d.2.address)

/-- Write the address of a used label, if it is defined, over its place. -/
def patch (b : CodeBuffer) (words : Array Word) (r : Reference) : Array Word :=
  match b.definition? r.label with
  | some d => words.setIfInBounds r.position d.address
  | none => words

def unresolved (b : CodeBuffer) : List Diagnostic :=
  (b.references.toList.filter fun r => (b.definition? r.label).isNone).map fun r =>
    .error (.unresolvedSymbol r.label) (some r.line)

/-- Write the addresses of all defined labels into the places where they are used. -/
def link (b : CodeBuffer) : CodeBuffer := { b with words := b.references.foldl b.patch b.words }

/-- The memory image: the words, filled with zeros up to the memory size. Code beyond the memory size is a fault. -/
def image (b : CodeBuffer) (memorySize : Nat) : Except Fault (Array Word) :=
  if memorySize < b.size then .error (.memoryOverflow (b.size - memorySize))
  else .ok (b.words ++ Array.replicate (memorySize - b.size) 0)

end CodeBuffer

end R64
