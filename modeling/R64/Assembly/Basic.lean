import R64.Instruction.Operand
import R64.Object.CodeBuffer
import R64.Source.Macros
import R64.Source.Token
import R64.Statement
/-!
An assembly in progress, and what one source line does to it. A line first defines its labels, then its statement is
carried out. A file that the line includes is not opened here: its path is handed to the caller.
-/
namespace R64

/-- The words that one line has emitted, by position. -/
structure Segment where
  address : Word
  start : Nat
  stop : Nat
  isInstruction : Bool
  line : Line
  deriving DecidableEq

structure Assembly where
  code : CodeBuffer
  macros : Macros
  /-- address of the first word -/
  origin : Word
  diagnostics : Array Diagnostic
  segments : Array Segment
  deriving DecidableEq

namespace Assembly

def empty : Assembly := ⟨.empty, .empty, 0, #[], #[]⟩

def report (a : Assembly) (ds : List Diagnostic) : Assembly := { a with diagnostics := a.diagnostics ++ ds }

def reject (a : Assembly) (line : Line) (faults : List Fault) : Assembly :=
  a.report (faults.map fun f => .error f (some line))

/-- Define a label at the present address. A label that is defined already keeps its address; the repetition is warned
about, with a note on the first definition. -/
def label (line : Line) (a : Assembly) (name : Text) : Assembly :=
  match a.code.define name a.origin line with
  | (code, none) => { a with code }
  | (_, some earlier) =>
    a.report [⟨.warn, .redefinedLabel name, some line⟩, ⟨.note, .definedHere, some earlier.line⟩]

def emit (a : Assembly) (line : Line) (i : Instruction) : Assembly :=
  let code := a.code.push i.fields.pack
  match i.trailer with
  | .none => { a with code }
  | .word w => { a with code := code.push w }
  | .label name => { a with code := code.refer name line }

/-- Record the words from `start` on as those of a line, if there are any. -/
def segment (a : Assembly) (line : Line) (isInstruction : Bool) (start : Nat) : Assembly :=
  if start < a.code.size then
    let s : Segment := { address := a.origin + UInt32.ofNat start, start, stop := a.code.size, isInstruction, line }
    { a with segments := a.segments.push s }
  else a

/-- Continue at an address. Before the first word this sets the origin; later it fills with zeros, which may neither go
back nor leave the memory. -/
def moveTo (memorySize : Nat) (a : Assembly) (line : Line) (address : Word) : Assembly :=
  if a.code.isEmpty then { a with origin := address }
  else
    let overwritten := Fault.addressOverflow address (a.origin + UInt32.ofNat a.code.size)
    let length := (address - a.origin).toNat
    if address < a.origin then a.reject line [overwritten]
    else if memorySize < length then a.reject line [.memoryOverflow (length - memorySize)]
    else match a.code.fillTo? length with
      | some code => { a with code }
      | none => a.reject line [overwritten]

/-- Carry out the directive for an address. It takes an offset without a base; an offset that cannot be read is reported
and counts as zero. -/
def org (memorySize : Nat) (a : Assembly) (line : Line) (name operand : Text) : Assembly :=
  match Address.parse? operand with
  | none => a.reject line [.invalidAddress operand]
  | some ⟨none, some offset⟩ =>
    let read := Reading.accept 0 (Literal.integer offset)
    (a.reject line read.faults).moveTo memorySize line read.value
  | some _ => a.reject line [.directAddressing name]

/-- Append the words of one data item. An item that cannot be read is reported and gives no words. -/
def item (line : Line) (a : Assembly) (operand : Text) : Assembly :=
  let read := Reading.accept [] (Literal.data operand)
  let a := a.reject line read.faults
  { a with code := a.code.append read.value }

/-- Carry out a directive. The path of a file to be included is returned. -/
def direct (memorySize : Nat) (a : Assembly) (line : Line) (d : Directive) (name : Text) (operands : List Text) :
    Assembly × Option Text :=
  match d, operands with
  | .inc, [path] => (a, some path)
  | .org, [operand] => (a.org memorySize line name operand, none)
  | .macroDef, [macroName, replacement] => ({ a with macros := a.macros.define macroName replacement }, none)
  | .dw, operand :: operands =>
    let start := a.code.size
    (((operand :: operands).foldl (item line) a).segment line false start, none)
  | _, _ => (a.reject line [.directiveArity name], none)

def instruct (a : Assembly) (line : Line) (d : Declaration) (name : Text) (operands : List Text) : Assembly :=
  let read := d.read name operands
  let start := a.code.size
  let reported := a.reject line read.faults
  match read.value with
  | some i => (reported.emit line i).segment line true start
  | none => reported

def execute (memorySize : Nat) (a : Assembly) (line : Line) : Statement → Assembly × Option Text
  | .blank => (a, none)
  | .unknown name => (a.reject line [.unknownOperation name], none)
  | .directive d name operands => a.direct memorySize line d name operands
  | .instruction d name operands => (a.instruct line d name operands, none)

def processTokens (memorySize : Nat) (a : Assembly) (line : Line) (tokens : List Text) : Assembly × Option Text :=
  let (labels, rest) := Statement.splitLabels tokens
  (labels.foldl (label line) a).execute memorySize line (Statement.ofTokens rest)

/-- Process a line: expand macros, cut it into tokens, carry it out. -/
def process (memorySize : Nat) (a : Assembly) (line : Line) : Assembly × Option Text :=
  a.processTokens memorySize line (Token.tokenize (a.macros.expand line.text))

end Assembly

end R64
