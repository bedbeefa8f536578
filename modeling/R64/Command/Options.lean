import R64.Assembly.Run
import R64.Object.Image
/-!
The command line. Arguments are taken from the left, and the first that asks for information or breaks a rule ends the
reading. Options may stand before, between and behind the one or two paths; after a double dash there are paths only.
-/
namespace R64

/-- What the command line asks for. -/
structure Options where
  source : Text
  dest : Option Text
  format : Format
  dump : Bool
  memorySize : Nat
  deriving DecidableEq

namespace Options

/-- Why no run takes place: help or the version is asked for, or the arguments break a rule. -/
inductive Halt where
  | information
  | usage
  deriving DecidableEq

def Halt.exit : Halt → Nat
  | .information => 0
  | .usage => 2

/-- What the arguments read so far have given. -/
structure Draft where
  paths : List Text
  format : Option Format
  dump : Bool
  memorySize : Option Nat
  deriving DecidableEq

def formatOfName? (s : Text) : Option Format :=
  if s = "raw" then some .raw else if s = "mif" then some .mif else if s = "coe" then some .coe else none

/-- A memory size: an optional plus sign and decimal digits, from one word up to the limit. -/
def memorySize? (s : Text) : Option Nat :=
  (Literal.numeral? 10 ((Text.dropLead? '+' s).getD s)).filter fun n =>
    decide (1 ≤ n ∧ n ≤ Assembly.memoryLimit)

/-- Arguments that are options. A dash alone is a path. -/
def looksLikeOption (s : Text) : Bool := s.head? == some '-' && s != "-"

namespace Draft

def empty : Draft := ⟨[], none, false, none⟩

/-- There is room for a source and a destination. -/
def path (d : Draft) (s : Text) : Except Halt Draft :=
  if d.paths.length < 2 then .ok { d with paths := d.paths ++ [s] } else .error .usage

def setFormat (d : Draft) (value : Text) : Except Halt Draft :=
  match d.format, formatOfName? value with
  | none, some f => .ok { d with format := some f }
  | _, _ => .error .usage

def setMemorySize (d : Draft) (value : Text) : Except Halt Draft :=
  match d.memorySize, memorySize? value with
  | none, some n => .ok { d with memorySize := some n }
  | _, _ => .error .usage

def setDump (d : Draft) : Except Halt Draft :=
  if d.dump then .error .usage else .ok { d with dump := true }

end Draft

/-- Options that take a value. -/
inductive Valued where
  | format | memorySize
  deriving DecidableEq

def Valued.set : Valued → Draft → Text → Except Halt Draft
  | .format, d, value => d.setFormat value
  | .memorySize, d, value => d.setMemorySize value

/-- What an option leaves to be done: nothing, or to take the next argument as its value. -/
structure Progress where
  draft : Draft
  awaits : Option Valued
  deriving DecidableEq

/-- Short options after one dash. What follows the letter of the format, with or without an equals sign, is its value.
-/
def short : Draft → Text → Except Halt Progress
  | d, [] => .ok ⟨d, none⟩
  | d, c :: rest =>
    if c = 'd' then d.setDump.bind fun d => short d rest
    else if c = 'h' ∨ c = 'V' then .error .information
    else if c = 'f' then
      if rest = [] then .ok ⟨d, some .format⟩
      else (d.setFormat ((Text.dropLead? '=' rest).getD rest)).map fun d => ⟨d, none⟩
    else .error .usage

/-- A long option after two dashes, with its value if an equals sign joins one to it. Names are not abbreviated. -/
def long (d : Draft) (body : Text) : Except Halt Progress :=
  let name := body.takeWhile (· != '=')
  let value := (body.dropWhile (· != '=')).tail?
  let valued : Option Valued :=
    if name = "format" then some .format else if name = "memory-size" then some .memorySize else none
  match valued, value with
  | some v, some s => (v.set d s).map fun d => ⟨d, none⟩
  | some v, none => .ok ⟨d, some v⟩
  | none, some _ => .error .usage
  | none, none =>
    if name = "dump" then d.setDump.map fun d => ⟨d, none⟩
    else if name = "help" ∨ name = "version" then .error .information
    else .error .usage

def option (d : Draft) (s : Text) : Except Halt Progress :=
  match s with
  | '-' :: '-' :: body => long d body
  | _ :: body => short d body
  | [] => .error .usage

/-- Read arguments on from a draft. A value that stands in an argument of its own may not look like an option. -/
def read : Progress → List Text → Except Halt Draft
  | ⟨d, none⟩, [] => .ok d
  | ⟨_, some _⟩, [] => .error .usage
  | ⟨d, some v⟩, s :: rest =>
    if looksLikeOption s then .error .usage
    else (v.set d s).bind fun d => read ⟨d, none⟩ rest
  | ⟨d, none⟩, s :: rest =>
    if s = "--" then rest.foldlM Draft.path d
    else if looksLikeOption s then (option d s).bind fun p => read p rest
    else (d.path s).bind fun d => read ⟨d, none⟩ rest

/-- The formats have short names with a single dash; they stand for the long option wherever they occur. -/
def normalise (s : Text) : Text :=
  if s = "-raw" ∨ s = "-mif" ∨ s = "-coe" then "--format=" ++ s.tail else s

def parse (args : List Text) : Except Halt Options :=
  (read ⟨.empty, none⟩ (args.map normalise)).bind fun d =>
    match d.paths with
    | [] => .error .usage
    | source :: rest => .ok {
        source
        dest := rest.head?
        format := d.format.getD .raw
        dump := d.dump
        memorySize := d.memorySize.getD Assembly.defaultMemorySize }

end Options

end R64
