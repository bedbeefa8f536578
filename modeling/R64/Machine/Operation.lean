import R64.Text
/-!
Operation codes and, for the five operations that have them, function codes. Each set lists its members with their
codes and names; looking up a code or a name is a search through the list.
-/
namespace R64

/-- A finite set whose members have a code and a name in lower case. -/
class Coded (α : Type) where
  all : List α
  code : α → UInt8
  name : α → Text

namespace Coded

variable {α : Type} [Coded α]

def ofCode? (n : UInt8) : Option α := (all : List α).find? fun a => code a == n

def ofName? (s : Text) : Option α := (all : List α).find? fun a => name a == s

end Coded

inductive Opcode where
  | nop | inr | mov | stm | ldm | push | pop | alu | mul | div | fpu | jmp | ien | idi | wait | reti | call | ret
  deriving DecidableEq

instance : Coded Opcode where
  all := [.nop, .inr, .mov, .stm, .ldm, .push, .pop, .alu, .mul, .div, .fpu, .jmp, .ien, .idi, .wait, .reti, .call,
    .ret]
  code
    | .nop => 0 | .inr => 1 | .mov => 2 | .stm => 3 | .ldm => 4 | .push => 5 | .pop => 6 | .alu => 7 | .mul => 8
    | .div => 9 | .fpu => 10 | .jmp => 11 | .ien => 12 | .idi => 13 | .wait => 14 | .reti => 15 | .call => 16
    | .ret => 17
  name
    | .nop => "nop" | .inr => "inr" | .mov => "mov" | .stm => "stm" | .ldm => "ldm" | .push => "push"
    | .pop => "pop" | .alu => "alu" | .mul => "mul" | .div => "div" | .fpu => "fpu" | .jmp => "jmp"
    | .ien => "ien" | .idi => "idi" | .wait => "wait" | .reti => "reti" | .call => "call" | .ret => "ret"

inductive AluFunction where
  | add | adc | sub | sbc | inc | dec | neg | and | or | xor | not | lsl | lsr | asr | ror | rrx
  deriving DecidableEq

instance : Coded AluFunction where
  all := [.add, .adc, .sub, .sbc, .inc, .dec, .neg, .and, .or, .xor, .not, .lsl, .lsr, .asr, .ror, .rrx]
  code
    | .add => 0 | .adc => 1 | .sub => 2 | .sbc => 3 | .inc => 4 | .dec => 5 | .neg => 6 | .and => 7 | .or => 8
    | .xor => 9 | .not => 10 | .lsl => 11 | .lsr => 12 | .asr => 13 | .ror => 14 | .rrx => 15
  name
    | .add => "add" | .adc => "adc" | .sub => "sub" | .sbc => "sbc" | .inc => "inc" | .dec => "dec"
    | .neg => "neg" | .and => "and" | .or => "or" | .xor => "xor" | .not => "not" | .lsl => "lsl"
    | .lsr => "lsr" | .asr => "asr" | .ror => "ror" | .rrx => "rrx"

inductive MulFunction where
  | umull | umulh | smull | smulh
  deriving DecidableEq

instance : Coded MulFunction where
  all := [.umull, .umulh, .smull, .smulh]
  code | .umull => 0 | .umulh => 1 | .smull => 2 | .smulh => 3
  name | .umull => "umull" | .umulh => "umulh" | .smull => "smull" | .smulh => "smulh"

inductive DivFunction where
  | udiv | sdiv | umod | smod
  deriving DecidableEq

instance : Coded DivFunction where
  all := [.udiv, .sdiv, .umod, .smod]
  code | .udiv => 0 | .sdiv => 1 | .umod => 2 | .smod => 3
  name | .udiv => "udiv" | .sdiv => "sdiv" | .umod => "umod" | .smod => "smod"

inductive FpuFunction where
  | add | sub | mul | div | sqrt | neg | abs | cvtfi | cvtfu | cvtif | cvtuf | cmp
  deriving DecidableEq

instance : Coded FpuFunction where
  all := [.add, .sub, .mul, .div, .sqrt, .neg, .abs, .cvtfi, .cvtfu, .cvtif, .cvtuf, .cmp]
  code
    | .add => 0 | .sub => 1 | .mul => 2 | .div => 3 | .sqrt => 4 | .neg => 5 | .abs => 6 | .cvtfi => 7
    | .cvtfu => 8 | .cvtif => 9 | .cvtuf => 10 | .cmp => 11
  name
    | .add => "add" | .sub => "sub" | .mul => "mul" | .div => "div" | .sqrt => "sqrt" | .neg => "neg"
    | .abs => "abs" | .cvtfi => "cvtfi" | .cvtfu => "cvtfu" | .cvtif => "cvtif" | .cvtuf => "cvtuf"
    | .cmp => "cmp"

inductive JumpFunction where
  | jeq | jne | jhi | jsh | jsl | jlo | jgt | jge | jle | jlt | jmi | jpl | jvs | jvc | jal
  deriving DecidableEq

instance : Coded JumpFunction where
  all := [.jeq, .jne, .jhi, .jsh, .jsl, .jlo, .jgt, .jge, .jle, .jlt, .jmi, .jpl, .jvs, .jvc, .jal]
  code
    | .jeq => 1 | .jne => 2 | .jhi => 3 | .jsh => 4 | .jsl => 5 | .jlo => 6 | .jgt => 7 | .jge => 8 | .jle => 9
    | .jlt => 10 | .jmi => 11 | .jpl => 12 | .jvs => 13 | .jvc => 14 | .jal => 15
  name
    | .jeq => "jeq" | .jne => "jne" | .jhi => "jhi" | .jsh => "jsh" | .jsl => "jsl" | .jlo => "jlo"
    | .jgt => "jgt" | .jge => "jge" | .jle => "jle" | .jlt => "jlt" | .jmi => "jmi" | .jpl => "jpl"
    | .jvs => "jvs" | .jvc => "jvc" | .jal => "jal"

/-- Rounding modes of the floating-point unit; they occupy the high half of the function byte. -/
inductive RoundingMode where
  | rne | rmm | rtz | rdn | rup
  deriving DecidableEq

instance : Coded RoundingMode where
  all := [.rne, .rmm, .rtz, .rdn, .rup]
  code | .rne => 0x00 | .rmm => 0x10 | .rtz => 0x20 | .rdn => 0x30 | .rup => 0x40
  name | .rne => "rne" | .rmm => "rmm" | .rtz => "rtz" | .rdn => "rdn" | .rup => "rup"

namespace RoundingMode

/-- The mode with the given name, written all in lower or all in upper case. -/
def parse? (s : Text) : Option RoundingMode := s.foldCase.bind Coded.ofName?

def operationPart (func : UInt8) : UInt8 := func &&& 0x0F

def modePart (func : UInt8) : UInt8 := func &&& 0xF0

/-- The function byte with its high half replaced by a mode's code. -/
def apply (func mode : UInt8) : UInt8 := operationPart func ||| mode

end RoundingMode

/-- How a floating-point operation is written in assembly: the conversions keep their names, the others get an `f`. -/
def FpuFunction.mnemonic : FpuFunction → Text
  | .cvtfi => "cvtfi"
  | .cvtfu => "cvtfu"
  | .cvtif => "cvtif"
  | .cvtuf => "cvtuf"
  | f => "f" ++ Coded.name f

/-- How a jump is written in assembly: the unconditional one is `jmp`. -/
def JumpFunction.mnemonic : JumpFunction → Text
  | .jal => "jmp"
  | f => Coded.name f

end R64
