import R64.Machine.Operation
import R64.Machine.Register
import R64.Machine.Word
import R64.Text.Terminal
/-!
Machine words as text.
-/
namespace R64

/-- The mnemonic of an operation with a function code; none when the operation has no such function. -/
def Opcode.mnemonic? (op : Opcode) (func : UInt8) : Option Text :=
  match op with
  | .alu => (Coded.ofCode? func : Option AluFunction).map Coded.name
  | .mul => (Coded.ofCode? func : Option MulFunction).map Coded.name
  | .div => (Coded.ofCode? func : Option DivFunction).map Coded.name
  | .fpu => (Coded.ofCode? (RoundingMode.operationPart func) : Option FpuFunction).map FpuFunction.mnemonic
  | .jmp => (Coded.ofCode? func : Option JumpFunction).map JumpFunction.mnemonic
  | op => some (Coded.name op)

namespace Fields

/-- The mnemonic of an instruction word. An unknown function is shown by its number after the operation's name, an
unknown operation by its number alone. -/
def mnemonic (f : Fields) : Text :=
  match (Coded.ofCode? f.opcode : Option Opcode) with
  | none => "op" ++ Text.decimal f.opcode.toNat
  | some op => (op.mnemonic? f.func).getD (Coded.name op ++ "." ++ Text.decimal f.func.toNat)

/-- The name of the rounding mode of a floating-point instruction, empty for every other word. -/
def roundingName (f : Fields) : Text :=
  if f.opcode == Coded.code Opcode.fpu then
    ((Coded.ofCode? (RoundingMode.modePart f.func) : Option RoundingMode).map Coded.name).getD []
  else []

/-- The immediate of an instruction, with question marks when the flag is set and the word after it is not known. -/
def immediateText (f : Fields) (imm : Option Word) : Text :=
  if f.imm then
    match imm with
    | some w => Terminal.coloured .yellow ("0x" ++ Text.hexUpper 8 w.toNat)
    | none => Terminal.coloured .red "????????"
  else []

/-- One line for an instruction: mnemonic, first source, second source, destination, rounding mode, immediate. -/
def render (f : Fields) (imm : Option Word) : Text :=
  Terminal.Colour.red.on ++ Text.padRight 6 f.mnemonic ++ Terminal.Colour.blue.on ++
    Text.padRight 4 (Register.nameOfByte f.srcA) ++ " " ++ Text.padRight 4 (Register.nameOfByte f.srcB) ++ " " ++
    Text.padRight 4 (Register.nameOfByte f.dst) ++ Terminal.plain ++ " " ++ Text.padRight 3 f.roundingName ++ " " ++
    f.immediateText imm

end Fields

end R64
