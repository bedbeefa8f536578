import R64.Fault
import R64.Instruction.Table
import R64.Literal.Basic
import R64.Source.Address
/-!
From operands to instructions. An operand that cannot be read is reported and counts as zero, so that one faulty operand
does not hide the next; only a wrong number of operands or a malformed address leaves no instruction at all.
-/
namespace R64

/-- A value together with the faults met on the way to it, in the order of their report. -/
structure Reading (α : Type) where
  value : α
  faults : List Fault

namespace Reading

instance : Monad Reading where
  pure a := ⟨a, []⟩
  bind r f := ⟨(f r.value).value, r.faults ++ (f r.value).faults⟩

/-- A value without faults, except for one. -/
def report {α : Type} (value : α) (fault : Fault) : Reading α := ⟨value, [fault]⟩

/-- The value of a literal, or `fallback` and the reason why it cannot be read. -/
def accept {α : Type} (fallback : α) : Except LiteralError α → Reading α
  | .ok a => ⟨a, []⟩
  | .error e => ⟨fallback, [.literal e]⟩

end Reading

/-- What follows an instruction word: nothing, a word, or the address of a label. -/
inductive Trailer where
  | none
  | word (w : Word)
  | label (name : Text)
  deriving DecidableEq

/-- An instruction with all its parts. Slots that its shape does not use are zero. -/
structure Instruction where
  opcode : Opcode
  func : UInt8
  srcA : Register := .zero
  srcB : Register := .zero
  dst : Register := .zero
  trailer : Trailer := .none
  deriving DecidableEq

namespace Instruction

/-- The slots of the instruction word; the immediate flag tells that a second word follows. -/
def fields (i : Instruction) : Fields where
  opcode := Coded.code i.opcode
  imm := i.trailer ≠ .none
  func := i.func
  srcA := i.srcA.byte
  srcB := i.srcB.byte
  dst := i.dst.byte

end Instruction

namespace Operand

def register (s : Text) : Reading Register := .accept .zero (Literal.register s)

/-- The base register, zero when absent, and the offset of a bracketed address. A malformed address has neither. -/
def address (s : Text) : Reading (Option (Register × Option Word)) :=
  match Address.parse? s with
  | none => .report none (.invalidAddress s)
  | some a => do
    let base ← match a.base with
      | some name => register name
      | none => pure Register.zero
    let offset ← match a.offset with
      | some literal => do
        let w ← Reading.accept 0 (Literal.integer literal)
        pure (some w)
      | none => pure none
    pure (some (base, offset))

/-- The word after an instruction with an optional offset. -/
def trailerOf : Option Word → Trailer
  | some w => .word w
  | none => .none

/-- Complete an instruction by its second source: a register, or else an immediate that `literal` reads. -/
def secondSource (literal : Text → Except LiteralError Word) (s : Text) (i : Instruction) :
    Reading (Option Instruction) :=
  if Literal.isRegister s then do
    let srcB ← register s
    pure (some { i with srcB })
  else do
    let w ← Reading.accept 0 (literal s)
    pure (some { i with trailer := .word w })

/-- The function byte with the rounding mode that is written. -/
def rounding (func : UInt8) (s : Text) : Reading UInt8 := do
  let mode ← Reading.accept .rne (Literal.roundingMode s)
  pure (RoundingMode.apply func (Coded.code mode))

/-- The last operand of a floating-point instruction: a register is the destination, anything else is a rounding mode
and leaves the first source as destination. -/
def destinationOrRounding (srcA : Register) (func : UInt8) (s : Text) : Reading (Register × UInt8) :=
  if Literal.isRegister s then do
    let dst ← register s
    pure (dst, func)
  else do
    let func ← rounding func s
    pure (srcA, func)

/-- The destination, which is the first source if it is omitted. -/
def destination (srcA : Register) : Option Text → Reading Register
  | some t => register t
  | none => pure srcA

/-- The operands behind the sources of a floating-point instruction. Of a destination and a rounding mode the mode is
read first. -/
def trailing (srcA : Register) (func : UInt8) : List Text → Reading (Register × UInt8)
  | [t, mode] => do
    let func ← rounding func mode
    let dst ← register t
    pure (dst, func)
  | [s] => destinationOrRounding srcA func s
  | _ => pure (srcA, func)

end Operand

open Operand in
/-- The instruction for operands in a number that the shape takes. The second source is read last. -/
def Declaration.instruction (d : Declaration) (operands : List Text) : Reading (Option Instruction) :=
  let base : Instruction := { opcode := d.opcode, func := d.func }
  let operand (i : Nat) : Text := operands.getD i []
  match d.shape with
  | .bare => pure (some base)
  | .dstImm => do
    let dst ← register (operand 0)
    let imm ← Reading.accept 0 (Literal.word (operand 1))
    pure (some { base with dst, trailer := .word imm })
  | .srcBDst => do
    let srcB ← register (operand 0)
    let dst ← register (operand 1)
    pure (some { base with srcB, dst })
  | .srcBAddr => do
    match ← address (operand 1) with
    | none => pure none
    | some (srcA, offset) => do
      let srcB ← register (operand 0)
      pure (some { base with srcA, srcB, trailer := trailerOf offset })
  | .dstAddr => do
    match ← address (operand 1) with
    | none => pure none
    | some (srcA, offset) => do
      let dst ← register (operand 0)
      pure (some { base with srcA, dst, trailer := trailerOf offset })
  | .srcB => do
    let srcB ← register (operand 0)
    pure (some { base with srcB })
  | .dst => do
    let dst ← register (operand 0)
    pure (some { base with dst })
  | .srcASrcBDst => do
    let srcA ← register (operand 0)
    let dst ← destination srcA operands[2]?
    secondSource Literal.integer (operand 1) { base with srcA, dst }
  | .srcADst => do
    let srcA ← register (operand 0)
    let dst ← destination srcA operands[1]?
    pure (some { base with srcA, dst })
  | .srcASrcBDstRm => do
    let srcA ← register (operand 0)
    let (dst, func) ← trailing srcA d.func (operands.drop 2)
    secondSource Literal.single (operand 1) { base with srcA, dst, func }
  | .srcADstRm => do
    let srcA ← register (operand 0)
    let (dst, func) ← trailing srcA d.func (operands.drop 1)
    pure (some { base with srcA, dst, func })
  | .srcASrcB => do
    let srcA ← register (operand 0)
    secondSource Literal.integer (operand 1) { base with srcA }
  | .addr =>
    if (operand 0).head? = some '[' then do
      match ← address (operand 0) with
      | none => pure none
      | some (srcA, offset) => pure (some { base with srcA, trailer := trailerOf offset })
    else pure (some { base with trailer := .label (operand 0) })

/-- The instruction that a declaration and its operands give. `name` is the mnemonic as written. -/
def Declaration.read (d : Declaration) (name : Text) (operands : List Text) : Reading (Option Instruction) :=
  if d.shape.takes operands.length then d.instruction operands else .report none (.instructionArity name)

end R64
