import R64.Machine.Operation
/-!
The instruction set: for every mnemonic the operation, its function code and the shape of its operands.
-/
namespace R64

inductive Shape where
  /-- no operand -/
  | bare
  /-- `dst, immediate` -/
  | dstImm
  /-- `src, dst` -/
  | srcBDst
  /-- `src, [address]` -/
  | srcBAddr
  /-- `dst, [address]` -/
  | dstAddr
  /-- `src` -/
  | srcB
  /-- `dst` -/
  | dst
  /-- `a, b` and an optional `dst` -/
  | srcASrcBDst
  /-- `a` and an optional `dst` -/
  | srcADst
  /-- `a, b`, an optional `dst` and an optional rounding mode -/
  | srcASrcBDstRm
  /-- `a`, an optional `dst` and an optional rounding mode -/
  | srcADstRm
  /-- `a, b` -/
  | srcASrcB
  /-- `[address]` or a label -/
  | addr
  deriving DecidableEq

/-- Least and greatest number of operands. -/
def Shape.arity : Shape → Nat × Nat
  | .bare => (0, 0)
  | .dstImm | .srcBDst | .srcBAddr | .dstAddr | .srcASrcB => (2, 2)
  | .srcB | .dst | .addr => (1, 1)
  | .srcASrcBDst => (2, 3)
  | .srcADst => (1, 2)
  | .srcASrcBDstRm => (2, 4)
  | .srcADstRm => (1, 3)

def Shape.takes (s : Shape) (count : Nat) : Bool := s.arity.1 ≤ count ∧ count ≤ s.arity.2

structure Declaration where
  mnemonic : Text
  opcode : Opcode
  func : UInt8
  shape : Shape
  deriving DecidableEq

namespace Declaration

def simple (op : Opcode) (shape : Shape) : Declaration := ⟨Coded.name op, op, 0, shape⟩

def alu (shape : Shape) (f : AluFunction) : Declaration := ⟨Coded.name f, .alu, Coded.code f, shape⟩

def mul (f : MulFunction) : Declaration := ⟨Coded.name f, .mul, Coded.code f, .srcASrcBDst⟩

def div (f : DivFunction) : Declaration := ⟨Coded.name f, .div, Coded.code f, .srcASrcBDst⟩

/-- A floating-point operation with the rounding mode that it has when none is written. -/
def fpu (shape : Shape) (mode : RoundingMode) (f : FpuFunction) : Declaration :=
  ⟨f.mnemonic, .fpu, RoundingMode.apply (Coded.code f) (Coded.code mode), shape⟩

def jump (f : JumpFunction) : Declaration := ⟨f.mnemonic, .jmp, Coded.code f, .addr⟩

/-- All instructions. The comparisons are subtractions that have no destination. -/
def table : List Declaration :=
  [simple .nop .bare, simple .ien .bare, simple .idi .bare, simple .wait .bare, simple .reti .bare, simple .ret .bare,
    simple .inr .dstImm, simple .mov .srcBDst, simple .stm .srcBAddr, simple .ldm .dstAddr, simple .push .srcB,
    simple .pop .dst] ++
  [.add, .adc, .sub, .sbc, .and, .or, .xor, .lsl, .lsr, .asr, .ror].map (alu .srcASrcBDst) ++
  [.inc, .dec, .neg, .not, .rrx].map (alu .srcADst) ++
  Coded.all.map mul ++
  Coded.all.map div ++
  [.add, .sub, .mul, .div].map (fpu .srcASrcBDstRm .rne) ++
  [.sqrt, .neg, .abs].map (fpu .srcADstRm .rne) ++
  [.cvtfi, .cvtfu].map (fpu .srcADstRm .rtz) ++
  [.cvtif, .cvtuf].map (fpu .srcADstRm .rne) ++
  [⟨"cmp", .alu, Coded.code AluFunction.sub, .srcASrcB⟩, ⟨"cpc", .alu, Coded.code AluFunction.sbc, .srcASrcB⟩,
    fpu .srcASrcB .rne .cmp] ++
  Coded.all.map jump ++
  [simple .call .addr]

/-- The instruction with the given mnemonic, written all in lower or all in upper case. -/
def lookup? (name : Text) : Option Declaration :=
  name.foldCase.bind fun folded => table.find? fun d => d.mnemonic == folded

end Declaration

end R64
