/-!
The machine word and its slots. From the top: five bits of operation code, the immediate flag, eight bits of function
code, then six bits each for the two sources and the destination.
-/
namespace R64

abbrev Word := UInt32

/-- The contents of the six slots. Each number is a byte and may exceed the slot that it is meant for. -/
structure Fields where
  opcode : UInt8
  imm : Bool
  func : UInt8
  srcA : UInt8
  srcB : UInt8
  dst : UInt8
  deriving DecidableEq

namespace Fields

/-- The word with each field in its slot; of an oversized field only the low bits are kept. -/
def pack (f : Fields) : Word :=
  (f.opcode.toUInt32 &&& 0x1F) <<< 27 ||| f.imm.toUInt32 <<< 26 ||| (f.func.toUInt32 &&& 0xFF) <<< 18 |||
    (f.srcA.toUInt32 &&& 0x3F) <<< 12 ||| (f.srcB.toUInt32 &&& 0x3F) <<< 6 ||| (f.dst.toUInt32 &&& 0x3F)

def unpack (w : Word) : Fields where
  opcode := (w >>> 27 &&& 0x1F).toUInt8
  imm := w >>> 26 &&& 0x1 == 1
  func := (w >>> 18 &&& 0xFF).toUInt8
  srcA := (w >>> 12 &&& 0x3F).toUInt8
  srcB := (w >>> 6 &&& 0x3F).toUInt8
  dst := (w &&& 0x3F).toUInt8

end Fields

end R64
