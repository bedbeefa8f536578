import R64.Text
/-!
The 64 registers and their names.
-/
namespace R64

abbrev Register := Fin 64

namespace Register

def zero : Register := ⟨0, by decide⟩

/-- Registers that have a name of their own: stack pointer, status register, program counter. -/
def named : List (Register × Text) := [(61, "sp"), (62, "sr"), (63, "pc")]

/-- The register with a name of its own, written all in lower or all in upper case. -/
def ofName? (s : Text) : Option Register :=
  s.foldCase.bind fun name => (named.find? fun r => r.2 == name).map (·.1)

/-- The name for a register number as it stands in a slot; numbers without a name of their own are written `r` and
the number, also beyond 63. -/
def nameOfByte (b : UInt8) : Text :=
  match named.find? fun r => r.1.val == b.toNat with
  | some r => r.2
  | none => "r" ++ Text.decimal b.toNat

def byte (r : Register) : UInt8 := UInt8.ofNat r.val

def name (r : Register) : Text := nameOfByte r.byte

end Register

end R64
