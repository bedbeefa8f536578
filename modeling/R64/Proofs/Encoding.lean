import Mathlib.Algebra.Group.Nat.Defs
import R64.Instruction.Operand
/-!
The slots of an instruction word. Main statement: every word is made up of its slots, and unpacking a packed word gives
the fields back, cut down to the width of their slots, so that two lists of fields share a word exactly if they agree up
to that width. Nothing is lost of the fields of an instruction.
-/
namespace R64

namespace Fields

/-- The fields with the bits that their slots can hold. -/
def reduced (f : Fields) : Fields where
  opcode := f.opcode % 32
  imm := f.imm
  func := f.func
  srcA := f.srcA % 64
  srcB := f.srcB % 64
  dst := f.dst % 64

theorem toNat_mask (w : Word) (width : Nat) (h : width ≤ 8) :
    (w &&& UInt32.ofNat (2 ^ width - 1)).toNat = w.toNat % 2 ^ width := by
  have hle : 2 ^ width ≤ 2 ^ 8 := Nat.pow_le_pow_right (Nat.succ_pos 1) h
  rw [UInt32.toNat_and, UInt32.toNat_ofNat_of_lt' (by rw [UInt32.size]; omega), Nat.and_two_pow_sub_one_eq_mod]

theorem toNat_place {place : Nat} (h : place < 32) : (UInt32.ofNat place).toNat % 32 = place := by
  rw [UInt32.toNat_ofNat_of_lt' (by rw [UInt32.size]; omega), Nat.mod_eq_of_lt h]

/-- A field that is put into its slot. -/
theorem toNat_slot (b : UInt8) (width place : Nat) (hwidth : width ≤ 8) (hplace : place < 32)
    (h : width + place ≤ 32) :
    ((b.toUInt32 &&& UInt32.ofNat (2 ^ width - 1)) <<< UInt32.ofNat place).toNat =
      b.toNat % 2 ^ width * 2 ^ place := by
  have hlt : b.toNat % 2 ^ width * 2 ^ place < 2 ^ 32 :=
    calc b.toNat % 2 ^ width * 2 ^ place < 2 ^ width * 2 ^ place :=
          Nat.mul_lt_mul_of_pos_right (Nat.mod_lt _ (Nat.two_pow_pos width)) (Nat.two_pow_pos place)
      _ = 2 ^ (width + place) := (Nat.pow_add 2 width place).symm
      _ ≤ 2 ^ 32 := Nat.pow_le_pow_right (Nat.succ_pos 1) h
  rw [UInt32.toNat_shiftLeft, toNat_mask _ width hwidth, UInt8.toNat_toUInt32, toNat_place hplace, Nat.shiftLeft_eq,
    Nat.mod_eq_of_lt hlt]

/-- A field that is taken out of its slot. -/
theorem toNat_unslot (w : Word) (width place : Nat) (hwidth : width ≤ 8) (hplace : place < 32) :
    (w >>> UInt32.ofNat place &&& UInt32.ofNat (2 ^ width - 1)).toNat = w.toNat / 2 ^ place % 2 ^ width := by
  rw [toNat_mask _ width hwidth, UInt32.toNat_shiftRight, toNat_place hplace, Nat.shiftRight_eq_div_pow]

theorem toUInt8_unslot (w : Word) (width place : Nat) (hwidth : width ≤ 8) (hplace : place < 32) :
    (w >>> UInt32.ofNat place &&& UInt32.ofNat (2 ^ width - 1)).toUInt8 =
      UInt8.ofNat (w.toNat / 2 ^ place % 2 ^ width) := by
  rw [← UInt8.toNat_inj, UInt32.toNat_toUInt8, toNat_unslot w width place hwidth hplace, UInt8.toNat_ofNat']

theorem or_eq_add {a b : Nat} (place : Nat) (ha : 2 ^ place ∣ a) (hb : b < 2 ^ place) : a ||| b = a + b := by
  obtain ⟨n, rfl⟩ := ha
  exact (Nat.two_pow_add_eq_or_of_lt hb n).symm

/-- Slots do not overlap, so that they are joined by addition. -/
theorem or_slots (opcode : Nat) {imm func srcA srcB dst : Nat} (himm : imm < 2) (hfunc : func < 256)
    (hsrcA : srcA < 64) (hsrcB : srcB < 64) (hdst : dst < 64) :
    opcode * 0x8000000 ||| imm * 0x4000000 ||| func * 0x40000 ||| srcA * 0x1000 ||| srcB * 0x40 ||| dst =
      opcode * 0x8000000 + imm * 0x4000000 + func * 0x40000 + srcA * 0x1000 + srcB * 0x40 + dst := by
  rw [or_eq_add 27 (b := imm * 0x4000000) (by omega) (by omega),
    or_eq_add 26 (b := func * 0x40000) (by omega) (by omega),
    or_eq_add 18 (b := srcA * 0x1000) (by omega) (by omega), or_eq_add 12 (b := srcB * 0x40) (by omega) (by omega),
    or_eq_add 6 (b := dst) (by omega) (by omega)]

theorem toNat_pack (f : Fields) :
    f.pack.toNat = f.opcode.toNat % 32 * 0x8000000 + f.imm.toNat * 0x4000000 + f.func.toNat * 0x40000 +
      f.srcA.toNat % 64 * 0x1000 + f.srcB.toNat % 64 * 0x40 + f.dst.toNat % 64 := by
  have himm := f.imm.toNat_lt
  have hfunc : f.func.toNat % 256 = f.func.toNat := Nat.mod_eq_of_lt f.func.toNat_lt
  have hopcode : ((f.opcode.toUInt32 &&& 0x1F) <<< 27).toNat = f.opcode.toNat % 32 * 0x8000000 :=
    toNat_slot f.opcode 5 27 (by decide) (by decide) (by decide)
  have hflag : (f.imm.toUInt32 <<< 26).toNat = f.imm.toNat * 0x4000000 := by cases f.imm <;> rfl
  have hmiddle : ((f.func.toUInt32 &&& 0xFF) <<< 18).toNat = f.func.toNat % 256 * 0x40000 :=
    toNat_slot f.func 8 18 (by decide) (by decide) (by decide)
  have hsrcA : ((f.srcA.toUInt32 &&& 0x3F) <<< 12).toNat = f.srcA.toNat % 64 * 0x1000 :=
    toNat_slot f.srcA 6 12 (by decide) (by decide) (by decide)
  have hsrcB : ((f.srcB.toUInt32 &&& 0x3F) <<< 6).toNat = f.srcB.toNat % 64 * 0x40 :=
    toNat_slot f.srcB 6 6 (by decide) (by decide) (by decide)
  have hdst : (f.dst.toUInt32 &&& 0x3F).toNat = f.dst.toNat % 64 := toNat_mask f.dst.toUInt32 6 (by decide)
  rw [pack]
  simp only [UInt32.toNat_or, hopcode, hflag, hmiddle, hsrcA, hsrcB, hdst]
  rw [or_slots _ himm (by omega) (by omega) (by omega) (by omega), hfunc]

/-- The slots of a word by division. -/
theorem unpack_eq (w : Word) :
    unpack w = ⟨UInt8.ofNat (w.toNat / 0x8000000 % 32), w.toNat / 0x4000000 % 2 == 1,
      UInt8.ofNat (w.toNat / 0x40000 % 256), UInt8.ofNat (w.toNat / 0x1000 % 64), UInt8.ofNat (w.toNat / 0x40 % 64),
      UInt8.ofNat (w.toNat % 64)⟩ := by
  have hopcode : (w >>> 27 &&& 0x1F).toUInt8 = UInt8.ofNat (w.toNat / 0x8000000 % 32) :=
    toUInt8_unslot w 5 27 (by decide) (by decide)
  have hflag : (w >>> 26 &&& 0x1 == 1) = (w.toNat / 0x4000000 % 2 == 1) := by
    have hbit : (w >>> 26 &&& 0x1).toNat = w.toNat / 0x4000000 % 2 := toNat_unslot w 1 26 (by decide) (by decide)
    rw [Bool.eq_iff_iff, beq_iff_eq, beq_iff_eq, ← UInt32.toNat_inj, hbit]
    rfl
  have hmiddle : (w >>> 18 &&& 0xFF).toUInt8 = UInt8.ofNat (w.toNat / 0x40000 % 256) :=
    toUInt8_unslot w 8 18 (by decide) (by decide)
  have hsrcA : (w >>> 12 &&& 0x3F).toUInt8 = UInt8.ofNat (w.toNat / 0x1000 % 64) :=
    toUInt8_unslot w 6 12 (by decide) (by decide)
  have hsrcB : (w >>> 6 &&& 0x3F).toUInt8 = UInt8.ofNat (w.toNat / 0x40 % 64) :=
    toUInt8_unslot w 6 6 (by decide) (by decide)
  have hdst : (w &&& 0x3F).toUInt8 = UInt8.ofNat (w.toNat % 64) := by
    have hmask : (w &&& 0x3F).toNat = w.toNat % 64 := toNat_mask w 6 (by decide)
    rw [← UInt8.toNat_inj, UInt32.toNat_toUInt8, hmask, UInt8.toNat_ofNat']
  rw [unpack, hopcode, hflag, hmiddle, hsrcA, hsrcB, hdst]

theorem ofNat_toNat_mod (b : UInt8) {n : Nat} (hn : n < 256) : UInt8.ofNat (b.toNat % n) = b % UInt8.ofNat n := by
  have hlt := b.toNat_lt
  have hle := Nat.mod_le b.toNat n
  apply UInt8.toNat_inj.mp
  rw [UInt8.toNat_mod, UInt8.toNat_ofNat', UInt8.toNat_ofNat', Nat.mod_eq_of_lt (show n < 2 ^ 8 from hn),
    Nat.mod_eq_of_lt (show b.toNat % n < 2 ^ 8 by omega)]

/-- Fields that are packed and unpacked are reduced, and no field touches another. -/
theorem unpack_pack (f : Fields) : unpack f.pack = f.reduced := by
  have himm : f.imm.toNat ≤ 1 := Bool.toNat_le f.imm
  have hfunc := f.func.toNat_lt
  have hopcode : f.pack.toNat / 0x8000000 % 32 = f.opcode.toNat % 32 := by
    rw [toNat_pack]
    omega
  have hflag : f.pack.toNat / 0x4000000 % 2 = f.imm.toNat := by
    rw [toNat_pack]
    omega
  have hmiddle : f.pack.toNat / 0x40000 % 256 = f.func.toNat := by
    rw [toNat_pack]
    omega
  have hsrcA : f.pack.toNat / 0x1000 % 64 = f.srcA.toNat % 64 := by
    rw [toNat_pack]
    omega
  have hsrcB : f.pack.toNat / 0x40 % 64 = f.srcB.toNat % 64 := by
    rw [toNat_pack]
    omega
  have hdst : f.pack.toNat % 64 = f.dst.toNat % 64 := by
    rw [toNat_pack]
    omega
  have hbool : (f.imm.toNat == 1) = f.imm := by cases f.imm <;> rfl
  rw [unpack_eq, hopcode, hflag, hmiddle, hsrcA, hsrcB, hdst, hbool, UInt8.ofNat_toNat, ofNat_toNat_mod _ (by decide),
    ofNat_toNat_mod _ (by decide), ofNat_toNat_mod _ (by decide), ofNat_toNat_mod _ (by decide)]
  rfl

/-- The slots leave no bit of a word out and hold none twice. -/
theorem pack_unpack (w : Word) : (unpack w).pack = w := by
  have hlt := w.toNat_lt
  have hflag : (w.toNat / 0x4000000 % 2 == 1).toNat = w.toNat / 0x4000000 % 2 := by
    rcases Nat.mod_two_eq_zero_or_one (w.toNat / 0x4000000) with h | h <;> simp [h]
  apply UInt32.toNat_inj.mp
  rw [toNat_pack]
  simp only [unpack_eq, UInt8.toNat_ofNat', hflag]
  omega

theorem pack_reduced (f : Fields) : f.reduced.pack = f.pack := by
  rw [← unpack_pack, pack_unpack]

/-- Packing and unpacking undo each other, except that packing cuts every field down to its slot. The bits that are cut
off go nowhere: the other fields stay as they are, and fields that differ in such bits only give one word. -/
theorem pack_unpack_inverse :
    (∀ w : Word, (unpack w).pack = w) ∧
    (∀ f : Fields, unpack f.pack =
      { f with opcode := f.opcode % 32, srcA := f.srcA % 64, srcB := f.srcB % 64, dst := f.dst % 64 }) ∧
    ∀ f g : Fields, f.pack = g.pack ↔ f.reduced = g.reduced := by
  refine ⟨pack_unpack, unpack_pack, fun f g => ⟨fun h => ?_, fun h => ?_⟩⟩
  · rw [← unpack_pack, h, unpack_pack]
  · rw [← pack_reduced, h, pack_reduced]

end Fields

theorem Register.byte_mod (r : Register) : r.byte % 64 = r.byte := by
  have hall : ∀ r : Register, r.byte % 64 = r.byte := by decide
  exact hall r

/-- The word of an instruction has the fields of the instruction in its slots. -/
theorem Instruction.unpack_pack_fields (i : Instruction) : Fields.unpack i.fields.pack = i.fields := by
  have hopcode : (Coded.code i.opcode : UInt8) % 32 = Coded.code i.opcode := by cases i.opcode <;> rfl
  rw [Fields.unpack_pack]
  simp only [Fields.reduced, Instruction.fields, hopcode, Register.byte_mod]

end R64
