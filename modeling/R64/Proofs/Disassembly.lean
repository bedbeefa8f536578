import R64.Machine.Disassembly
import R64.Proofs.Encoding
import R64.Proofs.Segments
/-!
Instructions as they are shown. Reading operands changes nothing of what the instruction table says about an operation
except the rounding mode, which stands in the half of the function byte that the operation does not use. Main statement:
in the image of a run, the first word of an instruction segment tells how long the segment is and which mnemonic it was
written with.
-/
namespace R64

/-- Whether operands of this shape may end in a rounding mode. -/
def Shape.takesMode : Shape → Bool
  | .srcASrcBDstRm => true
  | .srcADstRm => true
  | _ => false

/-- The mnemonic that the word of an instruction is shown with. A comparison is shown as the subtraction that it is. -/
def Declaration.shown (mnemonic : Text) : Text :=
  if mnemonic = "cmp" then "sub" else if mnemonic = "cpc" then "sbc" else mnemonic

/-- `i` does what `d` declares, up to a rounding mode. -/
structure Declaration.Admits (d : Declaration) (i : Instruction) : Prop where
  opcode : i.opcode = d.opcode
  func : i.func = d.func ∨
    d.shape.takesMode ∧ ∃ mode : RoundingMode, i.func = RoundingMode.apply d.func (Coded.code mode)

def Trailer.label? : Trailer → Option Text
  | .label name => some name
  | .word _ | .none => Option.none

def Reading.Gives (P : Instruction → Prop) (r : Reading (Option Instruction)) : Prop := ∀ i, r.value = some i → P i

namespace Reading

variable {α : Type} {P : Instruction → Prop}

theorem Gives.some {i : Instruction} (h : P i) : (pure (some i) : Reading (Option Instruction)).Gives P := by
  intro j hj
  obtain rfl := Option.some.inj hj
  exact h

theorem Gives.none (faults : List Fault) : (⟨none, faults⟩ : Reading (Option Instruction)).Gives P := by
  intro j hj
  cases hj

theorem Gives.bind {r : Reading α} {g : α → Reading (Option Instruction)} (h : (g r.value).Gives P) :
    (r >>= g).Gives P := h

end Reading

namespace Operand

open Reading

theorem label?_trailerOf (offset : Option Word) : (trailerOf offset).label? = none := by
  cases offset <;> rfl

theorem secondSource_gives {P : Instruction → Prop} {literal : Text → Except LiteralError Word} {s : Text}
    {i : Instruction} (hi : i.trailer.label? = none)
    (h : ∀ srcB trailer, trailer.label? = none → P { i with srcB, trailer }) : (secondSource literal s i).Gives P := by
  unfold secondSource
  split
  · exact .bind (.some (h _ i.trailer hi))
  · exact .bind (.some (h _ _ rfl))

theorem func_destinationOrRounding (srcA : Register) (func : UInt8) (s : Text) :
    (destinationOrRounding srcA func s).value.2 = func ∨
      ∃ mode : RoundingMode,
        (destinationOrRounding srcA func s).value.2 = RoundingMode.apply func (Coded.code mode) := by
  unfold destinationOrRounding
  split
  · exact .inl rfl
  · exact .inr ⟨_, rfl⟩

theorem func_trailing (srcA : Register) (func : UInt8) (rest : List Text) :
    (trailing srcA func rest).value.2 = func ∨
      ∃ mode : RoundingMode, (trailing srcA func rest).value.2 = RoundingMode.apply func (Coded.code mode) := by
  unfold trailing
  split
  · exact .inr ⟨_, rfl⟩
  · exact func_destinationOrRounding srcA func _
  · exact .inl rfl

end Operand

open Operand Reading in
/-- What an instruction can be that is read by a row of the table: one with the operation of the row and without a
label, with a rounding mode if the row takes one, or nothing but the operation and a label if the row takes an address.
-/
theorem Declaration.read_gives {P : Instruction → Prop} (d : Declaration) (name : Text) (operands : List Text)
    (plain : ∀ i : Instruction, i.opcode = d.opcode → i.func = d.func → i.trailer.label? = none → P i)
    (moded : d.shape.takesMode → ∀ (i : Instruction) (mode : RoundingMode), i.opcode = d.opcode →
      i.func = RoundingMode.apply d.func (Coded.code mode) → i.trailer.label? = none → P i)
    (use : d.shape = .addr → ∀ label, P { opcode := d.opcode, func := d.func, trailer := .label label }) :
    (d.read name operands).Gives P := by
  have either (hmode : d.shape.takesMode) (srcA : Register) (rest : List Text) (i : Instruction)
      (hopcode : i.opcode = d.opcode) (hfunc : i.func = (trailing srcA d.func rest).value.2)
      (htrailer : i.trailer.label? = none) : P i := by
    rcases func_trailing srcA d.func rest with h | ⟨mode, h⟩
    · exact plain i hopcode (hfunc.trans h) htrailer
    · exact moded hmode i mode hopcode (hfunc.trans h) htrailer
  unfold read
  split
  · unfold instruction
    split
    · exact .some (plain _ rfl rfl rfl)
    · exact .bind (.bind (.some (plain _ rfl rfl rfl)))
    · exact .bind (.bind (.some (plain _ rfl rfl rfl)))
    · refine .bind ?_
      cases (address _).value with
      | none => exact .none []
      | some m => exact .bind (.some (plain _ rfl rfl (label?_trailerOf m.2)))
    · refine .bind ?_
      cases (address _).value with
      | none => exact .none []
      | some m => exact .bind (.some (plain _ rfl rfl (label?_trailerOf m.2)))
    · exact .bind (.some (plain _ rfl rfl rfl))
    · exact .bind (.some (plain _ rfl rfl rfl))
    · exact .bind (.bind (secondSource_gives rfl fun _ _ h => plain _ rfl rfl h))
    · exact .bind (.bind (.some (plain _ rfl rfl rfl)))
    · next hshape =>
      exact .bind (.bind (secondSource_gives rfl fun _ _ h => either (by rw [hshape]; rfl) _ _ _ rfl rfl h))
    · next hshape => exact .bind (.bind (.some (either (by rw [hshape]; rfl) _ _ _ rfl rfl rfl)))
    · exact .bind (secondSource_gives rfl fun _ _ h => plain _ rfl rfl h)
    · next hshape =>
      dsimp only
      split
      · refine .bind ?_
        cases (address _).value with
        | none => exact .none []
        | some m => exact .some (plain _ rfl rfl (label?_trailerOf m.2))
      · exact .some (use hshape _)
  · exact .none _

theorem Declaration.read_admits (d : Declaration) (name : Text) (operands : List Text) :
    (d.read name operands).Gives d.Admits :=
  d.read_gives name operands (fun _ hopcode hfunc _ => ⟨hopcode, .inl hfunc⟩)
    (fun hmode _ mode hopcode hfunc _ => ⟨hopcode, .inr ⟨hmode, mode, hfunc⟩⟩) fun _ _ => ⟨rfl, .inl rfl⟩

namespace Declaration

/-- The disassembler knows every row of the table, with each rounding mode that the row may get. -/
theorem mnemonic_of_mem_table {d : Declaration} (h : d ∈ table) {i : Instruction} (hi : d.Admits i) :
    i.fields.mnemonic = shown d.mnemonic := by
  have hplain : ∀ d ∈ table, Fields.mnemonic ⟨Coded.code d.opcode, false, d.func, 0, 0, 0⟩ = shown d.mnemonic := by
    decide +kernel
  have hmoded : ∀ d ∈ table, d.shape.takesMode → ∀ mode ∈ (Coded.all : List RoundingMode),
      Fields.mnemonic ⟨Coded.code d.opcode, false, RoundingMode.apply d.func (Coded.code mode), 0, 0, 0⟩ =
        shown d.mnemonic := by
    decide +kernel
  have hslots : i.fields.mnemonic = Fields.mnemonic ⟨Coded.code i.opcode, false, i.func, 0, 0, 0⟩ := rfl
  rw [hslots, hi.opcode]
  rcases hi.func with hfunc | ⟨hmode, mode, hfunc⟩
  · rw [hfunc]
    exact hplain d h
  · rw [hfunc]
    exact hmoded d h hmode mode (by cases mode <;> decide)

theorem of_lookup? {name : Text} {d : Declaration} (h : lookup? name = some d) :
    d ∈ table ∧ d.mnemonic = name.lower := by
  obtain ⟨folded, hfold, hfind⟩ := Option.bind_eq_some_iff.mp h
  have hname := List.find?_some hfind
  refine ⟨List.mem_of_find?_eq_some hfind, ?_⟩
  unfold Text.foldCase at hfold
  split at hfold
  · rw [← Option.some.inj hfold] at hname
    simpa using hname
  · cases hfold

end Declaration

theorem Statement.lookup?_of_ofTokens {tokens : List Text} {d : Declaration} {name : Text} {operands : List Text}
    (h : ofTokens tokens = .instruction d name operands) : Declaration.lookup? name = some d := by
  unfold ofTokens at h
  split at h
  · cases h
  · split at h
    · cases h
    · split at h
      · next hlookup =>
        cases h
        exact hlookup
      · cases h

/-- No field of an instruction is wider than its slot. -/
theorem Instruction.fields_fit (i : Instruction) :
    i.fields.opcode < 32 ∧ i.fields.srcA < 64 ∧ i.fields.srcB < 64 ∧ i.fields.dst < 64 := by
  have hregister : ∀ r : Register, r.byte < 64 := by decide
  have hopcode : (Coded.code i.opcode : UInt8) < 32 := by cases i.opcode <;> decide
  exact ⟨hopcode, hregister i.srcA, hregister i.srcB, hregister i.dst⟩

namespace Assembly

/-- In every image, the first word of an instruction segment has the fields of the instruction that the line was read
as. Its flag tells whether the segment has a second word, and it is shown with the mnemonic of the line, comparisons
excepted. No field of an instruction is cut down by packing it. -/
theorem run_disassembled (fs : FileSystem) (memorySize : Nat) (source : SourceStack) :
    (∀ image, (run fs memorySize source).image = some image →
      ∀ s ∈ (run fs memorySize source).segments, s.isInstruction →
        ∃ a d name operands i w, (a, s.line) ∈ visits fs memorySize source ∧
          a.statement s.line = .instruction d name operands ∧ (d.read name operands).value = some i ∧
          (a.process memorySize s.line).1.segments = a.segments.push s ∧
          image[s.start]? = some w ∧ w = i.fields.pack ∧ Fields.unpack w = i.fields ∧
          s.stop = s.start + (if (Fields.unpack w).imm then 2 else 1) ∧
          (Fields.unpack w).mnemonic = Declaration.shown name.lower) ∧
    ∀ i : Instruction, (i.fields.opcode < 32 ∧ i.fields.srcA < 64 ∧ i.fields.srcB < 64 ∧ i.fields.dst < 64) ∧
      Fields.unpack i.fields.pack = i.fields := by
  constructor
  · intro image himage s hs hinstruction
    have hlimit := not_lt_of_image himage
    rw [run_of_not_lt hlimit] at himage hs
    obtain ⟨a, d, name, operands, i, hvisit, hcontribution, hstatement, hread, hstop, hword, hunused⟩ :=
      instruction_of_segment (Array.mem_toList_iff.mpr hs) hinstruction
    obtain ⟨hmem, hname⟩ := Declaration.of_lookup? (Statement.lookup?_of_ofTokens hstatement)
    refine ⟨a, d, name, operands, i, i.fields.pack, ?_, hstatement, hread, segments_of_contribution hcontribution,
      ?_, rfl, ?_, ?_, ?_⟩
    · rwa [visits_of_not_lt hlimit]
    · exact getElem?_image_of_unused himage hword hunused
    · exact i.unpack_pack_fields
    · rw [i.unpack_pack_fields]
      exact hstop
    · rw [i.unpack_pack_fields, Declaration.mnemonic_of_mem_table hmem (d.read_admits name operands i hread), hname]
  · intro i
    exact ⟨i.fields_fit, i.unpack_pack_fields⟩

end Assembly

end R64
