import R64.Proofs.Addresses
import R64.Proofs.Encoding
import R64.Proofs.Run
/-!
Instructions from text to word. The operands that fit a shape are data, with the texts that they are written as and the
contents that they ask for in the slots. Main statement: the line of a mnemonic and any operands of its shape is
assembled into one word with these contents, and into a second word exactly if there is an immediate or an offset.
-/
namespace R64

open Literal (hexadecimal)

inductive Place where
  | base (r : Register)
  | offset (w : Word)
  | sum (r : Register) (w : Word)

namespace Place

def text : Place → Text
  | .base r => Address.bracketed r.name
  | .offset w => Address.bracketed (hexadecimal w)
  | .sum r w => Address.bracketed (r.name ++ " + " ++ hexadecimal w)

def register : Place → Register
  | .base r => r
  | .offset _ => .zero
  | .sum r _ => r

def word? : Place → Option Word
  | .base _ => none
  | .offset w => some w
  | .sum _ w => some w

def parts : Place → List Address.Part
  | .base r => [.base r]
  | .offset w => [.offset w.toNat]
  | .sum r w => [.base r, .offset w.toNat]

end Place

/-- A text that is read as a single-precision number. -/
structure SingleText where
  text : Text
  word : Word
  read : Literal.single text = .ok word

inductive SecondSource (α : Type) where
  | register (r : Register)
  | immediate (a : α)

namespace SecondSource

variable {α : Type}

def text (write : α → Text) : SecondSource α → Text
  | .register r => r.name
  | .immediate a => write a

def slot : SecondSource α → Register
  | .register r => r
  | .immediate _ => .zero

def word? (value : α → Word) : SecondSource α → Option Word
  | .register _ => none
  | .immediate a => some (value a)

end SecondSource

def RoundingMode.number : RoundingMode → Nat
  | .rne => 0
  | .rmm => 1
  | .rtz => 2
  | .rdn => 3
  | .rup => 4

/-- A rounding mode that is written by its name or by its number. -/
inductive ModeText where
  | name (mode : RoundingMode)
  | number (mode : RoundingMode)

namespace ModeText

def mode : ModeText → RoundingMode
  | .name m => m
  | .number m => m

def text : ModeText → Text
  | .name m => Coded.name m
  | .number m => hexadecimal (UInt32.ofNat m.number)

end ModeText

/-- The operands that fit a shape. -/
inductive Operands : Shape → Type where
  | bare : Operands .bare
  | dstImm (dst : Register) (imm : Word) : Operands .dstImm
  | srcBDst (srcB dst : Register) : Operands .srcBDst
  | srcBAddr (srcB : Register) (place : Place) : Operands .srcBAddr
  | dstAddr (dst : Register) (place : Place) : Operands .dstAddr
  | srcB (srcB : Register) : Operands .srcB
  | dst (dst : Register) : Operands .dst
  | srcASrcBDst (srcA : Register) (b : SecondSource Word) (dst : Option Register) : Operands .srcASrcBDst
  | srcADst (srcA : Register) (dst : Option Register) : Operands .srcADst
  | srcASrcBDstRm (srcA : Register) (b : SecondSource SingleText) (dst : Option Register) (mode : Option ModeText) :
    Operands .srcASrcBDstRm
  | srcADstRm (srcA : Register) (dst : Option Register) (mode : Option ModeText) : Operands .srcADstRm
  | srcASrcB (srcA : Register) (b : SecondSource Word) : Operands .srcASrcB
  | addr (place : Place) : Operands .addr

/-- What operands ask for: registers for the slots, a second word, a rounding mode. -/
structure Slots where
  srcA : Register := .zero
  srcB : Register := .zero
  dst : Register := .zero
  second : Option Word := none
  mode : Option RoundingMode := none

namespace Operands

variable {shape : Shape}

def texts : Operands shape → List Text
  | .bare => []
  | .dstImm t w => [t.name, hexadecimal w]
  | .srcBDst s t => [s.name, t.name]
  | .srcBAddr s place => [s.name, place.text]
  | .dstAddr t place => [t.name, place.text]
  | .srcB s => [s.name]
  | .dst t => [t.name]
  | .srcASrcBDst a b t => [a.name, b.text hexadecimal] ++ (t.map Register.name).toList
  | .srcADst a t => [a.name] ++ (t.map Register.name).toList
  | .srcASrcBDstRm a b t mode =>
    [a.name, b.text SingleText.text] ++ (t.map Register.name).toList ++ (mode.map ModeText.text).toList
  | .srcADstRm a t mode => [a.name] ++ (t.map Register.name).toList ++ (mode.map ModeText.text).toList
  | .srcASrcB a b => [a.name, b.text hexadecimal]
  | .addr place => [place.text]

/-- An omitted destination is the first source. -/
def slots : Operands shape → Slots
  | .bare => {}
  | .dstImm t w => { dst := t, second := some w }
  | .srcBDst s t => { srcB := s, dst := t }
  | .srcBAddr s place => { srcA := place.register, srcB := s, second := place.word? }
  | .dstAddr t place => { srcA := place.register, dst := t, second := place.word? }
  | .srcB s => { srcB := s }
  | .dst t => { dst := t }
  | .srcASrcBDst a b t => { srcA := a, srcB := b.slot, dst := t.getD a, second := b.word? id }
  | .srcADst a t => { srcA := a, dst := t.getD a }
  | .srcASrcBDstRm a b t mode =>
    { srcA := a, srcB := b.slot, dst := t.getD a, second := b.word? SingleText.word, mode := mode.map ModeText.mode }
  | .srcADstRm a t mode => { srcA := a, dst := t.getD a, mode := mode.map ModeText.mode }
  | .srcASrcB a b => { srcA := a, srcB := b.slot, second := b.word? id }
  | .addr place => { srcA := place.register, second := place.word? }

end Operands

namespace Slots

/-- The function byte, with its high half replaced when a rounding mode is written. -/
def func (s : Slots) (func : UInt8) : UInt8 :=
  match s.mode with
  | none => func
  | some m => UInt8.ofNat (func.toNat % 16 + 16 * m.number)

def fields (s : Slots) (d : Declaration) : Fields where
  opcode := Coded.code d.opcode
  imm := s.second.isSome
  func := s.func d.func
  srcA := s.srcA.byte
  srcB := s.srcB.byte
  dst := s.dst.byte

def instruction (s : Slots) (d : Declaration) : Instruction where
  opcode := d.opcode
  func := s.func d.func
  srcA := s.srcA
  srcB := s.srcB
  dst := s.dst
  trailer := Operand.trailerOf s.second

theorem fields_instruction (s : Slots) (d : Declaration) : (s.instruction d).fields = s.fields d := by
  cases h : s.second <;> simp [Instruction.fields, instruction, fields, Operand.trailerOf, h]

end Slots

instance : LawfulMonad Reading := LawfulMonad.mk' Reading
  (fun r => by
    change Reading.mk r.value (r.faults ++ []) = r
    rw [List.append_nil])
  (fun _ _ => rfl)
  (fun r f g => by
    change Reading.mk _ ((r.faults ++ _) ++ _) = Reading.mk _ (r.faults ++ (_ ++ _))
    rw [List.append_assoc]
    rfl)

namespace Address

theorem denotes_name (r : Register) : Denotes ⟨.absent, r.name⟩ (.base r) := .base (by decide) (Literal.register_name r)

theorem denotes_hexadecimal (sign : Sign) (h : sign ≠ .minus) (w : Word) :
    Denotes ⟨sign, hexadecimal w⟩ (.offset w.toNat) := by
  have hvalue : Literal.value 16 (Nat.toDigits 16 w.toNat) = w.toNat :=
    Literal.value_toDigits (by decide) (by decide) w.toNat
  have hsigned : (w.toNat : Int) = sign.signed w.toNat := by
    cases sign with
    | minus => exact absurd rfl h
    | absent => rfl
    | plus => rfl
  have hlt := w.toNat_lt
  rw [Literal.hexadecimal_eq]
  exact @Denotes.offset sign .hexadecimal (Nat.toDigits 16 w.toNat) w.toNat
    (Literal.isNumeral_toDigits (by decide) (by decide) w.toNat) (by rw [Literal.Radix.base, hvalue, hsigned])
    (by omega) (by omega)

theorem means_text (p : Place) : Means p.text p.parts := by
  have hnone : Blanks [] := by decide
  have hblank : Blanks " " := by decide
  cases p with
  | base r =>
    have hlayout := @Layout.single [] [] [] ⟨.absent, r.name⟩ hnone hnone hnone
    refine ⟨⟨_, ?_, .cons (denotes_name r) .nil⟩, Nat.le_refl 1, Nat.zero_le 1⟩
    simpa [Term.spread, Sign.text, Place.text] using hlayout
  | offset w =>
    have hlayout := @Layout.single [] [] [] ⟨.absent, hexadecimal w⟩ hnone hnone hnone
    refine ⟨⟨_, ?_, .cons (denotes_hexadecimal .absent (by decide) w) .nil⟩, Nat.zero_le 1, Nat.le_refl 1⟩
    simpa [Term.spread, Sign.text, Place.text] using hlayout
  | sum r w =>
    have hlayout := @Layout.pair [] [] " " " " [] ⟨.absent, r.name⟩ ⟨.plus, hexadecimal w⟩ hnone hnone hblank hblank
      hnone Sign.noConfusion
    refine ⟨⟨_, ?_, .cons (denotes_name r) (.cons (denotes_hexadecimal .plus (by decide) w) .nil)⟩, Nat.le_refl 1,
      Nat.le_refl 1⟩
    simpa [Term.spread, Sign.text, Place.text] using hlayout

end Address

theorem RoundingMode.apply_code (func : UInt8) (m : RoundingMode) :
    RoundingMode.apply func (Coded.code m) = UInt8.ofNat (func.toNat % 16 + 16 * m.number) := by
  have hall : ∀ n : Fin 256, ∀ m ∈ (Coded.all : List RoundingMode),
      RoundingMode.apply (UInt8.ofNat n.val) (Coded.code m) = UInt8.ofNat (n.val % 16 + 16 * m.number) := by
    decide +kernel
  have hm : m ∈ (Coded.all : List RoundingMode) := by cases m <;> decide
  have happly := hall ⟨func.toNat, func.toNat_lt⟩ m hm
  rwa [UInt8.ofNat_toNat] at happly

namespace Operand

@[simp] theorem accept_ok {α : Type} (fallback a : α) : Reading.accept fallback (.ok a) = pure a := rfl

@[simp] theorem register_name (r : Register) : Operand.register r.name = pure r := by
  rw [Operand.register, Literal.register_name, accept_ok]

@[simp] theorem address_text (p : Place) : Operand.address p.text = pure (some (p.register, p.word?)) := by
  have hword (w : Word) : UInt32.ofInt w.toNat = w :=
    (Literal.wordOfInt?_eq_some_iff.mp (Literal.wordOfInt?_toNat w)).2.symm
  rw [address_of_means (Address.means_text p)]
  cases p with
  | base r => rfl
  | offset w => exact congrArg (fun v => pure (some (Register.zero, some v))) (hword w)
  | sum r w => exact congrArg (fun v => pure (some (r, some v))) (hword w)

theorem secondSource_text {α : Type} {literal : Text → Except LiteralError Word} {write : α → Text} {value : α → Word}
    (hread : ∀ a, literal (write a) = .ok (value a)) (hname : ∀ a, Literal.isRegister (write a) = false)
    (b : SecondSource α) (i : Instruction) (hsrcB : i.srcB = .zero) (htrailer : i.trailer = .none) :
    secondSource literal (b.text write) i =
      pure (some { i with srcB := b.slot, trailer := trailerOf (b.word? value) }) := by
  obtain ⟨opcode, func, srcA, srcB, dst, trailer⟩ := i
  subst hsrcB htrailer
  cases b with
  | register r =>
    simp [secondSource, SecondSource.text, Literal.isRegister_name, register_name, SecondSource.slot,
      SecondSource.word?, trailerOf]
  | immediate a =>
    simp [secondSource, SecondSource.text, hname, hread, accept_ok, SecondSource.slot, SecondSource.word?, trailerOf]

@[simp] theorem rounding_text (func : UInt8) (m : ModeText) :
    rounding func m.text = pure (UInt8.ofNat (func.toNat % 16 + 16 * m.mode.number)) := by
  have hread : Literal.roundingMode m.text = .ok m.mode := by
    cases m with
    | name m => cases m <;> rfl
    | number m => cases m <;> rfl
  simp [rounding, hread, accept_ok, RoundingMode.apply_code]

@[simp] theorem destinationOrRounding_name (a : Register) (func : UInt8) (t : Register) :
    destinationOrRounding a func t.name = pure (t, func) := by
  simp [destinationOrRounding, Literal.isRegister_name, register_name]

@[simp] theorem destinationOrRounding_text (a : Register) (func : UInt8) (m : ModeText) :
    destinationOrRounding a func m.text = pure (a, UInt8.ofNat (func.toNat % 16 + 16 * m.mode.number)) := by
  have hname : Literal.isRegister m.text = false := by
    cases m with
    | name m => cases m <;> rfl
    | number m => exact Literal.isRegister_hexadecimal _
  simp [destinationOrRounding, hname, rounding_text]

@[simp] theorem secondSource_integer (b : SecondSource Word) (i : Instruction) (hsrcB : i.srcB = .zero)
    (htrailer : i.trailer = .none) :
    secondSource Literal.integer (b.text hexadecimal) i =
      pure (some { i with srcB := b.slot, trailer := trailerOf (b.word? id) }) :=
  secondSource_text Literal.integer_hexadecimal Literal.isRegister_hexadecimal b i hsrcB htrailer

@[simp] theorem secondSource_single (b : SecondSource SingleText) (i : Instruction) (hsrcB : i.srcB = .zero)
    (htrailer : i.trailer = .none) :
    secondSource Literal.single (b.text SingleText.text) i =
      pure (some { i with srcB := b.slot, trailer := trailerOf (b.word? SingleText.word) }) :=
  secondSource_text SingleText.read (fun x => Literal.isRegister_of_single x.read) b i hsrcB htrailer

end Operand

theorem Operands.takes {shape : Shape} (ops : Operands shape) : shape.takes ops.texts.length := by
  cases ops with
  | srcASrcBDst a b t | srcADst a t => cases t <;> rfl
  | srcASrcBDstRm a b t mode | srcADstRm a t mode => cases t <;> cases mode <;> rfl
  | _ => rfl

open Operand in
/-- A declaration reads the texts of operands without a fault and gives the instruction that they ask for. -/
theorem Declaration.read_texts (d : Declaration) (name : Text) (ops : Operands d.shape) :
    d.read name ops.texts = pure (some (ops.slots.instruction d)) := by
  rw [Declaration.read, if_pos ops.takes]
  obtain ⟨mnemonic, opcode, func, shape⟩ := d
  dsimp only at ops
  cases ops with
  | bare => rfl
  | dstImm t w =>
    have hword := Literal.word_of_integer (Literal.integer_hexadecimal w)
    simp [Declaration.instruction, Operands.texts, Operands.slots, Slots.instruction, Slots.func, trailerOf, hword]
  | srcBDst s t => simp [Declaration.instruction, Operands.texts, Operands.slots, Slots.instruction, Slots.func, trailerOf]
  | srcBAddr s place => simp [Declaration.instruction, Operands.texts, Operands.slots, Slots.instruction, Slots.func]
  | dstAddr t place => simp [Declaration.instruction, Operands.texts, Operands.slots, Slots.instruction, Slots.func]
  | srcB s => simp [Declaration.instruction, Operands.texts, Operands.slots, Slots.instruction, Slots.func, trailerOf]
  | dst t => simp [Declaration.instruction, Operands.texts, Operands.slots, Slots.instruction, Slots.func, trailerOf]
  | srcASrcBDst a b t =>
    cases t <;> simp [Declaration.instruction, destination, Operands.texts, Operands.slots, Slots.instruction, Slots.func]
  | srcADst a t =>
    cases t <;> simp [Declaration.instruction, destination, Operands.texts, Operands.slots, Slots.instruction, Slots.func, trailerOf]
  | srcASrcBDstRm a b t mode =>
    cases t <;> cases mode <;>
      simp [Declaration.instruction, trailing, Operands.texts, Operands.slots, Slots.instruction, Slots.func]
  | srcADstRm a t mode =>
    cases t <;> cases mode <;>
      simp [Declaration.instruction, trailing, Operands.texts, Operands.slots, Slots.instruction, Slots.func, trailerOf]
  | srcASrcB a b => simp [Declaration.instruction, Operands.texts, Operands.slots, Slots.instruction, Slots.func]
  | addr place =>
    have hhead : place.text.head? = some '[' := by cases place <;> rfl
    simp [Declaration.instruction, Operands.texts, Operands.slots, Slots.instruction, Slots.func, hhead]

/-- A text that stands in a line as it is: it is cut nowhere, and the line does not end in it. -/
structure Token.Verbatim (s : Text) : Prop where
  inert : Token.Inert s
  unbroken : '\n' ∉ s

namespace Token

theorem verbatim_of_chars {s : Text} (hne : s ≠ []) (h : ∀ c ∈ s, c = '+' ∨ c = '-' ∨ c = '.' ∨ c.isAlphanum) :
    Verbatim s where
  inert := by
    apply inert_of_all hne
    rw [List.all_eq_true]
    intro c hc
    rcases h c hc with rfl | rfl | rfl | hc
    · decide
    · decide
    · decide
    · rw [isInert_of_isAlphanum hc, Text.isBlank_of_isAlphanum hc, Bool.not_false, Bool.and_self]
  unbroken hc := by
    rcases h _ hc with hc | hc | hc | hc <;> exact absurd hc (by decide)

theorem verbatim_of_isAlphanum {s : Text} (hne : s ≠ []) (h : s.all Char.isAlphanum) : Verbatim s :=
  verbatim_of_chars hne fun c hc => .inr (.inr (.inr (List.all_eq_true.mp h c hc)))

theorem verbatim_name (r : Register) : Verbatim r.name := by
  have hall : ∀ r : Register, r.name.all Char.isAlphanum := by decide +kernel
  exact verbatim_of_isAlphanum (Literal.of_register (Literal.register_name r)).1 (hall r)

theorem verbatim_hexadecimal (w : Word) : Verbatim (hexadecimal w) :=
  verbatim_of_isAlphanum (Address.denotes_hexadecimal .absent (by decide) w).isWord.nonempty
    (List.all_eq_true.mpr fun _ => Literal.isAlphanum_of_mem_hexadecimal)

theorem Verbatim.mem {s : Text} (h : Verbatim s) : ∀ c ∈ s, isInert c ∧ c ≠ '\n' := by
  intro c hc
  refine ⟨h.inert.inert c hc, ?_⟩
  rintro rfl
  exact h.unbroken hc

theorem verbatim_bracketed {s : Text} (h : ∀ c ∈ s, isInert c ∧ c ≠ '\n') : Verbatim (Address.bracketed s) where
  inert := Address.inert_bracketed fun c hc => (h c hc).1
  unbroken := by
    simp only [Address.bracketed, List.mem_append, not_or]
    exact ⟨⟨by decide, fun hc => (h _ hc).2 rfl⟩, by decide⟩

theorem verbatim_place (p : Place) : Verbatim p.text := by
  cases p with
  | base r => exact verbatim_bracketed (verbatim_name r).mem
  | offset w => exact verbatim_bracketed (verbatim_hexadecimal w).mem
  | sum r w =>
    have hsign : (" + " : Text).all fun c => isInert c && c != '\n' := by decide
    apply verbatim_bracketed
    intro c hc
    rcases List.mem_append.mp hc with hc | hc
    · rcases List.mem_append.mp hc with hc | hc
      · exact (verbatim_name r).mem c hc
      · simpa using List.all_eq_true.mp hsign c hc
    · exact (verbatim_hexadecimal w).mem c hc

theorem verbatim_single (x : SingleText) : Verbatim x.text := by
  refine verbatim_of_chars ?_ fun c hc => Literal.of_mem_single x.read hc
  intro hnil
  have hread := x.read
  rw [hnil] at hread
  cases hread

theorem verbatim_mode (m : ModeText) : Verbatim m.text := by
  cases m with
  | name m => exact verbatim_of_isAlphanum (by cases m <;> decide) (by cases m <;> decide)
  | number m => exact verbatim_hexadecimal _

theorem verbatim_secondSource {α : Type} {write : α → Text} (h : ∀ a, Verbatim (write a)) (b : SecondSource α) :
    Verbatim (b.text write) := by
  cases b with
  | register r => exact verbatim_name r
  | immediate a => exact h a

theorem verbatim_texts {shape : Shape} (ops : Operands shape) : ∀ t ∈ ops.texts, Verbatim t := by
  have hinteger := verbatim_secondSource verbatim_hexadecimal
  have hsingle := verbatim_secondSource verbatim_single
  have hdst : ∀ t : Option Register, ∀ x ∈ (t.map Register.name).toList, Verbatim x := by
    rintro (_ | t) <;> simp [verbatim_name]
  have hmode : ∀ m : Option ModeText, ∀ x ∈ (m.map ModeText.text).toList, Verbatim x := by
    rintro (_ | m) <;> simp [verbatim_mode]
  cases ops <;>
    simp only [Operands.texts, List.forall_mem_append, List.forall_mem_cons, List.not_mem_nil, false_implies,
      implies_true, verbatim_name, verbatim_hexadecimal, verbatim_place, hinteger, hsingle, and_true, true_and]
  case srcASrcBDst t => exact hdst t
  case srcADst t => exact hdst t
  case srcASrcBDstRm t mode => exact ⟨hdst t, hmode mode⟩
  case srcADstRm t mode => exact ⟨hdst t, hmode mode⟩

theorem unbroken_intercalate {os : List Text} (h : ∀ o ∈ os, '\n' ∉ o) : '\n' ∉ List.intercalate ", " os := by
  induction os with
  | nil => simp
  | cons o os ih =>
    have ho := h o List.mem_cons_self
    have hos := ih fun x hx => h x (List.mem_cons_of_mem o hx)
    cases os with
    | nil => simpa using ho
    | cons o' os =>
      rw [List.intercalate_cons_cons, List.mem_append, List.mem_append, not_or, not_or]
      exact ⟨⟨ho, by decide⟩, hos⟩

theorem unbroken_written {name : Text} {os : List Text} (hname : '\n' ∉ name) (hos : ∀ o ∈ os, '\n' ∉ o) :
    '\n' ∉ written name os := by
  cases os with
  | nil => exact hname
  | cons o os =>
    rw [written, List.mem_append, List.mem_append, not_or, not_or]
    exact ⟨⟨hname, by decide⟩, unbroken_intercalate hos⟩

end Token

namespace Declaration

/-- Every mnemonic is found under its own name, is no directive and consists of letters and digits. -/
theorem of_mem_table {d : Declaration} (h : d ∈ table) :
    lookup? d.mnemonic = some d ∧ Directive.parse? d.mnemonic = none ∧ d.mnemonic ≠ [] ∧
      d.mnemonic.all Char.isAlphanum := by
  have hall : ∀ d ∈ table, lookup? d.mnemonic = some d ∧ Directive.parse? d.mnemonic = none ∧ d.mnemonic ≠ [] ∧
      d.mnemonic.all Char.isAlphanum := by
    decide +kernel
  exact hall d h

theorem verbatim_mnemonic {d : Declaration} (h : d ∈ table) : Token.Verbatim d.mnemonic :=
  Token.verbatim_of_isAlphanum (of_mem_table h).2.2.1 (of_mem_table h).2.2.2

theorem tokenize_written {d : Declaration} (h : d ∈ table) (ops : Operands d.shape) :
    Token.tokenize (Token.written d.mnemonic ops.texts) = d.mnemonic :: ops.texts :=
  Token.tokenize_written_of_inert (verbatim_mnemonic h).inert
    (by simpa using fun c hc => Text.isBlank_of_isAlphanum (List.all_eq_true.mp (of_mem_table h).2.2.2 c hc))
    fun t ht => (Token.verbatim_texts ops t ht).inert

theorem ofText_written {d : Declaration} (h : d ∈ table) (ops : Operands d.shape) :
    Line.ofText (Token.written d.mnemonic ops.texts) = [Token.written d.mnemonic ops.texts] := by
  apply Line.ofText_of_not_mem
  · cases htexts : ops.texts <;> simp [Token.written, (of_mem_table h).2.2.1]
  · exact Token.unbroken_written (verbatim_mnemonic h).unbroken fun t ht => (Token.verbatim_texts ops t ht).unbroken

theorem splitLabels_mnemonic {d : Declaration} (h : d ∈ table) (operands : List Text) :
    Statement.splitLabels (d.mnemonic :: operands) = ([], d.mnemonic :: operands) := by
  have hlast : d.mnemonic.getLast? ≠ some ':' := by
    intro hcolon
    have halnum := List.all_eq_true.mp (of_mem_table h).2.2.2 ':' (List.mem_of_getLast? hcolon)
    exact absurd halnum (by decide)
  simp [Statement.splitLabels, Text.dropTrail?, hlast]

theorem ofTokens_mnemonic {d : Declaration} (h : d ∈ table) (operands : List Text) :
    Statement.ofTokens (d.mnemonic :: operands) = .instruction d d.mnemonic operands := by
  simp [Statement.ofTokens, (of_mem_table h).1, (of_mem_table h).2.1]

end Declaration

def Slots.words (s : Slots) (d : Declaration) : List Word := (s.fields d).pack :: s.second.toList

namespace Assembly

/-- An assembly that holds the words of one line and nothing else. -/
def ofLine (line : Line) (words : List Word) : Assembly :=
  { empty with
    code := ⟨words.toArray, #[], #[]⟩
    segments := #[{ address := 0, start := 0, stop := words.length, isInstruction := true, line }] }

/-- Emitting the first instruction gives its words and one segment for them. -/
theorem emit_instruction (line : Line) (s : Slots) (d : Declaration) :
    (empty.emit line (s.instruction d)).segment line true 0 = ofLine line (s.words d) := by
  rw [emit, Slots.fields_instruction]
  cases hsecond : s.second with
  | none =>
    simp only [Slots.instruction, Slots.words, Operand.trailerOf, hsecond]
    rfl
  | some w =>
    simp only [Slots.instruction, Slots.words, Operand.trailerOf, hsecond]
    rfl

theorem process_written {d : Declaration} (h : d ∈ Declaration.table) (ops : Operands d.shape) (memorySize : Nat)
    {line : Line} (hline : line.text = Token.written d.mnemonic ops.texts) :
    empty.process memorySize line = (ofLine line (ops.slots.words d), none) := by
  have htokens : Token.tokenize (empty.macros.expand line.text) = d.mnemonic :: ops.texts := by
    rw [hline]
    exact Declaration.tokenize_written h ops
  rw [process, htokens, processTokens, Declaration.splitLabels_mnemonic h]
  simp only [List.foldl_nil, Declaration.ofTokens_mnemonic h, execute, instruct, Declaration.read_texts]
  exact congrArg (·, none) (emit_instruction line ops.slots d)

/-- A source of one line that includes no file ends with what the line gives. -/
theorem scan_line {fs : FileSystem} {memorySize : Nat} {name base text : Text} {a a' : Assembly}
    (h : a.process memorySize ⟨name, 1, text⟩ = (a', none)) :
    Session.scan fs memorySize ⟨⟨[⟨name, 0, .lines [text]⟩], base, []⟩, a⟩ = a' := by
  rw [Session.scan_of_some rfl, Session.handle_ok]
  dsimp only
  rw [h]
  exact Session.scan_of_none rfl

theorem finish_ofLine (line : Line) {words : List Word} {memorySize : Nat} (h : words.length ≤ memorySize) :
    (ofLine line words).finish memorySize =
      { image := some (words ++ List.replicate (memorySize - words.length) 0).toArray
        diagnostics := #[]
        segments := (ofLine line words).segments
        symbols := #[] } := by
  have hfits : ¬ memorySize < words.length := by omega
  simp [finish, ofLine, CodeBuffer.link, CodeBuffer.image, CodeBuffer.size, CodeBuffer.unresolved, CodeBuffer.symbols,
    report, empty, hfits, Except.toOption]

/-- Every instruction of the table with any operands of its shape is assembled without a message. The slots of its word
hold the operation, the function with the rounding mode that is written, and the registers; the immediate flag tells
whether a second word follows, which is the immediate or the offset. The rest of the memory is zero. -/
theorem run_instruction (d : Declaration) (hd : d ∈ Declaration.table) (ops : Operands d.shape) (fs : FileSystem)
    (base name : Text) (memorySize : Nat) (hsize : 2 ≤ memorySize) (hlimit : memorySize ≤ memoryLimit) :
    let r := run fs memorySize (.ofText base name (Token.written d.mnemonic ops.texts))
    let slots := ops.slots
    let length := 1 + slots.second.toList.length
    r.diagnostics = #[] ∧
    ∃ w, Fields.unpack w =
        { opcode := Coded.code d.opcode
          imm := slots.second.isSome
          func := slots.func d.func
          srcA := slots.srcA.byte
          srcB := slots.srcB.byte
          dst := slots.dst.byte } ∧
      r.image = some (w :: slots.second.toList ++ List.replicate (memorySize - length) 0).toArray ∧
      r.segments.toList.map (fun s => (s.start, s.stop, s.isInstruction)) = [(0, length, true)] := by
  have hwords : (ops.slots.words d).length = 1 + ops.slots.second.toList.length := by
    rw [Slots.words, List.length_cons, Nat.add_comm]
  have hfits : (ops.slots.words d).length ≤ memorySize := by
    cases hsecond : ops.slots.second <;> simp [hwords, hsecond] <;> omega
  have hprocess : empty.process memorySize ⟨name, 1, Token.written d.mnemonic ops.texts⟩ =
      (ofLine ⟨name, 1, Token.written d.mnemonic ops.texts⟩ (ops.slots.words d), none) :=
    process_written hd ops memorySize rfl
  have hrun : run fs memorySize (.ofText base name (Token.written d.mnemonic ops.texts)) =
      (ofLine ⟨name, 1, Token.written d.mnemonic ops.texts⟩ (ops.slots.words d)).finish memorySize := by
    rw [run_of_not_lt (by omega), SourceStack.ofText, Declaration.ofText_written hd, scan_line hprocess]
  dsimp only
  rw [hrun, finish_ofLine _ hfits]
  refine ⟨rfl, (ops.slots.fields d).pack, ?_, ?_, ?_⟩
  · rw [← Slots.fields_instruction, Instruction.unpack_pack_fields, Slots.fields_instruction]
    rfl
  · rw [hwords]
    rfl
  · exact congrArg (fun n => [(0, n, true)]) hwords

/-- A division by a written number, with a destination and a rounding mode. -/
theorem run_instruction_fdiv :
    let r := run ⟨[], []⟩ 16 (.ofText "" "a" "fdiv r7, -1.5e2, sp, rtz")
    r.diagnostics = #[] ∧ ∃ w, Fields.unpack w = ⟨10, true, 0x23, 7, 0, 61⟩ ∧
      r.image = some (w :: 0xC3160000 :: List.replicate 14 0).toArray := by
  obtain ⟨hdiagnostics, w, hw, himage, -⟩ := run_instruction (.fpu .srcASrcBDstRm .rne .div) (by decide)
    (.srcASrcBDstRm 7 (.immediate ⟨"-1.5e2", 0xC3160000, rfl⟩) (some 61) (some (.name .rtz))) ⟨[], []⟩ "" "a" 16
    (by decide) (by decide)
  exact ⟨hdiagnostics, w, hw, himage⟩

end Assembly

end R64
