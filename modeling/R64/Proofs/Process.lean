import R64.Assembly.Basic
import R64.Proofs.CodeBuffer
/-!
One line of a run. What a line asks for is read off its text alone; the operations that it makes on the code are listed
from that, and the lemmas here say that processing a line replays exactly these operations, reports errors of that line
only, and leaves the rest of the assembly alone.
-/
namespace R64

open CodeBuffer (Operation)

def Instruction.operations (line : Line) (i : Instruction) : List Operation :=
  .push i.fields.pack ::
    match i.trailer with
    | .none => []
    | .word w => [.push w]
    | .label name => [.refer name line]

def CodeBuffer.Operation.appends : Operation → Bool
  | .push _ | .append _ | .fillTo _ | .refer _ _ => true
  | .define _ _ _ | .link => false

namespace Assembly

def tokens (a : Assembly) (line : Line) : List Text := Token.tokenize (a.macros.expand line.text)

def labels (a : Assembly) (line : Line) : List Text := (Statement.splitLabels (a.tokens line)).1

/-- What a line asks for behind its labels. -/
def statement (a : Assembly) (line : Line) : Statement := Statement.ofTokens (Statement.splitLabels (a.tokens line)).2

/-- The filling that the directive for an address asks for. Before the first word there is none, and an address below
the origin or beyond the memory is refused. -/
def filling (memorySize : Nat) (a : Assembly) (operand : Text) : List Operation :=
  match Address.parse? operand with
  | some ⟨none, some offset⟩ =>
    let address := (Reading.accept 0 (Literal.integer offset)).value
    let length := (address - a.origin).toNat
    if a.code.isEmpty ∨ address < a.origin ∨ memorySize < length then [] else [.fillTo length]
  | _ => []

def emission (memorySize : Nat) (a : Assembly) (line : Line) : Statement → List Operation
  | .instruction d name operands => (d.read name operands).value.elim [] (Instruction.operations line)
  | .directive .dw _ operands => operands.map fun s => .append (Reading.accept [] (Literal.data s)).value
  | .directive .org _ [operand] => a.filling memorySize operand
  | _ => []

/-- The operations of a line on the code: its labels, then its statement. -/
def operations (memorySize : Nat) (a : Assembly) (line : Line) : List Operation :=
  (a.labels line).map (.define · a.origin line) ++ a.emission memorySize line (a.statement line)

theorem process_eq (memorySize : Nat) (a : Assembly) (line : Line) :
    a.process memorySize line =
      ((a.labels line).foldl (label line) a).execute memorySize line (a.statement line) := rfl

@[simp] theorem code_report (a : Assembly) (ds : List Diagnostic) : (a.report ds).code = a.code := rfl

@[simp] theorem code_reject (a : Assembly) (line : Line) (faults : List Fault) :
    (a.reject line faults).code = a.code := rfl

theorem code_label (line : Line) (a : Assembly) (name : Text) :
    (label line a name).code = a.code.apply (.define name a.origin line) := by
  cases h : a.code.definition? name <;> simp [label, CodeBuffer.apply, CodeBuffer.define, h]

/-- What one step leaves alone is left alone by any number of steps. -/
theorem foldl_unchanged {α β γ : Type} {step : α → β → α} (f : α → γ) (h : ∀ a b, f (step a b) = f a)
    (bs : List β) (a : α) : f (bs.foldl step a) = f a := by
  induction bs generalizing a with
  | nil => rfl
  | cons b bs ih => rw [List.foldl_cons, ih, h]

theorem origin_label (line : Line) (a : Assembly) (name : Text) : (label line a name).origin = a.origin := by
  unfold label
  split <;> rfl

theorem origin_labels (line : Line) (a : Assembly) (names : List Text) :
    (names.foldl (label line) a).origin = a.origin :=
  foldl_unchanged origin (origin_label line) names a

theorem code_labels (line : Line) (a : Assembly) (names : List Text) :
    (names.foldl (label line) a).code = a.code.replay (names.map (.define · a.origin line)) := by
  induction names generalizing a with
  | nil => rfl
  | cons name names ih =>
    rw [List.foldl_cons, ih, code_label, origin_label]
    rfl

theorem code_emit (a : Assembly) (line : Line) (i : Instruction) :
    (a.emit line i).code = a.code.replay (i.operations line) := by
  unfold emit Instruction.operations
  split <;> simp [*, CodeBuffer.apply]

@[simp] theorem code_segment (a : Assembly) (line : Line) (isInstruction : Bool) (start : Nat) :
    (a.segment line isInstruction start).code = a.code := by
  unfold segment
  split <;> rfl

theorem code_moveTo (memorySize : Nat) (a : Assembly) (line : Line) (address : Word) :
    (a.moveTo memorySize line address).code =
      a.code.replay
        (if a.code.isEmpty ∨ address < a.origin ∨ memorySize < (address - a.origin).toNat then []
          else [.fillTo (address - a.origin).toNat]) := by
  unfold moveTo
  by_cases hempty : a.code.isEmpty
  · simp [hempty]
  by_cases hbelow : address < a.origin
  · simp [hempty, hbelow]
  by_cases hbeyond : memorySize < (address - a.origin).toNat
  · simp [hempty, hbelow, hbeyond]
  simp only [hempty, hbelow, hbeyond, Bool.false_eq_true, if_false, or_self, CodeBuffer.replay_cons,
    CodeBuffer.replay_nil, CodeBuffer.apply]
  cases a.code.fillTo? (address - a.origin).toNat <;> simp

theorem code_org (memorySize : Nat) (a : Assembly) (line : Line) (name operand : Text) :
    (a.org memorySize line name operand).code = a.code.replay (a.filling memorySize operand) := by
  unfold org filling
  cases Address.parse? operand with
  | none => rfl
  | some address =>
    obtain ⟨base, offset⟩ := address
    cases base with
    | some _ => rfl
    | none =>
      cases offset with
      | none => rfl
      | some offset => exact code_moveTo memorySize _ line _

theorem code_item (line : Line) (a : Assembly) (operand : Text) :
    (item line a operand).code = a.code.apply (.append (Reading.accept [] (Literal.data operand)).value) := rfl

theorem code_items (line : Line) (a : Assembly) (operands : List Text) :
    (operands.foldl (item line) a).code =
      a.code.replay (operands.map fun s => .append (Reading.accept [] (Literal.data s)).value) := by
  induction operands generalizing a with
  | nil => rfl
  | cons operand operands ih => rw [List.foldl_cons, ih, code_item]; rfl

theorem code_instruct (a : Assembly) (line : Line) (d : Declaration) (name : Text) (operands : List Text) :
    (a.instruct line d name operands).code =
      a.code.replay ((d.read name operands).value.elim [] (Instruction.operations line)) := by
  cases h : (d.read name operands).value with
  | none => simp [instruct, h]
  | some i => simp [instruct, h, code_emit]

theorem code_direct (memorySize : Nat) (a : Assembly) (line : Line) (d : Directive) (name : Text)
    (operands : List Text) :
    (a.direct memorySize line d name operands).1.code =
      a.code.replay (a.emission memorySize line (.directive d name operands)) := by
  unfold direct
  split
  · rfl
  · exact code_org memorySize a line _ _
  · rfl
  · simp only [code_segment]
    exact code_items line a _
  · next hinc horg hdef hdw =>
    cases d with
    | inc => rfl
    | macroDef => rfl
    | org =>
      rcases operands with _ | ⟨operand, _ | ⟨second, rest⟩⟩
      · rfl
      · exact absurd rfl (horg operand rfl)
      · rfl
    | dw =>
      cases operands with
      | nil => rfl
      | cons operand operands => exact absurd rfl (hdw operand operands rfl)

theorem code_execute (memorySize : Nat) (a : Assembly) (line : Line) (s : Statement) :
    (a.execute memorySize line s).1.code = a.code.replay (a.emission memorySize line s) := by
  cases s with
  | blank => rfl
  | unknown name => rfl
  | directive d name operands => exact code_direct memorySize a line d name operands
  | instruction d name operands => exact code_instruct a line d name operands

theorem words_label (line : Line) (a : Assembly) (name : Text) : (label line a name).code.words = a.code.words := by
  rw [code_label, CodeBuffer.apply, CodeBuffer.define_fst]
  split <;> rfl

theorem words_labels (line : Line) (a : Assembly) (names : List Text) :
    (names.foldl (label line) a).code.words = a.code.words :=
  foldl_unchanged (·.code.words) (words_label line) names a

/-- What a statement emits depends on the words and the origin only, so that labels before it make no difference. -/
theorem emission_congr {a b : Assembly} (hwords : b.code.words = a.code.words) (horigin : b.origin = a.origin)
    (memorySize : Nat) (line : Line) (s : Statement) :
    b.emission memorySize line s = a.emission memorySize line s := by
  have hempty : b.code.isEmpty = a.code.isEmpty := by rw [CodeBuffer.isEmpty, hwords, CodeBuffer.isEmpty]
  have hfilling (operand : Text) : b.filling memorySize operand = a.filling memorySize operand := by
    simp only [filling, hempty, horigin]
  unfold emission
  split <;> first | rfl | exact hfilling _

/-- A line makes its operations on the code, in order and no others. -/
theorem code_process (memorySize : Nat) (a : Assembly) (line : Line) :
    (a.process memorySize line).1.code = a.code.replay (a.operations memorySize line) := by
  rw [process_eq, code_execute, code_labels, operations, CodeBuffer.replay_append,
    emission_congr (words_labels line a _) (origin_labels line a _)]

/-- A statement appends to the code; it neither defines labels nor links. -/
theorem appends_of_mem_emission (memorySize : Nat) (a : Assembly) (line : Line) (s : Statement) :
    ∀ op ∈ a.emission memorySize line s, op.appends := by
  unfold emission
  split
  · next d name operands =>
    cases (d.read name operands).value with
    | none => simp
    | some i =>
      simp only [Option.elim_some, Instruction.operations]
      split <;> simp [Operation.appends]
  · simp [Operation.appends]
  · unfold filling
    split
    · dsimp only
      split <;> simp [Operation.appends]
    · simp
  · simp

theorem link_not_mem_emission (memorySize : Nat) (a : Assembly) (line : Line) (s : Statement) :
    .link ∉ a.emission memorySize line s := by
  intro hlink
  exact absurd (appends_of_mem_emission memorySize a line s _ hlink) (by simp [Operation.appends])

theorem link_not_mem_operations (memorySize : Nat) (a : Assembly) (line : Line) :
    .link ∉ a.operations memorySize line := by
  simp [operations, link_not_mem_emission]

end Assembly

/-- The faults that a statement can have. -/
def Fault.ofStatement : Fault → Bool
  | .directiveArity _ | .instructionArity _ | .literal _ | .unknownOperation _ | .invalidAddress _
  | .directAddressing _ | .addressOverflow _ _ | .memoryOverflow _ => true
  | _ => false

/-- Every fault of a reading is one that a statement can have. -/
def Reading.Admissible {α : Type} (r : Reading α) : Prop := ∀ f ∈ r.faults, f.ofStatement

/-- Every fault of a reading is a literal that cannot be read. -/
def Reading.Lenient {α : Type} (r : Reading α) : Prop := ∀ f ∈ r.faults, ∃ e, f = .literal e

/-- A reading of operands has a value and no faults but those of literals, or nothing but a malformed address. -/
def Reading.Settled {α : Type} (r : Reading (Option α)) : Prop :=
  r.value.isSome ∧ r.Lenient ∨ ∃ s, r = .report none (.invalidAddress s)

namespace Reading

variable {α β : Type}

theorem Lenient.pure (a : α) : (pure a : Reading α).Lenient := by
  intro f hf
  cases hf

theorem Lenient.bind {r : Reading α} {g : α → Reading β} (hr : r.Lenient) (hg : ∀ a, (g a).Lenient) :
    (r >>= g).Lenient := by
  intro f hf
  rcases List.mem_append.mp hf with hf | hf
  · exact hr f hf
  · exact hg r.value f hf

theorem Lenient.accept (a : α) (e : Except LiteralError α) : (Reading.accept a e).Lenient := by
  cases e with
  | ok _ => exact .pure _
  | error e =>
    intro f hf
    exact ⟨e, List.mem_singleton.mp hf⟩

theorem Lenient.admissible {r : Reading α} (h : r.Lenient) : r.Admissible := by
  intro f hf
  obtain ⟨e, rfl⟩ := h f hf
  rfl

theorem Admissible.report {f : Fault} (hf : f.ofStatement) (a : α) : (Reading.report a f).Admissible := by
  intro g hg
  rwa [List.mem_singleton.mp hg]

theorem Settled.admissible {r : Reading (Option α)} (h : r.Settled) : r.Admissible := by
  rcases h with ⟨-, h⟩ | ⟨s, rfl⟩
  · exact h.admissible
  · exact .report rfl none

/-- What depends on a reading without a value is given up with it. -/
theorem Settled.bind {r : Reading (Option α)} {g : Option α → Reading (Option β)} (hr : r.Settled)
    (hnone : g none = Pure.pure none) (hsome : ∀ a, (g (some a)).value.isSome ∧ (g (some a)).Lenient) :
    (r >>= g).Settled := by
  rcases hr with ⟨hvalue, hlenient⟩ | ⟨s, rfl⟩
  · obtain ⟨value, faults⟩ := r
    obtain ⟨a, rfl⟩ := Option.isSome_iff_exists.mp hvalue
    refine .inl ⟨(hsome a).1, fun f hf => ?_⟩
    rcases List.mem_append.mp hf with hf | hf
    · exact hlenient f hf
    · exact (hsome a).2 f hf
  · refine .inr ⟨s, ?_⟩
    change Reading.mk (g none).value ([.invalidAddress s] ++ (g none).faults) = _
    rw [hnone]
    rfl

end Reading

namespace Operand

open Reading

theorem register_lenient (s : Text) : (register s).Lenient := .accept _ _

theorem address_settled (s : Text) : (address s).Settled := by
  unfold address
  split
  · exact .inr ⟨s, rfl⟩
  · next a _ =>
    obtain ⟨base, offset⟩ := a
    have hliteral (literal : Text) (base : Register) : (do
        let w ← Reading.accept 0 (Literal.integer literal)
        let offset ← pure (some w)
        pure (some (base, offset)) : Reading (Option (Register × Option Word))).Lenient :=
      .bind (.accept _ _) fun _ => .bind (.pure _) fun _ => .pure _
    cases base with
    | none =>
      cases offset with
      | none => exact .inl ⟨rfl, .bind (.pure _) fun _ => .bind (.pure _) fun _ => .pure _⟩
      | some literal => exact .inl ⟨rfl, .bind (.pure _) fun _ => hliteral literal _⟩
    | some name =>
      cases offset with
      | none => exact .inl ⟨rfl, .bind (register_lenient name) fun _ => .bind (.pure _) fun _ => .pure _⟩
      | some literal => exact .inl ⟨rfl, .bind (register_lenient name) fun _ => hliteral literal _⟩

theorem secondSource_lenient (literal : Text → Except LiteralError Word) (s : Text) (i : Instruction) :
    (secondSource literal s i).value.isSome ∧ (secondSource literal s i).Lenient := by
  unfold secondSource
  split
  · exact ⟨rfl, .bind (register_lenient s) fun _ => .pure _⟩
  · exact ⟨rfl, .bind (.accept _ _) fun _ => .pure _⟩

theorem rounding_lenient (func : UInt8) (s : Text) : (rounding func s).Lenient :=
  .bind (.accept _ _) fun _ => .pure _

theorem destinationOrRounding_lenient (srcA : Register) (func : UInt8) (s : Text) :
    (destinationOrRounding srcA func s).Lenient := by
  unfold destinationOrRounding
  split
  · exact .bind (register_lenient s) fun _ => .pure _
  · exact .bind (rounding_lenient func s) fun _ => .pure _

theorem destination_lenient (srcA : Register) (s : Option Text) : (destination srcA s).Lenient := by
  cases s with
  | none => exact .pure _
  | some t => exact register_lenient t

theorem trailing_lenient (srcA : Register) (func : UInt8) (rest : List Text) : (trailing srcA func rest).Lenient := by
  unfold trailing
  split
  · exact .bind (rounding_lenient _ _) fun _ => .bind (register_lenient _) fun _ => .pure _
  · exact destinationOrRounding_lenient _ _ _
  · exact .pure _

end Operand

namespace Declaration

variable (d : Declaration) (name : Text) (operands : List Text)

open Operand Reading in
theorem instruction_settled : (d.instruction operands).Settled := by
  unfold instruction
  split
  · exact .inl ⟨rfl, .pure _⟩
  · exact .inl ⟨rfl, .bind (register_lenient _) fun _ => .bind (.accept _ _) fun _ => .pure _⟩
  · exact .inl ⟨rfl, .bind (register_lenient _) fun _ => .bind (register_lenient _) fun _ => .pure _⟩
  · exact .bind (address_settled _) rfl fun _ => ⟨rfl, .bind (register_lenient _) fun _ => .pure _⟩
  · exact .bind (address_settled _) rfl fun _ => ⟨rfl, .bind (register_lenient _) fun _ => .pure _⟩
  · exact .inl ⟨rfl, .bind (register_lenient _) fun _ => .pure _⟩
  · exact .inl ⟨rfl, .bind (register_lenient _) fun _ => .pure _⟩
  · exact .inl ⟨(secondSource_lenient _ _ _).1, .bind (register_lenient _) fun _ =>
      .bind (destination_lenient _ _) fun _ => (secondSource_lenient _ _ _).2⟩
  · exact .inl ⟨rfl, .bind (register_lenient _) fun _ => .bind (destination_lenient _ _) fun _ => .pure _⟩
  · exact .inl ⟨(secondSource_lenient _ _ _).1, .bind (register_lenient _) fun _ =>
      .bind (trailing_lenient _ _ _) fun _ => (secondSource_lenient _ _ _).2⟩
  · exact .inl ⟨rfl, .bind (register_lenient _) fun _ => .bind (trailing_lenient _ _ _) fun _ => .pure _⟩
  · exact .inl ⟨(secondSource_lenient _ _ _).1, .bind (register_lenient _) fun _ => (secondSource_lenient _ _ _).2⟩
  · dsimp only
    split
    · exact .bind (address_settled _) rfl fun _ => ⟨rfl, .pure _⟩
    · exact .inl ⟨rfl, .pure _⟩

/-- A wrong number of operands is the only fault then; otherwise only a malformed address leaves no instruction. -/
theorem read_cases :
    ¬ d.shape.takes operands.length ∧ d.read name operands = .report none (.instructionArity name) ∨
      d.shape.takes operands.length ∧ (d.read name operands).Settled := by
  unfold read
  split
  · next htakes => exact .inr ⟨htakes, d.instruction_settled operands⟩
  · next htakes => exact .inl ⟨htakes, rfl⟩

theorem read_admissible : (d.read name operands).Admissible := by
  rcases d.read_cases name operands with ⟨-, hread⟩ | ⟨-, hread⟩
  · rw [hread]
    exact .report rfl none
  · exact hread.admissible

/-- A reading that has a value in spite of its faults has faults of literals only. -/
theorem read_lenient {i : Instruction} (h : (d.read name operands).value = some i) :
    (d.read name operands).Lenient := by
  rcases d.read_cases name operands with ⟨-, hread⟩ | ⟨-, ⟨-, hlenient⟩ | ⟨s, hread⟩⟩
  · rw [hread] at h
    cases h
  · exact hlenient
  · rw [hread] at h
    cases h

/-- The number of operands is reported exactly if the shape does not take it. -/
theorem instructionArity_mem_read_iff :
    .instructionArity name ∈ (d.read name operands).faults ↔ ¬ d.shape.takes operands.length := by
  rcases d.read_cases name operands with ⟨htakes, hread⟩ | ⟨htakes, ⟨-, hlenient⟩ | ⟨s, hread⟩⟩
  · rw [hread]
    exact iff_of_true List.mem_cons_self htakes
  · refine iff_of_false (fun h => ?_) (not_not_intro htakes)
    obtain ⟨e, he⟩ := hlenient _ h
    cases he
  · rw [hread]
    refine iff_of_false (fun h => ?_) (not_not_intro htakes)
    cases List.mem_singleton.mp h

end Declaration

namespace Assembly

/-- `b` has the diagnostics of `a` and behind them errors at `line` that a statement can have. -/
def Reports (line : Line) (a b : Assembly) : Prop :=
  ∃ faults : List Fault, (∀ f ∈ faults, f.ofStatement) ∧
    b.diagnostics.toList = a.diagnostics.toList ++ faults.map fun f => .error f (some line)

theorem Reports.of_eq {line : Line} {a b : Assembly} (h : b.diagnostics = a.diagnostics) : Reports line a b :=
  ⟨[], by simp, by simp [h]⟩

theorem Reports.trans {line : Line} {a b c : Assembly} (h : Reports line a b) (k : Reports line b c) :
    Reports line a c := by
  obtain ⟨fs, hfs, hab⟩ := h
  obtain ⟨gs, hgs, hbc⟩ := k
  refine ⟨fs ++ gs, ?_, by rw [hbc, hab, List.map_append, List.append_assoc]⟩
  intro f hf
  rcases List.mem_append.mp hf with hf | hf
  · exact hfs f hf
  · exact hgs f hf

theorem reports_reject (line : Line) (a : Assembly) {faults : List Fault} (h : ∀ f ∈ faults, f.ofStatement) :
    Reports line a (a.reject line faults) :=
  ⟨faults, h, by simp [reject, report]⟩

theorem diagnostics_segment (a : Assembly) (line : Line) (isInstruction : Bool) (start : Nat) :
    (a.segment line isInstruction start).diagnostics = a.diagnostics := by
  unfold segment
  split <;> rfl

theorem diagnostics_emit (a : Assembly) (line : Line) (i : Instruction) :
    (a.emit line i).diagnostics = a.diagnostics := by
  unfold emit
  cases i.trailer <;> rfl

theorem reports_moveTo (memorySize : Nat) (a : Assembly) (line : Line) (address : Word) :
    Reports line a (a.moveTo memorySize line address) := by
  unfold moveTo
  split
  · exact .of_eq rfl
  · dsimp only
    split
    · exact reports_reject line a (by simp [Fault.ofStatement])
    · split
      · exact reports_reject line a (by simp [Fault.ofStatement])
      · split
        · exact .of_eq rfl
        · exact reports_reject line a (by simp [Fault.ofStatement])

theorem reports_org (memorySize : Nat) (a : Assembly) (line : Line) (name operand : Text) :
    Reports line a (a.org memorySize line name operand) := by
  unfold org
  split
  · exact reports_reject line a (by simp [Fault.ofStatement])
  · exact (reports_reject line a (Reading.Lenient.accept _ _).admissible).trans (reports_moveTo memorySize _ line _)
  · exact reports_reject line a (by simp [Fault.ofStatement])

theorem reports_items (line : Line) (a : Assembly) (operands : List Text) :
    Reports line a (operands.foldl (item line) a) := by
  induction operands generalizing a with
  | nil => exact .of_eq rfl
  | cons operand operands ih =>
    have hitem : Reports line a (item line a operand) :=
      (reports_reject line a (Reading.Lenient.accept _ _).admissible).trans (.of_eq rfl)
    exact hitem.trans (ih _)

/-- A statement only adds errors at its own line. -/
theorem reports_execute (memorySize : Nat) (a : Assembly) (line : Line) (s : Statement) :
    Reports line a (a.execute memorySize line s).1 := by
  cases s with
  | blank => exact .of_eq rfl
  | unknown name => exact reports_reject line a (by simp [Fault.ofStatement])
  | directive d name operands =>
    simp only [execute, direct]
    split
    · exact .of_eq rfl
    · exact reports_org memorySize a line _ _
    · exact .of_eq rfl
    · exact (reports_items line a _).trans (.of_eq (diagnostics_segment _ line _ _))
    · exact reports_reject line a (by simp [Fault.ofStatement])
  | instruction d name operands =>
    have hread := reports_reject line a (d.read_admissible name operands)
    simp only [execute, instruct]
    split
    · exact (hread.trans (.of_eq (diagnostics_emit _ line _))).trans (.of_eq (diagnostics_segment _ line _ _))
    · exact hread

/-- The diagnostics for a label: none for a new one, a warning and a note for one that is defined. -/
def labelDiagnostics (line : Line) (a : Assembly) (name : Text) : List Diagnostic :=
  match a.code.definition? name with
  | none => []
  | some earlier => [⟨.warn, .redefinedLabel name, some line⟩, ⟨.note, .definedHere, some earlier.line⟩]

theorem diagnostics_label (line : Line) (a : Assembly) (name : Text) :
    (label line a name).diagnostics.toList = a.diagnostics.toList ++ labelDiagnostics line a name := by
  cases h : a.code.definition? name <;> simp [label, labelDiagnostics, CodeBuffer.define, report, h]

end Assembly

end R64
