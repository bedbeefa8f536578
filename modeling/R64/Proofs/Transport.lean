import R64.Proofs.Process
/-!
Moving an assembly as a whole. A transport adds a distance to the origin and to every address, and replaces every
recorded line by its image under a function. Nothing that a line does looks at these, the directive for an address
excepted: processing the tokens of a line and transporting can be exchanged.
-/
namespace R64

variable (distance : Word) (g : Line → Line)

def Reference.transport (r : Reference) : Reference := { r with line := g r.line }

def Definition.transport (d : Definition) : Definition := ⟨d.address + distance, g d.line⟩

def Diagnostic.transport (d : Diagnostic) : Diagnostic := { d with line := d.line.map g }

def Segment.transport (s : Segment) : Segment := { s with address := s.address + distance, line := g s.line }

def CodeBuffer.transport (b : CodeBuffer) : CodeBuffer where
  words := b.words
  references := b.references.map (·.transport g)
  definitions := b.definitions.map fun d => (d.1, d.2.transport distance g)

def Assembly.transport (a : Assembly) : Assembly where
  code := a.code.transport distance g
  macros := a.macros
  origin := a.origin + distance
  diagnostics := a.diagnostics.map (·.transport g)
  segments := a.segments.map (·.transport distance g)

namespace CodeBuffer

theorem definition?_transport (b : CodeBuffer) (label : Text) :
    (b.transport distance g).definition? label = (b.definition? label).map (·.transport distance g) := by
  simp [definition?, CodeBuffer.transport, Array.find?_map, Function.comp_def]

theorem define_transport (b : CodeBuffer) (label : Text) (origin : Word) (line : Line) :
    (b.transport distance g).define label (origin + distance) (g line) =
      ((b.define label origin line).1.transport distance g,
        (b.define label origin line).2.map (·.transport distance g)) := by
  unfold define
  rw [definition?_transport]
  cases b.definition? label with
  | some earlier => rfl
  | none =>
    simp [CodeBuffer.transport, Definition.transport, nextAddress, size, UInt32.add_assoc]

theorem unresolved_transport (b : CodeBuffer) :
    (b.transport distance g).unresolved = b.unresolved.map (·.transport g) := by
  have hreferences : (b.transport distance g).references.toList = b.references.toList.map (·.transport g) := by
    simp [CodeBuffer.transport]
  rw [unresolved, hreferences, List.filter_map, List.map_map, unresolved, List.map_map]
  simp only [Function.comp_def, Reference.transport, definition?_transport, Option.isNone_map]
  rfl

end CodeBuffer

namespace Assembly

theorem report_transport (a : Assembly) (ds : List Diagnostic) :
    (a.transport distance g).report (ds.map (·.transport g)) = (a.report ds).transport distance g := by
  simp only [report, Assembly.transport, Assembly.mk.injEq, and_true, true_and]
  apply Array.toList_inj.mp
  simp

theorem reject_transport (a : Assembly) (line : Line) (faults : List Fault) :
    (a.transport distance g).reject (g line) faults = (a.reject line faults).transport distance g := by
  rw [reject, reject, ← report_transport, List.map_map]
  rfl

theorem label_transport (line : Line) (a : Assembly) (name : Text) :
    label (g line) (a.transport distance g) name = (label line a name).transport distance g := by
  have hdefine := CodeBuffer.define_transport distance g a.code name a.origin line
  unfold label
  simp only [Assembly.transport] at hdefine ⊢
  rw [hdefine]
  rcases a.code.define name a.origin line with ⟨code, _ | earlier⟩
  · rfl
  · exact report_transport distance g a
      [⟨.warn, .redefinedLabel name, some line⟩, ⟨.note, .definedHere, some earlier.line⟩]

theorem labels_transport (line : Line) (a : Assembly) (names : List Text) :
    names.foldl (label (g line)) (a.transport distance g) =
      (names.foldl (label line) a).transport distance g := by
  induction names generalizing a with
  | nil => rfl
  | cons name names ih => rw [List.foldl_cons, label_transport, ih, List.foldl_cons]

theorem emit_transport (a : Assembly) (line : Line) (i : Instruction) :
    (a.transport distance g).emit (g line) i = (a.emit line i).transport distance g := by
  unfold emit
  split
  · rfl
  · rfl
  · simp [Assembly.transport, CodeBuffer.transport, CodeBuffer.push, CodeBuffer.refer, CodeBuffer.size,
      Reference.transport]

theorem segment_transport (a : Assembly) (line : Line) (isInstruction : Bool) (start : Nat) :
    (a.transport distance g).segment (g line) isInstruction start =
      (a.segment line isInstruction start).transport distance g := by
  have hsize : (a.transport distance g).code.size = a.code.size := rfl
  have haddress : a.origin + distance + UInt32.ofNat start = a.origin + UInt32.ofNat start + distance := by
    rw [UInt32.add_assoc, UInt32.add_assoc, UInt32.add_comm distance]
  unfold segment
  rw [hsize]
  split
  · simp [Assembly.transport, Segment.transport, haddress]
  · rfl

theorem items_transport (line : Line) (a : Assembly) (operands : List Text) :
    operands.foldl (item (g line)) (a.transport distance g) =
      (operands.foldl (item line) a).transport distance g := by
  induction operands generalizing a with
  | nil => rfl
  | cons operand operands ih =>
    have hitem : item (g line) (a.transport distance g) operand = (item line a operand).transport distance g := by
      simp only [item, reject_transport]
      rfl
    rw [List.foldl_cons, hitem, ih, List.foldl_cons]

theorem instruct_transport (a : Assembly) (line : Line) (d : Declaration) (name : Text) (operands : List Text) :
    (a.transport distance g).instruct (g line) d name operands =
      (a.instruct line d name operands).transport distance g := by
  have hsize : (a.transport distance g).code.size = a.code.size := rfl
  simp only [instruct, reject_transport, hsize]
  split
  · rw [emit_transport, segment_transport]
  · rfl

end Assembly

def Statement.isMove : Statement → Bool
  | .directive .org _ [_] => true
  | _ => false

namespace Assembly

/-- A statement does the same to a transported assembly, unless it goes to an address. -/
theorem execute_transport (memorySize : Nat) (a : Assembly) (line : Line) {s : Statement} (h : s.isMove = false) :
    (a.transport distance g).execute memorySize (g line) s =
      ((a.execute memorySize line s).1.transport distance g, (a.execute memorySize line s).2) := by
  cases s with
  | blank => rfl
  | unknown name => simp only [execute, reject_transport]
  | instruction d name operands => simp only [execute, instruct_transport]
  | directive d name operands =>
    simp only [execute, direct]
    split
    · rfl
    · cases h
    · rfl
    · have hsize : (a.transport distance g).code.size = a.code.size := rfl
      rw [items_transport, hsize, segment_transport]
    · rw [reject_transport]

/-- Processing tokens and transporting can be exchanged, whatever becomes of the line that is recorded. -/
theorem processTokens_transport (memorySize : Nat) (a : Assembly) (line : Line) (tokens : List Text)
    (h : (Statement.ofTokens (Statement.splitLabels tokens).2).isMove = false) :
    (a.transport distance g).processTokens memorySize (g line) tokens =
      ((a.processTokens memorySize line tokens).1.transport distance g,
        (a.processTokens memorySize line tokens).2) := by
  simp only [processTokens, labels_transport, execute_transport distance g memorySize _ line h]

theorem moveTo_transport_zero (memorySize : Nat) (a : Assembly) (line : Line) (address : Word) :
    (a.transport 0 g).moveTo memorySize (g line) address = (a.moveTo memorySize line address).transport 0 g := by
  have horigin : (a.transport 0 g).origin = a.origin := UInt32.add_zero _
  have hempty : (a.transport 0 g).code.isEmpty = a.code.isEmpty := rfl
  have hsize : (a.transport 0 g).code.size = a.code.size := rfl
  have hfill (length : Nat) :
      (a.transport 0 g).code.fillTo? length = (a.code.fillTo? length).map (·.transport 0 g) := by
    unfold CodeBuffer.fillTo?
    rw [hsize]
    split <;> rfl
  simp only [moveTo, horigin, hempty, hsize, hfill]
  split
  · simp [Assembly.transport]
  · split
    · rw [reject_transport]
    · split
      · rw [reject_transport]
      · cases a.code.fillTo? (address - a.origin).toNat with
        | none => exact reject_transport 0 g a line _
        | some code => simp [Assembly.transport]

theorem org_transport_zero (memorySize : Nat) (a : Assembly) (line : Line) (name operand : Text) :
    (a.transport 0 g).org memorySize (g line) name operand = (a.org memorySize line name operand).transport 0 g := by
  unfold org
  split
  · rw [reject_transport]
  · simp only [reject_transport, moveTo_transport_zero]
  · rw [reject_transport]

/-- When only lines are replaced, every statement does the same. -/
theorem execute_transport_zero (memorySize : Nat) (a : Assembly) (line : Line) (s : Statement) :
    (a.transport 0 g).execute memorySize (g line) s =
      ((a.execute memorySize line s).1.transport 0 g, (a.execute memorySize line s).2) := by
  cases h : s.isMove with
  | false => exact execute_transport 0 g memorySize a line h
  | true =>
    unfold Statement.isMove at h
    split at h
    · simp only [execute, direct, org_transport_zero]
    · cases h

end Assembly

end R64
