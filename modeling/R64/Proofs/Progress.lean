import R64.Proofs.Run
import R64.Proofs.Transport
/-!
Earlier and later moments of a run. Between two lines nothing happens to an assembly except that something is reported,
so a relation that lines and reports respect holds between any two moments. Main statement: a later moment continues an
earlier one in its code, its messages and, once there is code, its origin.
-/
namespace R64

namespace Assembly

/-- A relation between an earlier and a later assembly that neither a line nor a report breaks. -/
structure Persists (memorySize : Nat) (R : Assembly → Assembly → Prop) : Prop where
  refl : ∀ a, R a a
  trans : ∀ {a b c}, R a b → R b c → R a c
  report : ∀ a ds, R a (a.report ds)
  process : ∀ a line, R a (a.process memorySize line).1

theorem report_nil (a : Assembly) : a.report [] = a := by
  simp [report]

theorem reject_nil (a : Assembly) (line : Line) : a.reject line [] = a := report_nil a

end Assembly

namespace Session

open Assembly (Persists)

variable {memorySize : Nat} {R : Assembly → Assembly → Prop}

theorem assembly_handle_ok (fs : FileSystem) (memorySize : Nat) (s : Session) (line : Line) :
    ∃ ds, (s.handle fs memorySize (.ok line)).assembly = (s.assembly.process memorySize line).1.report ds := by
  rw [handle_ok]
  split
  · exact ⟨[], (Assembly.report_nil _).symm⟩
  · next path _ =>
    rcases assembly_resolve { s with assembly := (s.assembly.process memorySize line).1 } line path
      (fs.lookup (s.source.target path)) with h | h
    · exact ⟨[], h.trans (Assembly.report_nil _).symm⟩
    · exact ⟨_, h⟩

theorem visits_of_ok {fs : FileSystem} {s : Session} {line : Line} {source : SourceStack}
    (h : s.source.next = (some (.ok line), source)) :
    s.visits fs memorySize =
      (s.assembly, line) :: (handle fs memorySize { s with source } (.ok line)).visits fs memorySize := by
  rw [visits_of_some h]
  rfl

theorem visits_of_error {fs : FileSystem} {s : Session} {fault : Fault} {source : SourceStack}
    (h : s.source.next = (some (.error fault), source)) :
    s.visits fs memorySize = (handle fs memorySize { s with source } (.error fault)).visits fs memorySize := by
  rw [visits_of_some h]
  rfl

theorem handle_ok_of_persists (h : Persists memorySize R) (fs : FileSystem) (s : Session) (line : Line) :
    R (s.assembly.process memorySize line).1 (s.handle fs memorySize (.ok line)).assembly := by
  obtain ⟨ds, hds⟩ := assembly_handle_ok fs memorySize s line
  rw [hds]
  exact h.report _ ds

theorem handle_of_persists (h : Persists memorySize R) (fs : FileSystem) (s : Session) (item : Except Fault Line) :
    R s.assembly (s.handle fs memorySize item).assembly := by
  cases item with
  | error fault => exact h.report s.assembly _
  | ok line => exact h.trans (h.process s.assembly line) (handle_ok_of_persists h fs s line)

theorem scan_of_persists (h : Persists memorySize R) (fs : FileSystem) (s : Session) :
    R s.assembly (s.scan fs memorySize) := by
  induction s using scan_induction fs memorySize with
  | done s source hnext =>
    rw [scan_of_none hnext]
    exact h.refl s.assembly
  | take s item source hnext ih =>
    rw [scan_of_some hnext]
    exact h.trans (handle_of_persists h fs { s with source } item) ih

/-- A line that is processed lies between the beginning and the end of the scan. -/
theorem visits_of_persists (h : Persists memorySize R) (fs : FileSystem) (s : Session) :
    ∀ v ∈ s.visits fs memorySize,
      R s.assembly v.1 ∧ R (v.1.process memorySize v.2).1 (s.scan fs memorySize) := by
  induction s using scan_induction fs memorySize with
  | done s source hnext =>
    rw [visits_of_none hnext]
    intro v hv
    cases hv
  | take s item source hnext ih =>
    rw [scan_of_some hnext]
    have later : ∀ v ∈ (handle fs memorySize { s with source } item).visits fs memorySize,
        R s.assembly v.1 ∧ R (v.1.process memorySize v.2).1
          ((handle fs memorySize { s with source } item).scan fs memorySize) := by
      intro v hv
      exact ⟨h.trans (handle_of_persists h fs { s with source } item) (ih v hv).1, (ih v hv).2⟩
    intro v hv
    cases item with
    | error fault =>
      rw [visits_of_error hnext] at hv
      exact later v hv
    | ok line =>
      rw [visits_of_ok hnext] at hv
      rcases List.mem_cons.mp hv with rfl | hv
      · exact ⟨h.refl s.assembly, h.trans (handle_ok_of_persists h fs { s with source } line) (scan_of_persists h fs _)⟩
      · exact later v hv

end Session

theorem CodeBuffer.isEmpty_eq_false {b : CodeBuffer} (h : b.size ≠ 0) : b.isEmpty = false := by
  rw [isEmpty, Array.isEmpty_eq_false_iff]
  intro hnil
  exact h (congrArg Array.size hnil)

namespace Assembly

/-- What is said about labels is no error. -/
theorem exists_diagnostics_labels (line : Line) (a : Assembly) (names : List Text) :
    ∃ remarks : List Diagnostic, (∀ d ∈ remarks, d.isError = false) ∧
      (names.foldl (label line) a).diagnostics.toList = a.diagnostics.toList ++ remarks := by
  induction names generalizing a with
  | nil => exact ⟨[], by simp, by simp⟩
  | cons name names ih =>
    obtain ⟨remarks, hremarks, hlabels⟩ := ih (label line a name)
    refine ⟨labelDiagnostics line a name ++ remarks, ?_, ?_⟩
    · intro d hd
      rcases List.mem_append.mp hd with hd | hd
      · unfold labelDiagnostics at hd
        split at hd
        · cases hd
        · simp only [List.mem_cons, List.not_mem_nil, or_false] at hd
          rcases hd with rfl | rfl <;> rfl
      · exact hremarks d hd
    · rw [List.foldl_cons, hlabels, diagnostics_label, List.append_assoc]

theorem diagnostics_labels (line : Line) (a : Assembly) (names : List Text) :
    a.diagnostics.toList <+: (names.foldl (label line) a).diagnostics.toList := by
  obtain ⟨remarks, -, hlabels⟩ := exists_diagnostics_labels line a names
  rw [hlabels]
  exact List.prefix_append _ _

theorem diagnostics_process (memorySize : Nat) (a : Assembly) (line : Line) :
    a.diagnostics.toList <+: (a.process memorySize line).1.diagnostics.toList := by
  obtain ⟨faults, -, hfaults⟩ := reports_execute memorySize ((a.labels line).foldl (label line) a) line
    (a.statement line)
  refine (diagnostics_labels line a (a.labels line)).trans ?_
  rw [process_eq, hfaults]
  exact List.prefix_append _ _

theorem origin_moveTo {a : Assembly} (h : a.code.isEmpty = false) (memorySize : Nat) (line : Line) (address : Word) :
    (a.moveTo memorySize line address).origin = a.origin := by
  simp only [moveTo, h, Bool.false_eq_true, if_false]
  split
  · rfl
  · split
    · rfl
    · split <;> rfl

theorem origin_org {a : Assembly} (h : a.code.isEmpty = false) (memorySize : Nat) (line : Line)
    (name operand : Text) : (a.org memorySize line name operand).origin = a.origin := by
  unfold org
  split
  · rfl
  · exact origin_moveTo (a := a.reject line _) h memorySize line _
  · rfl

@[simp] theorem origin_segment (a : Assembly) (line : Line) (isInstruction : Bool) (start : Nat) :
    (a.segment line isInstruction start).origin = a.origin := by
  unfold segment
  split <;> rfl

theorem origin_item (line : Line) (a : Assembly) (operand : Text) : (item line a operand).origin = a.origin := rfl

theorem origin_items (line : Line) (a : Assembly) (operands : List Text) :
    (operands.foldl (item line) a).origin = a.origin :=
  foldl_unchanged origin (origin_item line) operands a

theorem origin_emit (a : Assembly) (line : Line) (i : Instruction) : (a.emit line i).origin = a.origin := by
  unfold emit
  cases i.trailer <;> rfl

theorem origin_instruct (a : Assembly) (line : Line) (d : Declaration) (name : Text) (operands : List Text) :
    (a.instruct line d name operands).origin = a.origin := by
  unfold instruct
  dsimp only
  split
  · rw [origin_segment, origin_emit]
    rfl
  · rfl

/-- Only a directive for an address changes the origin, and only before the first word. -/
theorem origin_execute (memorySize : Nat) (a : Assembly) (line : Line) {s : Statement}
    (h : s.isMove = false ∨ a.code.isEmpty = false) : (a.execute memorySize line s).1.origin = a.origin := by
  cases s with
  | blank => rfl
  | unknown name => rfl
  | instruction d name operands => exact origin_instruct a line d name operands
  | directive d name operands =>
    simp only [execute, direct]
    split
    · rfl
    · next operand =>
      rcases h with h | h
      · cases h
      · exact origin_org h memorySize line name operand
    · rfl
    · rw [origin_segment, origin_items]
    · rfl

theorem origin_process (memorySize : Nat) {a : Assembly} {line : Line}
    (h : (a.statement line).isMove = false ∨ a.code.isEmpty = false) :
    (a.process memorySize line).1.origin = a.origin := by
  have hempty : ((a.labels line).foldl (label line) a).code.isEmpty = a.code.isEmpty :=
    congrArg Array.isEmpty (words_labels line a (a.labels line))
  rw [process_eq, origin_execute memorySize _ line (by rwa [hempty]), origin_labels]

/-- `b` is a later stage of `a`. -/
structure Continues (a b : Assembly) : Prop where
  code : a.code.Extends b.code
  wellFormed : a.code.WellFormed → b.code.WellFormed
  diagnostics : a.diagnostics.toList <+: b.diagnostics.toList
  origin : a.code.size ≠ 0 → b.origin = a.origin

theorem Continues.trans {a b c : Assembly} (h : Continues a b) (k : Continues b c) : Continues a c where
  code := h.code.trans k.code
  wellFormed ha := k.wellFormed (h.wellFormed ha)
  diagnostics := h.diagnostics.trans k.diagnostics
  origin ha := by
    have hsize := h.code.size_le
    rw [k.origin (by omega), h.origin ha]

theorem continues_report (a : Assembly) (ds : List Diagnostic) : Continues a (a.report ds) where
  code := .refl a.code
  wellFormed := id
  diagnostics := by simp [report]
  origin _ := rfl

theorem continues_process (memorySize : Nat) (a : Assembly) (line : Line) :
    Continues a (a.process memorySize line).1 where
  code := by
    rw [code_process]
    exact a.code.extends_replay_of_not_mem (link_not_mem_operations memorySize a line)
  wellFormed ha := by
    rw [code_process]
    exact ha.replay _
  diagnostics := diagnostics_process memorySize a line
  origin ha := origin_process memorySize (.inr (CodeBuffer.isEmpty_eq_false ha))

/-- Whatever follows in a run continues what was there. -/
theorem persists_continues (memorySize : Nat) : Persists memorySize Continues where
  refl a := ⟨.refl a.code, id, List.prefix_refl _, fun _ => rfl⟩
  trans := Continues.trans
  report := continues_report
  process := continues_process memorySize

end Assembly

end R64
