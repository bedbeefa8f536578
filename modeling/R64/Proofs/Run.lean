import R64.Assembly.Run
import R64.Proofs.Layout
import R64.Proofs.Process
/-!
Whole runs. The lines that a run processes, each with the state that it meets, give the history of the code. Main
statement: a run has an image exactly if it reports no error, the image shows the layout of the history with zeros
behind it, and the unresolved symbols are the uses that the history leaves without a definition.
-/
namespace R64

open CodeBuffer (Operation)

namespace Session

variable (fs : FileSystem) (memorySize : Nat)

/-- The lines that are processed from here on, each with the assembly as the line finds it. -/
def visits (s : Session) : List (Assembly × Line) :=
  match h : s.source.next with
  | (none, _) => []
  | (some item, source) =>
    have := weight_handle_lt fs memorySize h
    (item.toOption.map fun line => (s.assembly, line)).toList ++
      visits (handle fs memorySize { s with source } item)
termination_by s.source.weight fs

def history (s : Session) : List Operation :=
  (s.visits fs memorySize).flatMap fun v => v.1.operations memorySize v.2

variable {fs memorySize}

theorem scan_of_none {s : Session} {source : SourceStack} (h : s.source.next = (none, source)) :
    s.scan fs memorySize = s.assembly := by
  rw [scan]
  split
  · rfl
  · next heq =>
    rw [step_of_none h] at heq
    cases heq

theorem scan_of_some {s : Session} {source : SourceStack} {item : Except Fault Line}
    (h : s.source.next = (some item, source)) :
    s.scan fs memorySize = (handle fs memorySize { s with source } item).scan fs memorySize := by
  rw [scan]
  split
  · next heq =>
    rw [step_of_some h] at heq
    cases heq
  · next heq =>
    rw [step_of_some h] at heq
    cases heq
    rfl

/-- A scan is at its end, or it takes an item and goes on. -/
theorem scan_induction (fs : FileSystem) (memorySize : Nat) {motive : Session → Prop}
    (done : ∀ (s : Session) (source : SourceStack), s.source.next = (none, source) → motive s)
    (take : ∀ (s : Session) (item : Except Fault Line) (source : SourceStack), s.source.next = (some item, source) →
      motive (handle fs memorySize { s with source } item) → motive s) (s : Session) : motive s := by
  induction s using scan.induct fs memorySize with
  | case1 s hstep =>
    rcases hnext : s.source.next with ⟨_ | item, source⟩
    · exact done s source hnext
    · rw [step_of_some hnext] at hstep
      cases hstep
  | case2 s t hstep _ ih =>
    rcases hnext : s.source.next with ⟨_ | item, source⟩
    · exact done s source hnext
    · rw [step_of_some hnext] at hstep
      cases hstep
      exact take s item source hnext ih

theorem visits_of_none {s : Session} {source : SourceStack} (h : s.source.next = (none, source)) :
    s.visits fs memorySize = [] := by
  rw [visits]
  split
  · rfl
  · next heq =>
    rw [h] at heq
    cases heq

theorem visits_of_some {s : Session} {source : SourceStack} {item : Except Fault Line}
    (h : s.source.next = (some item, source)) :
    s.visits fs memorySize =
      (item.toOption.map fun line => (s.assembly, line)).toList ++
        (handle fs memorySize { s with source } item).visits fs memorySize := by
  rw [visits]
  split
  · next heq =>
    rw [h] at heq
    cases heq
  · next heq =>
    rw [h] at heq
    cases heq
    rfl

theorem handle_ok (s : Session) (line : Line) :
    s.handle fs memorySize (.ok line) =
      match (s.assembly.process memorySize line).2 with
      | none => { s with assembly := (s.assembly.process memorySize line).1 }
      | some path =>
        resolve { s with assembly := (s.assembly.process memorySize line).1 } line path
          (fs.lookup (s.source.target path)) := by
  cases h : (s.assembly.process memorySize line).2 <;> simp [handle_eq, absorb, h]

/-- Entering a file leaves the assembly alone; a file that cannot be entered is an error at the line, and nothing else
changes. -/
theorem resolve_cases (s : Session) (line : Line) (path : Text) (lookup : Lookup) :
    (s.resolve line path lookup).assembly = s.assembly ∨
      s.resolve line path lookup = { s with assembly := s.assembly.reject line [.sourceOpen (Text.unquote path)] } := by
  unfold resolve SourceStack.enter
  split
  · next fault h =>
    split at h
    · cases h
    · split at h
      · cases h
      · cases h
        exact .inr rfl
  · exact .inl rfl

theorem assembly_resolve (s : Session) (line : Line) (path : Text) (lookup : Lookup) :
    (s.resolve line path lookup).assembly = s.assembly ∨
      (s.resolve line path lookup).assembly = s.assembly.reject line [.sourceOpen (Text.unquote path)] := by
  rcases resolve_cases s line path lookup with h | h
  · exact .inl h
  · exact .inr (by rw [h])

theorem code_handle_ok (s : Session) (line : Line) :
    (s.handle fs memorySize (.ok line)).assembly.code =
      s.assembly.code.replay (s.assembly.operations memorySize line) := by
  rw [← Assembly.code_process, handle_ok]
  split
  · rfl
  · next path _ =>
    rcases assembly_resolve { s with assembly := (s.assembly.process memorySize line).1 } line path
      (fs.lookup (s.source.target path)) with h | h
    · rw [h]
    · rw [h, Assembly.code_reject]

/-- The code at the end of a scan comes about by the history. -/
theorem code_scan (fs : FileSystem) (memorySize : Nat) (s : Session) :
    (s.scan fs memorySize).code = s.assembly.code.replay (s.history fs memorySize) := by
  induction s using scan_induction fs memorySize with
  | done s source h => rw [scan_of_none h, history, visits_of_none h]; rfl
  | take s item source h ih =>
    rw [scan_of_some h, ih, history, history, visits_of_some h]
    cases item with
    | error fault => rfl
    | ok line =>
      rw [code_handle_ok, ← CodeBuffer.replay_append]
      rfl

theorem link_not_mem_history (fs : FileSystem) (memorySize : Nat) (s : Session) : .link ∉ s.history fs memorySize := by
  simp [history, Assembly.link_not_mem_operations]

end Session

namespace Diagnostic

/-- Whether a diagnostic is about a label that is used and not defined. -/
def isUnresolved (d : Diagnostic) : Bool :=
  match d.fault with
  | .unresolvedSymbol _ => true
  | _ => false

theorem not_isUnresolved_of_ofStatement {f : Fault} (h : f.ofStatement) (line : Option Line) :
    (error f line).isUnresolved = false := by
  cases f <;> first | rfl | cases h

end Diagnostic

namespace Assembly

def unresolved (a : Assembly) : List Diagnostic := a.diagnostics.toList.filter Diagnostic.isUnresolved

theorem unresolved_of_reports {line : Line} {a b : Assembly} (h : Reports line a b) : b.unresolved = a.unresolved := by
  obtain ⟨faults, hfaults, heq⟩ := h
  rw [unresolved, heq, List.filter_append, List.append_right_eq_self.mpr]
  · rfl
  · rw [List.filter_eq_nil_iff]
    intro d hd
    obtain ⟨f, hf, rfl⟩ := List.mem_map.mp hd
    simp [Diagnostic.not_isUnresolved_of_ofStatement (hfaults f hf)]

theorem unresolved_label (line : Line) (a : Assembly) (name : Text) :
    (label line a name).unresolved = a.unresolved := by
  rw [unresolved, diagnostics_label, List.filter_append, labelDiagnostics]
  split <;> simp [unresolved, Diagnostic.isUnresolved]

theorem unresolved_labels (line : Line) (a : Assembly) (names : List Text) :
    (names.foldl (label line) a).unresolved = a.unresolved :=
  foldl_unchanged unresolved (unresolved_label line) names a

/-- Processing a line reports no unresolved symbol. -/
theorem unresolved_process (memorySize : Nat) (a : Assembly) (line : Line) :
    (a.process memorySize line).1.unresolved = a.unresolved := by
  rw [process_eq, unresolved_of_reports (reports_execute memorySize _ line _), unresolved_labels]

end Assembly

namespace SourceStack

/-- A failure that the sources give is a file that cannot be read. -/
theorem eq_fileRead_of_take {frames rest : List Frame} {fault : Fault}
    (h : take frames = (some (.error fault), rest)) : ∃ name, fault = .fileRead name := by
  induction frames with
  | nil => cases h
  | cons f fs ih =>
    unfold take at h
    split at h
    · cases h
      exact ⟨f.name, rfl⟩
    · exact ih h
    · cases h

theorem eq_fileRead_of_next {s s' : SourceStack} {fault : Fault} (h : s.next = (some (.error fault), s')) :
    ∃ name, fault = .fileRead name := by
  have htake : take s.frames = (some (.error fault), (take s.frames).2) := Prod.ext (Prod.mk.inj h).1 rfl
  exact eq_fileRead_of_take htake

end SourceStack

theorem Session.unresolved_handle {fs : FileSystem} {memorySize : Nat} {s : Session} {source : SourceStack}
    {item : Except Fault Line} (h : s.source.next = (some item, source)) :
    (handle fs memorySize { s with source } item).assembly.unresolved = s.assembly.unresolved := by
  cases item with
  | error fault =>
    obtain ⟨name, rfl⟩ := SourceStack.eq_fileRead_of_next h
    simp [handle_eq, absorb, Assembly.unresolved, Assembly.report, Diagnostic.isUnresolved, Diagnostic.error]
  | ok line =>
    rw [← Assembly.unresolved_process memorySize s.assembly line, handle_ok]
    split
    · rfl
    · next path _ =>
      rcases assembly_resolve ⟨source, (s.assembly.process memorySize line).1⟩ line path
        (fs.lookup (source.target path)) with h | h
      · rw [h]
      · rw [h]
        simp [Assembly.unresolved, Assembly.reject, Assembly.report, Diagnostic.isUnresolved, Diagnostic.error]

theorem Session.unresolved_scan (fs : FileSystem) (memorySize : Nat) (s : Session) :
    (s.scan fs memorySize).unresolved = s.assembly.unresolved := by
  induction s using scan_induction fs memorySize with
  | done s source h => rw [scan_of_none h]
  | take s item source h ih => rw [scan_of_some h, ih, unresolved_handle h]

namespace Assembly

open CodeBuffer (Depicts)

theorem any_isError {ds : Array Diagnostic} : ds.any Diagnostic.isError ↔ ∃ d ∈ ds, d.level = .error := by
  rw [Array.any_eq_true']
  simp only [Diagnostic.isError, beq_iff_eq]

theorem diagnostics_finish (memorySize : Nat) (a : Assembly) :
    (a.finish memorySize).diagnostics.toList =
      a.diagnostics.toList ++ a.code.unresolved ++
        if memorySize < a.code.size then [.error (.memoryOverflow (a.code.size - memorySize)) none] else [] := by
  by_cases h : memorySize < a.code.size <;> simp [finish, CodeBuffer.image, report, h]

theorem isUnresolved_of_mem_unresolved {b : CodeBuffer} {d : Diagnostic} (h : d ∈ b.unresolved) : d.isUnresolved := by
  obtain ⟨r, -, rfl⟩ := List.mem_map.mp h
  rfl

theorem unresolved_finish (memorySize : Nat) (a : Assembly) :
    (a.finish memorySize).diagnostics.toList.filter Diagnostic.isUnresolved = a.unresolved ++ a.code.unresolved := by
  have overflow : (if memorySize < a.code.size then
      [Diagnostic.error (.memoryOverflow (a.code.size - memorySize)) none] else []).filter
        Diagnostic.isUnresolved = [] := by
    split <;> rfl
  rw [diagnostics_finish, List.filter_append, List.filter_append, overflow, List.append_nil,
    List.filter_eq_self.mpr fun d => isUnresolved_of_mem_unresolved]
  rfl

/-- A report has an image exactly if it has no error: code that does not fit into the memory is an error too. -/
theorem image_finish (memorySize : Nat) (a : Assembly) :
    (a.finish memorySize).image =
      if (a.finish memorySize).diagnostics.any Diagnostic.isError then none
      else some (a.code.link.words ++ Array.replicate (memorySize - a.code.size) 0) := by
  by_cases h : memorySize < a.code.size
  · have overflow : (a.finish memorySize).diagnostics.any Diagnostic.isError := by
      refine any_isError.mpr ⟨.error (.memoryOverflow (a.code.size - memorySize)) none, ?_, rfl⟩
      rw [← Array.mem_toList_iff, diagnostics_finish, if_pos h]
      simp
    rw [if_pos overflow]
    simp [finish, CodeBuffer.image, h, Except.toOption]
  · simp [finish, CodeBuffer.image, h, Except.toOption]

theorem isSome_image_finish (memorySize : Nat) (a : Assembly) :
    (a.finish memorySize).image.isSome ↔ ∀ d ∈ (a.finish memorySize).diagnostics, d.level ≠ .error := by
  rw [image_finish]
  split
  · next h => simpa using any_isError.mp h
  · next h =>
    rw [any_isError] at h
    simpa using h

/-- Where there is an image, the code fits into the memory and every use has a definition. -/
theorem of_image_finish {memorySize : Nat} {a : Assembly} {image : Array Word}
    (h : (a.finish memorySize).image = some image) :
    a.code.size ≤ memorySize ∧ a.code.unresolved = [] ∧
      image = a.code.link.words ++ Array.replicate (memorySize - a.code.size) 0 := by
  have noError := (isSome_image_finish memorySize a).mp (by rw [h]; rfl)
  simp only [← Array.mem_toList_iff, diagnostics_finish, List.mem_append] at noError
  refine ⟨?_, ?_, ?_⟩
  · apply Nat.le_of_not_lt
    intro hlt
    exact noError _ (.inr (by rw [if_pos hlt]; exact List.mem_singleton_self _)) rfl
  · apply List.eq_nil_iff_forall_not_mem.mpr
    intro d hd
    refine noError d (.inl (.inr hd)) ?_
    obtain ⟨r, -, rfl⟩ := List.mem_map.mp hd
    rfl
  · rw [image_finish] at h
    split at h
    · cases h
    · exact (Option.some.inj h).symm

/-- The lines that a run processes, each with the assembly as the line finds it. A run that is refused for its memory
reads nothing. -/
def visits (fs : FileSystem) (memorySize : Nat) (source : SourceStack) : List (Assembly × Line) :=
  if memoryLimit < memorySize then [] else Session.visits fs memorySize ⟨source, .empty⟩

def history (fs : FileSystem) (memorySize : Nat) (source : SourceStack) : List Operation :=
  (visits fs memorySize source).flatMap fun v => v.1.operations memorySize v.2

theorem history_of_not_lt {memorySize : Nat} (h : ¬ memoryLimit < memorySize) (fs : FileSystem)
    (source : SourceStack) :
    history fs memorySize source = Session.history fs memorySize ⟨source, .empty⟩ := by
  rw [history, visits, if_neg h, Session.history]

theorem visits_of_not_lt {memorySize : Nat} (h : ¬ memoryLimit < memorySize) (fs : FileSystem)
    (source : SourceStack) :
    visits fs memorySize source = Session.visits fs memorySize ⟨source, .empty⟩ := by
  rw [visits, if_neg h]

theorem run_of_lt {memorySize : Nat} (h : memoryLimit < memorySize) (fs : FileSystem) (source : SourceStack) :
    run fs memorySize source = ⟨none, #[.error (.memorySize memorySize memoryLimit) none], #[], #[]⟩ := by
  rw [run_eq, if_pos h]

theorem run_of_not_lt {memorySize : Nat} (h : ¬ memoryLimit < memorySize) (fs : FileSystem) (source : SourceStack) :
    run fs memorySize source = (Session.scan fs memorySize ⟨source, .empty⟩).finish memorySize := by
  rw [run_eq, if_neg h]

theorem isSome_image_run (fs : FileSystem) (memorySize : Nat) (source : SourceStack) :
    (run fs memorySize source).image.isSome ↔ ∀ d ∈ (run fs memorySize source).diagnostics, d.level ≠ .error := by
  by_cases hlimit : memoryLimit < memorySize
  · simp [run_of_lt hlimit, Diagnostic.error]
  · rw [run_of_not_lt hlimit]
    exact isSome_image_finish memorySize _

theorem size_of_image_run {fs : FileSystem} {memorySize : Nat} {source : SourceStack} {image : Array Word}
    (h : (run fs memorySize source).image = some image) : image.size = memorySize := by
  by_cases hlimit : memoryLimit < memorySize
  · rw [run_of_lt hlimit] at h
    cases h
  · rw [run_of_not_lt hlimit] at h
    obtain ⟨hsize, -, rfl⟩ := of_image_finish h
    have hlinked : (Session.scan fs memorySize ⟨source, .empty⟩).code.link.words.size =
        (Session.scan fs memorySize ⟨source, .empty⟩).code.size := CodeBuffer.size_link _
    rw [Array.size_append, Array.size_replicate, hlinked]
    omega

/-- A run has an image exactly if it reports no error, and the image depicts what the run has put into the code. Each
use of a label without a definition is reported once, at its line and in the order of the uses. -/
theorem run_image (fs : FileSystem) (memorySize : Nat) (source : SourceStack) :
    let r := run fs memorySize source
    let ops := history fs memorySize source
    (r.image.isSome ↔ ∀ d ∈ r.diagnostics, d.level ≠ .error) ∧
    (∀ image, r.image = some image → Depicts ops memorySize image) ∧
    r.diagnostics.toList.filter Diagnostic.isUnresolved =
      ((ops.filterMap Operation.use?).filter fun u => !ops.any (·.defines u.1)).map
        fun u => .error (.unresolvedSymbol u.1) (some u.2) := by
  by_cases hlimit : memoryLimit < memorySize
  · simp [run_eq, history, visits, hlimit, Diagnostic.error, Diagnostic.isUnresolved]
  rw [run_of_not_lt hlimit, history_of_not_lt hlimit]
  have hcode := Session.code_scan fs memorySize ⟨source, .empty⟩
  have hlink := Session.link_not_mem_history fs memorySize ⟨source, .empty⟩
  refine ⟨isSome_image_finish memorySize _, ?_, ?_⟩
  · intro image h
    obtain ⟨hsize, hresolved, rfl⟩ := of_image_finish h
    rw [hcode] at hsize hresolved ⊢
    exact CodeBuffer.depicts_link_replay hlink hsize hresolved
  · rw [unresolved_finish, Session.unresolved_scan, hcode]
    exact CodeBuffer.unresolved_replay hlink

end Assembly

end R64
