import R64.Proofs.Run
import R64.Proofs.Transport
/-!
Outlines of assemblies. The outline of an assembly has no macros and knows each line by its file and number only. Main
statements: a statement that defines no macro does the same to an outline as to the assembly, and the outline gives the
same report up to the texts of lines.
-/
namespace R64

/-- The macro that a statement defines, which takes exactly a name and a replacement. -/
def Statement.definition? : Statement → Option (Text × Text)
  | .directive .macroDef _ [name, replacement] => some (name, replacement)
  | _ => none

theorem Statement.eq_of_definition? {s : Statement} {d : Text × Text} (h : s.definition? = some d) :
    ∃ name, s = .directive .macroDef name [d.1, d.2] := by
  unfold definition? at h
  split at h
  · next name _ _ =>
    cases h
    exact ⟨name, rfl⟩
  · cases h

/-- The path of the file that a statement includes. -/
def Statement.inclusion? : Statement → Option Text
  | .directive .inc _ [path] => some path
  | _ => none

def Line.untexted (l : Line) : Line := { l with text := [] }

/-- The report without the texts of the lines in it. -/
def Report.untexted (r : Report) : Report :=
  { r with
    diagnostics := r.diagnostics.map (·.transport Line.untexted)
    segments := r.segments.map fun s => { s with line := s.line.untexted } }

namespace Assembly

def withMacros (a : Assembly) (m : Macros) : Assembly := { a with macros := m }

def outline (a : Assembly) : Assembly := (a.transport 0 Line.untexted).withMacros .empty

variable (m : Macros)

theorem label_withMacros (line : Line) (a : Assembly) (name : Text) :
    label line (a.withMacros m) name = (label line a name).withMacros m := by
  unfold label withMacros
  dsimp only
  split <;> rfl

theorem labels_withMacros (line : Line) (a : Assembly) (names : List Text) :
    names.foldl (label line) (a.withMacros m) = (names.foldl (label line) a).withMacros m := by
  induction names generalizing a with
  | nil => rfl
  | cons name names ih => rw [List.foldl_cons, label_withMacros, ih, List.foldl_cons]

theorem segment_withMacros (a : Assembly) (line : Line) (isInstruction : Bool) (start : Nat) :
    (a.withMacros m).segment line isInstruction start = (a.segment line isInstruction start).withMacros m := by
  unfold segment withMacros
  dsimp only
  split <;> rfl

theorem moveTo_withMacros (memorySize : Nat) (a : Assembly) (line : Line) (address : Word) :
    (a.withMacros m).moveTo memorySize line address = (a.moveTo memorySize line address).withMacros m := by
  unfold moveTo withMacros
  dsimp only
  split
  · rfl
  · split
    · rfl
    · split
      · rfl
      · split <;> rfl

theorem org_withMacros (memorySize : Nat) (a : Assembly) (line : Line) (name operand : Text) :
    (a.withMacros m).org memorySize line name operand = (a.org memorySize line name operand).withMacros m := by
  unfold org
  split
  · rfl
  · exact moveTo_withMacros m memorySize (a.reject line _) line _
  · rfl

theorem items_withMacros (line : Line) (a : Assembly) (operands : List Text) :
    operands.foldl (item line) (a.withMacros m) = (operands.foldl (item line) a).withMacros m := by
  induction operands generalizing a with
  | nil => rfl
  | cons operand operands ih => exact ih (item line a operand)

theorem instruct_withMacros (a : Assembly) (line : Line) (d : Declaration) (name : Text) (operands : List Text) :
    (a.withMacros m).instruct line d name operands = (a.instruct line d name operands).withMacros m := by
  have hemit (b : Assembly) (i : Instruction) : (b.withMacros m).emit line i = (b.emit line i).withMacros m := by
    unfold emit
    dsimp only
    split <;> rfl
  unfold instruct
  dsimp only
  split
  · next i _ =>
    change ((((a.reject line _).withMacros m).emit line i).segment line true _) = _
    rw [hemit, segment_withMacros]
    rfl
  · rfl

/-- Only a definition touches the macros, and nothing that a statement does looks at them. -/
theorem execute_withMacros (memorySize : Nat) (a : Assembly) (line : Line) {s : Statement}
    (h : s.definition? = none) :
    (a.withMacros m).execute memorySize line s =
      ((a.execute memorySize line s).1.withMacros m, (a.execute memorySize line s).2) := by
  cases s with
  | blank => rfl
  | unknown name => rfl
  | instruction d name operands => simp only [execute, instruct_withMacros]
  | directive d name operands =>
    simp only [execute, direct]
    split
    · rfl
    · rw [org_withMacros]
    · cases h
    · rw [items_withMacros, segment_withMacros]
      rfl
    · rfl

theorem execute_of_definition? (memorySize : Nat) (a : Assembly) (line : Line) {s : Statement} {d : Text × Text}
    (h : s.definition? = some d) :
    a.execute memorySize line s = (a.withMacros (a.macros.define d.1 d.2), none) := by
  obtain ⟨name, rfl⟩ := Statement.eq_of_definition? h
  rfl

theorem labels_outline (line : Line) (a : Assembly) (names : List Text) :
    names.foldl (label line.untexted) a.outline = (names.foldl (label line) a).outline := by
  rw [outline, labels_withMacros, labels_transport]
  rfl

theorem execute_outline (memorySize : Nat) (a : Assembly) (line : Line) {s : Statement} (h : s.definition? = none) :
    a.outline.execute memorySize line.untexted s =
      ((a.execute memorySize line s).1.outline, (a.execute memorySize line s).2) := by
  rw [outline, execute_withMacros .empty memorySize _ _ h, execute_transport_zero]
  rfl

theorem macros_labels (line : Line) (a : Assembly) (names : List Text) :
    (names.foldl (label line) a).macros = a.macros := by
  have hsame := congrArg Assembly.macros (labels_withMacros a.macros line a names)
  exact hsame

theorem macros_execute (memorySize : Nat) (a : Assembly) (line : Line) {s : Statement} (h : s.definition? = none) :
    (a.execute memorySize line s).1.macros = a.macros := by
  have hsame := congrArg (·.1.macros) (execute_withMacros a.macros memorySize a line h)
  exact hsame

/-- The file to be entered behind a line is the one that its statement includes. -/
theorem execute_snd (memorySize : Nat) (a : Assembly) (line : Line) (s : Statement) :
    (a.execute memorySize line s).2 = s.inclusion? := by
  cases s with
  | blank => rfl
  | unknown name => rfl
  | instruction d name operands => rfl
  | directive d name operands =>
    simp only [execute, direct]
    split
    · rfl
    · rfl
    · rfl
    · rfl
    · next hinc _ _ _ =>
      unfold Statement.inclusion?
      split
      · next heq =>
        cases heq
        exact absurd rfl (hinc _ rfl)
      · rfl

end Assembly

namespace CodeBuffer

variable (g : Line → Line) (b : CodeBuffer)

theorem patch_transport_zero (words : Array Word) (r : Reference) :
    (b.transport 0 g).patch words (r.transport g) = b.patch words r := by
  have hdefinition : (b.transport 0 g).definition? (r.transport g).label =
      (b.definition? r.label).map (·.transport 0 g) := definition?_transport 0 g b r.label
  unfold patch
  rw [hdefinition]
  cases b.definition? r.label with
  | none => rfl
  | some d => simp [Definition.transport, Reference.transport]

theorem words_link_transport_zero : (b.transport 0 g).link.words = b.link.words := by
  have hreferences : (b.transport 0 g).references = b.references.map (·.transport g) := rfl
  change (b.transport 0 g).references.foldl (b.transport 0 g).patch b.words = b.references.foldl b.patch b.words
  rw [hreferences, Array.foldl_map]
  simp only [patch_transport_zero]

theorem symbols_link_transport_zero : (b.transport 0 g).link.symbols = b.link.symbols := by
  simp [link, symbols, CodeBuffer.transport, Definition.transport, Function.comp_def]

end CodeBuffer

namespace Assembly

theorem diagnostics_finish_outline (memorySize : Nat) (a : Assembly) :
    (a.outline.finish memorySize).diagnostics = (a.finish memorySize).untexted.diagnostics := by
  have hdiagnostics : a.outline.diagnostics.toList = a.diagnostics.toList.map (·.transport Line.untexted) :=
    Array.toList_map
  have hunresolved : a.outline.code.unresolved = a.code.unresolved.map (·.transport Line.untexted) :=
    CodeBuffer.unresolved_transport 0 Line.untexted a.code
  have hsize : a.outline.code.size = a.code.size := rfl
  apply Array.toList_inj.mp
  rw [diagnostics_finish, hdiagnostics, hunresolved, hsize, Report.untexted, Array.toList_map, diagnostics_finish,
    List.map_append, List.map_append]
  split <;> rfl

/-- An outline gives the same report, without the texts of the lines in it. -/
theorem finish_outline (memorySize : Nat) (a : Assembly) :
    a.outline.finish memorySize = (a.finish memorySize).untexted := by
  have hdiagnostics := diagnostics_finish_outline memorySize a
  have herror : (a.outline.finish memorySize).diagnostics.any Diagnostic.isError =
      (a.finish memorySize).diagnostics.any Diagnostic.isError := by
    rw [hdiagnostics, Report.untexted, Array.any_map]
    rfl
  have hwords : a.outline.code.link.words = a.code.link.words :=
    CodeBuffer.words_link_transport_zero Line.untexted a.code
  have himage : (a.outline.finish memorySize).image = (a.finish memorySize).image := by
    rw [image_finish, herror, image_finish, hwords]
    rfl
  have hsegments : a.outline.segments = (a.finish memorySize).untexted.segments := by
    simp [outline, withMacros, Assembly.transport, Segment.transport, Report.untexted, finish]
  have hsymbols : a.outline.code.link.symbols = a.code.link.symbols :=
    CodeBuffer.symbols_link_transport_zero Line.untexted a.code
  exact (Report.mk.injEq ..).mpr ⟨himage, hdiagnostics, hsegments, hsymbols⟩

end Assembly

end R64
