import R64.Proofs.Labels
import R64.Proofs.Origin
/-!
Statements that are given up. A literal that cannot be read counts as zero and its statement is carried out all the
same; a rejection, such as a wrong number of operands or a malformed address, is a fault of the statement as a whole.
Main statement: of a line with a rejection nothing is left but its labels and its errors, whatever else was wrong with
it.
-/
namespace R64

/-- The faults for which a statement is given up. -/
def Fault.isRejection : Fault → Bool
  | .instructionArity _ | .directiveArity _ | .unknownOperation _ | .invalidAddress _ | .directAddressing _
  | .addressOverflow _ _ | .memoryOverflow _ | .sourceOpen _ => true
  | _ => false

/-- Errors of this kind tell that a statement was given up. -/
def Diagnostic.isRejection (d : Diagnostic) : Bool := d.isError && d.fault.isRejection

theorem Reading.Lenient.isRejection {α : Type} {r : Reading α} (h : r.Lenient) :
    ∀ f ∈ r.faults, f.isRejection = false := by
  intro f hf
  obtain ⟨e, rfl⟩ := h f hf
  rfl

namespace Assembly

/-- What becomes of a statement: it is given up, it asks for a file, or it is carried out without a rejection. -/
inductive Outcome (line : Line) (a : Assembly) : Assembly × Option Text → Prop
  | givenUp (faults : List Fault) : Outcome line a (a.reject line faults, none)
  | asks (path : Text) : Outcome line a (a, some path)
  | carriedOut {b : Assembly} {faults : List Fault} :
    (∀ f ∈ faults, f.isRejection = false) → b.diagnostics = (a.reject line faults).diagnostics →
    Outcome line a (b, none)

section Outcomes

variable (memorySize : Nat) (a : Assembly) (line : Line)

theorem diagnostics_items (operands : List Text) :
    (operands.foldl (item line) a).diagnostics =
      (a.reject line (operands.flatMap fun s => (Reading.accept [] (Literal.data s)).faults)).diagnostics := by
  induction operands generalizing a with
  | nil => rw [List.flatMap_nil, reject_nil, List.foldl_nil]
  | cons operand operands ih =>
    rw [List.foldl_cons, ih, List.flatMap_cons, ← reject_reject]
    rfl

theorem outcome_items (operands : List Text) :
    Outcome line a ((operands.foldl (item line) a).segment line false a.code.size, none) := by
  refine .carriedOut ?_ ((diagnostics_segment _ line _ _).trans (diagnostics_items a line operands))
  intro f hf
  obtain ⟨operand, -, hf⟩ := List.mem_flatMap.mp hf
  exact (Reading.Lenient.accept _ _).isRejection f hf

/-- Where an address is refused, an offset that cannot be read may have been reported before. -/
theorem outcome_org (name operand : Text) : Outcome line a (a.org memorySize line name operand, none) := by
  unfold org
  split
  · exact .givenUp _
  · next offset _ =>
    have hlenient := (Reading.Lenient.accept 0 (Literal.integer offset)).isRejection
    generalize Reading.accept 0 (Literal.integer offset) = read at hlenient ⊢
    have hmoves := movesTo_moveTo memorySize (a.reject line read.faults) line read.value
    cases hcode : a.code.isEmpty with
    | true => exact .carriedOut hlenient (by rw [hmoves.start hcode])
    | false =>
      by_cases hrefuses : (a.reject line read.faults).Refuses memorySize read.value
      · obtain ⟨fault, hfault⟩ := hmoves.refused hcode hrefuses
        dsimp only
        rw [hfault, reject_reject]
        exact .givenUp _
      · exact .carriedOut hlenient (by rw [(hmoves.filled hcode hrefuses).2])
  · exact .givenUp _

theorem outcome_instruct (d : Declaration) (name : Text) (operands : List Text) :
    Outcome line a (a.instruct line d name operands, none) := by
  unfold instruct
  dsimp only
  split
  · next i hi =>
    have hlenient := d.read_lenient name operands hi
    exact .carriedOut hlenient.isRejection ((diagnostics_segment _ line _ _).trans (diagnostics_emit _ line i))
  · exact .givenUp _

theorem outcome_execute (s : Statement) : Outcome line a (a.execute memorySize line s) := by
  have hnone : ∀ f ∈ ([] : List Fault), f.isRejection = false := by simp
  cases s with
  | blank => exact .carriedOut hnone (by rw [reject_nil])
  | unknown name => exact .givenUp _
  | instruction d name operands => exact outcome_instruct a line d name operands
  | directive d name operands =>
    simp only [execute, direct]
    split
    · exact .asks _
    · exact outcome_org memorySize a line _ _
    · exact .carriedOut hnone (by rw [reject_nil])
    · exact outcome_items a line _
    · exact .givenUp _

end Outcomes

end Assembly

namespace Session

/-- Process tokens as those of a line and enter the file that they include. -/
def carryOut (fs : FileSystem) (memorySize : Nat) (s : Session) (line : Line) (tokens : List Text) : Session :=
  match s.assembly.processTokens memorySize line tokens with
  | (assembly, none) => { s with assembly }
  | (assembly, some path) => resolve { s with assembly } line path (fs.lookup (s.source.target path))

def reported (before after : Session) : List Diagnostic :=
  after.assembly.diagnostics.toList.drop before.assembly.diagnostics.size

variable {fs : FileSystem} {memorySize : Nat}

theorem handle_eq_carryOut (s : Session) (line : Line) :
    s.handle fs memorySize (.ok line) = s.carryOut fs memorySize line (s.assembly.tokens line) := by
  rw [handle_ok, carryOut]
  change _ = match s.assembly.process memorySize line with
    | (assembly, none) => { s with assembly }
    | (assembly, some path) => resolve { s with assembly } line path (fs.lookup (s.source.target path))
  obtain ⟨assembly, path⟩ := s.assembly.process memorySize line
  cases path <;> rfl

theorem carryOut_labels (s : Session) (line : Line) (tokens : List Text) :
    s.carryOut fs memorySize line (tokens.takeWhile Token.isLabel) =
      { s with assembly := (Statement.splitLabels tokens).1.foldl (Assembly.label line) s.assembly } := by
  rw [carryOut, Assembly.processTokens, Statement.splitLabels_takeWhile]
  rfl

/-- Remarks on labels and faults of literals are no rejections. -/
theorem any_reported {before after : Session} {remarks : List Diagnostic} (line : Line) (faults : List Fault)
    (hremarks : ∀ d ∈ remarks, d.isError = false) (hfaults : ∀ f ∈ faults, f.isRejection = false)
    (h : after.assembly.diagnostics.toList =
      before.assembly.diagnostics.toList ++ remarks ++ faults.map fun f => .error f (some line)) :
    (before.reported after).any Diagnostic.isRejection = false := by
  rw [reported, h, List.append_assoc, ← Array.length_toList, List.drop_left, List.any_append, Bool.or_eq_false_iff,
    List.any_eq_false, List.any_eq_false]
  constructor
  · intro d hd
    simp [Diagnostic.isRejection, hremarks d hd]
  · intro d hd
    obtain ⟨f, hf, rfl⟩ := List.mem_map.mp hd
    simp [Diagnostic.isRejection, Diagnostic.error, hfaults f hf]

theorem carryOut_cases (s : Session) (line : Line) (tokens : List Text) :
    let base := (Statement.splitLabels tokens).1.foldl (Assembly.label line) s.assembly
    let after := s.carryOut fs memorySize line tokens
    (∃ faults, after = { s with assembly := base.reject line faults }) ∨
      (s.reported after).any Diagnostic.isRejection = false := by
  dsimp only
  obtain ⟨remarks, hremarks, hlabels⟩ :=
    Assembly.exists_diagnostics_labels line s.assembly (Statement.splitLabels tokens).1
  unfold carryOut Assembly.processTokens
  dsimp only
  generalize (Statement.splitLabels tokens).1.foldl (Assembly.label line) s.assembly = base at hlabels ⊢
  have houtcome := Assembly.outcome_execute memorySize base line (Statement.ofTokens (Statement.splitLabels tokens).2)
  generalize base.execute memorySize line _ = result at houtcome ⊢
  cases houtcome with
  | givenUp faults => exact .inl ⟨faults, rfl⟩
  | asks path =>
    dsimp only
    rcases resolve_cases { s with assembly := base } line path (fs.lookup (s.source.target path)) with hsame | hopen
    · refine .inr (any_reported line [] hremarks (by simp) ?_)
      rw [hsame, hlabels, List.map_nil, List.append_nil]
    · exact .inl ⟨_, hopen⟩
  | carriedOut hfaults hdiagnostics =>
    refine .inr (any_reported line _ hremarks hfaults ?_)
    rw [hdiagnostics, ← hlabels]
    simp [Assembly.reject, Assembly.report]

/-- Of a line with a rejection only the labels are left: the sources, the code, the macros and the origin are as if
nothing had followed the labels, no words are recorded as those of the line, and what is reported besides are errors at
the line. -/
theorem carryOut_rejected {s : Session} {line : Line} {tokens : List Text}
    (h : (s.reported (s.carryOut fs memorySize line tokens)).any Diagnostic.isRejection) :
    let after := s.carryOut fs memorySize line tokens
    let labelled := s.carryOut fs memorySize line (tokens.takeWhile Token.isLabel)
    (∃ faults, after = { labelled with assembly := labelled.assembly.reject line faults }) ∧
      after.assembly.segments = s.assembly.segments := by
  intro after labelled
  rcases s.carryOut_cases line tokens with ⟨faults, hfaults⟩ | hnone
  · have hlabelled : labelled = _ := carryOut_labels s line tokens
    have hafter : after = _ := hfaults
    refine ⟨⟨faults, by rw [hafter, hlabelled]⟩, ?_⟩
    rw [hafter]
    exact Assembly.segments_labels line s.assembly _
  · rw [hnone] at h
    cases h

/-- An offset that cannot be read counts as zero, an address in the code: both are reported, and the label stays. -/
theorem carryOut_rejected_labelled :
    let fs : FileSystem := ⟨[([], .directory)], []⟩
    let s : Session := ⟨⟨[], "/", []⟩, { Assembly.empty with code := { CodeBuffer.empty with words := #[7] } }⟩
    let line : Line := ⟨"f", 2, "l: .org [0x100000000]"⟩
    let after := s.handle fs 8 (.ok line)
    let labelled := s.carryOut fs 8 line [↑"l:"]
    (s.reported after).any Diagnostic.isRejection ∧ labelled.assembly.code.definition? "l" = some ⟨1, line⟩ ∧
    (∃ faults, after = { labelled with assembly := labelled.assembly.reject line faults }) ∧
      after.assembly.segments = #[] := by
  intro fs s line after labelled
  have htokens : s.assembly.tokens line = [↑"l:", ↑".org", ↑"[0x100000000]"] := by decide +kernel
  have hafter : after = s.carryOut fs 8 line [↑"l:", ↑".org", ↑"[0x100000000]"] := by
    rw [← htokens]
    exact handle_eq_carryOut s line
  rw [hafter]
  have hrejection : (s.reported (s.carryOut fs 8 line [↑"l:", ↑".org", ↑"[0x100000000]"])).any
      Diagnostic.isRejection := by
    decide +kernel
  exact ⟨hrejection, rfl, carryOut_rejected hrejection⟩

end Session

end R64
