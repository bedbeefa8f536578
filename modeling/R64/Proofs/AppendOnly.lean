import R64.Proofs.Disassembly
import R64.Proofs.Outline
/-!
Scanning only appends. Whatever a line asks for and however it fails, it adds to the words, the uses, the macros and the
messages and changes nothing that is there. Main statement: a line adds at most one use, at the last of the words that
it adds, which is a zero behind the word of a jump or a call; so until labels are resolved, every use stands at such a
zero.
-/
namespace R64

open CodeBuffer (Operation)

/-- The fields of a word that the address of a label may follow: a jump or a call that has an immediate and no
registers. -/
structure Fields.IsBranch (f : Fields) : Prop where
  opcode : f.opcode = Coded.code Opcode.jmp ∨ f.opcode = Coded.code Opcode.call
  imm : f.imm = true
  srcA : f.srcA = 0
  srcB : f.srcB = 0
  dst : f.dst = 0

/-- Only a row that takes an address reads a label, and then nothing else. -/
theorem Declaration.read_label {d : Declaration} {name : Text} {operands : List Text} {i : Instruction} {label : Text}
    (h : (d.read name operands).value = some i) (hlabel : i.trailer = .label label) :
    d.shape = .addr ∧ i = { opcode := d.opcode, func := d.func, trailer := .label label } := by
  have hgives := d.read_gives (P := fun i => ∀ label, i.trailer = .label label →
    d.shape = .addr ∧ i = { opcode := d.opcode, func := d.func, trailer := .label label }) name operands
  have hnone {i : Instruction} (htrailer : i.trailer.label? = none) {label : Text} (hi : i.trailer = .label label) :
      False := by
    rw [hi] at htrailer
    cases htrailer
  refine hgives ?_ ?_ ?_ i h label hlabel
  · intro i _ _ htrailer label hi
    exact (hnone htrailer hi).elim
  · intro _ i _ _ _ htrailer label hi
    exact (hnone htrailer hi).elim
  · rintro hshape label _ ⟨⟩
    exact ⟨hshape, rfl⟩

theorem Declaration.isBranch_of_label {d : Declaration} (hd : d ∈ table) {name : Text} {operands : List Text}
    {i : Instruction} {label : Text} (h : (d.read name operands).value = some i) (hlabel : i.trailer = .label label) :
    i.fields.IsBranch := by
  have hall : ∀ d ∈ table, d.shape = .addr → d.opcode = .jmp ∨ d.opcode = .call := by decide
  obtain ⟨hshape, rfl⟩ := read_label h hlabel
  refine ⟨?_, rfl, rfl, rfl, rfl⟩
  exact (hall d hd hshape).imp (congrArg Coded.code) (congrArg Coded.code)

namespace CodeBuffer

/-- The place of a use before labels are resolved: a zero behind a word that the address of a label may follow. -/
structure Placeholder (b : CodeBuffer) (r : Reference) : Prop where
  zero : b.words[r.position]? = some 0
  branch : ∃ i w, r.position = i + 1 ∧ b.words[i]? = some w ∧ (Fields.unpack w).IsBranch

theorem words_replay_isPrefix (b : CodeBuffer) {ops : List Operation} (h : .link ∉ ops) :
    b.words.toList <+: (b.replay ops).words.toList := by
  induction ops generalizing b with
  | nil => exact List.prefix_refl _
  | cons op ops ih =>
    obtain ⟨hop, hops⟩ := List.ne_and_not_mem_of_not_mem_cons h
    have hword : b.words.toList <+: (b.apply op).words.toList := by
      rw [words_apply b (Ne.symm hop)]
      exact List.prefix_append _ _
    exact hword.trans (ih _ hops)

theorem references_replay_of_use? {ops : List Operation} (h : ∀ op ∈ ops, op.use? = none) (b : CodeBuffer) :
    (b.replay ops).references = b.references := by
  induction ops generalizing b with
  | nil => rfl
  | cons op ops ih =>
    have hnone : usesFrom b.size (op.cells b.size) = [] := by
      have hcells := usesFrom_cells b.size b.size op
      rw [h op List.mem_cons_self] at hcells
      exact List.map_eq_nil_iff.mp hcells
    rw [replay_cons, ih fun x hx => h x (List.mem_cons_of_mem op hx), ← Array.toList_inj, references_apply, hnone,
      List.append_nil]

theorem getElem?_of_isPrefix {b c : CodeBuffer} (h : b.words.toList <+: c.words.toList) {i : Nat} {w : Word}
    (hw : b.words[i]? = some w) : c.words[i]? = some w := by
  obtain ⟨more, hmore⟩ := h
  obtain ⟨hlt, -⟩ := Array.getElem?_eq_some_iff.mp hw
  rw [← Array.getElem?_toList] at hw ⊢
  rw [← hmore, List.getElem?_append_left (by simpa using hlt), hw]

/-- What is appended leaves the places of uses alone. -/
theorem Placeholder.of_isPrefix {b c : CodeBuffer} (h : b.words.toList <+: c.words.toList) {r : Reference}
    (hr : b.Placeholder r) : c.Placeholder r := by
  obtain ⟨hzero, i, w, hposition, hw, hbranch⟩ := hr
  exact ⟨getElem?_of_isPrefix h hzero, i, w, hposition, getElem?_of_isPrefix h hw, hbranch⟩

/-- A word and a use behind it. -/
theorem placeholder_refer {b : CodeBuffer} {w : Word} (hw : (Fields.unpack w).IsBranch) (label : Text) (line : Line) :
    ((b.push w).refer label line).Placeholder ⟨label, b.size + 1, line⟩ := by
  have hlast : ((b.words.push w).push 0)[(b.words.push w).size]? = some 0 := Array.getElem?_push_size
  have hword : ((b.words.push w).push 0)[b.words.size]? = some w := by
    rw [Array.getElem?_push, Array.size_push, if_neg (by omega), Array.getElem?_push_size]
  rw [Array.size_push] at hlast
  exact ⟨hlast, b.size, w, rfl, hword, hw⟩

end CodeBuffer

namespace Assembly

variable (memorySize : Nat) (a : Assembly) (line : Line)

theorem use?_of_directive (d : Directive) (name : Text) (operands : List Text) :
    ∀ op ∈ a.emission memorySize line (.directive d name operands), op.use? = none := by
  unfold emission
  split
  · next h => cases h
  · simp [Operation.use?]
  · unfold filling
    split
    · dsimp only
      split <;> simp [Operation.use?]
    · simp
  · simp

/-- What a line emits holds no use, or it is the word of a jump or a call and a use. -/
theorem emission_cases :
    (∀ op ∈ a.emission memorySize line (a.statement line), op.use? = none) ∨
      ∃ w label, (Fields.unpack w).IsBranch ∧
        a.emission memorySize line (a.statement line) = [.push w, .refer label line] := by
  cases hstatement : a.statement line with
  | blank => exact .inl (by simp [emission])
  | unknown name => exact .inl (by simp [emission])
  | directive d name operands => exact .inl (use?_of_directive memorySize a line d name operands)
  | instruction d name operands =>
    rw [emission]
    cases hread : (d.read name operands).value with
    | none => exact .inl (by simp)
    | some i =>
      rw [Option.elim_some, Instruction.operations]
      cases htrailer : i.trailer with
      | none => exact .inl (by simp [Operation.use?])
      | word w => exact .inl (by simp [Operation.use?])
      | label label =>
        have hmem := (Declaration.of_lookup? (Statement.lookup?_of_ofTokens hstatement)).1
        refine .inr ⟨i.fields.pack, label, ?_, rfl⟩
        rw [i.unpack_pack_fields]
        exact Declaration.isBranch_of_label hmem hread htrailer

/-- `b` has what `a` has and more behind it. There is at most one use more, and it stands at the last word, a zero
behind a jump or a call, both of them new. -/
structure Appends (a b : Assembly) : Prop where
  words : a.code.words.toList <+: b.code.words.toList
  uses : ∃ added : Option Reference, b.code.references.toList = a.code.references.toList ++ added.toList ∧
    ∀ r ∈ added, b.code.Placeholder r ∧ r.position + 1 = b.code.size ∧ a.code.size < r.position
  definitions : ∀ label d, a.code.definition? label = some d → b.code.definition? label = some d
  macros : a.macros.definitions.toList <+: b.macros.definitions.toList
  diagnostics : a.diagnostics.toList <+: b.diagnostics.toList

theorem Appends.report {a b : Assembly} (h : Appends a b) (ds : List Diagnostic) : Appends a (b.report ds) where
  words := h.words
  uses := h.uses
  definitions := h.definitions
  macros := h.macros
  diagnostics := h.diagnostics.trans (continues_report b ds).diagnostics

theorem Appends.refl (a : Assembly) : Appends a a where
  words := List.prefix_refl _
  uses := ⟨none, by simp, by simp⟩
  definitions _ _ h := h
  macros := List.prefix_refl _
  diagnostics := List.prefix_refl _

theorem exists_use_process :
    ∃ added : Option Reference,
      (a.process memorySize line).1.code.references.toList = a.code.references.toList ++ added.toList ∧
      ∀ r ∈ added, (a.process memorySize line).1.code.Placeholder r ∧
        r.position + 1 = (a.process memorySize line).1.code.size ∧ a.code.size < r.position := by
  have hreferences := references_labels line a (a.labels line)
  have hsize : ((a.labels line).foldl (label line) a).code.size = a.code.size :=
    congrArg Array.size (words_labels line a (a.labels line))
  rw [process_eq, code_execute, emission_congr (words_labels line a _) (origin_labels line a _)]
  generalize ((a.labels line).foldl (label line) a).code = b at hreferences hsize
  rcases emission_cases memorySize a line with hnone | ⟨w, name, hbranch, hemission⟩
  · refine ⟨none, ?_, by simp⟩
    rw [CodeBuffer.references_replay_of_use? hnone, hreferences]
    simp
  · refine ⟨some ⟨name, b.size + 1, line⟩, ?_, ?_⟩
    · rw [hemission, ← hreferences]
      simp [CodeBuffer.apply, CodeBuffer.refer, CodeBuffer.push, CodeBuffer.size]
    · rintro r ⟨⟩
      rw [hemission]
      refine ⟨CodeBuffer.placeholder_refer hbranch name line, ?_, ?_⟩
      · simp [CodeBuffer.apply, CodeBuffer.refer, CodeBuffer.push, CodeBuffer.size]
      · dsimp only
        omega

theorem macros_process_isPrefix :
    a.macros.definitions.toList <+: (a.process memorySize line).1.macros.definitions.toList := by
  rw [process_eq]
  cases h : (a.statement line).definition? with
  | none =>
    simp only [macros_execute memorySize _ line h, macros_labels, List.prefix_refl]
  | some d =>
    rw [execute_of_definition? memorySize _ line h, macros_labels, withMacros, Macros.define, Array.toList_push]
    exact List.prefix_append _ _

theorem appends_process : Appends a (a.process memorySize line).1 where
  words := by
    rw [code_process]
    exact a.code.words_replay_isPrefix (link_not_mem_operations memorySize a line)
  uses := exists_use_process memorySize a line
  definitions _ _ h := (continues_process memorySize a line).code.definition? h
  macros := macros_process_isPrefix memorySize a line
  diagnostics := diagnostics_process memorySize a line

/-- Every use stands at a placeholder. -/
def Pending (a : Assembly) : Prop := ∀ r ∈ a.code.references, a.code.Placeholder r

theorem pending_empty : empty.Pending := by
  simp [Pending, empty, CodeBuffer.empty]

theorem Pending.of_appends {a b : Assembly} (h : a.Pending) (hb : Appends a b) : b.Pending := by
  obtain ⟨added, hadded, hplace⟩ := hb.uses
  intro r hr
  rw [← Array.mem_toList_iff, hadded, List.mem_append, Option.mem_toList, Array.mem_toList_iff] at hr
  rcases hr with hr | hr
  · exact (h r hr).of_isPrefix hb.words
  · exact (hplace r hr).1

end Assembly

namespace Session

open Assembly (Appends)

variable {fs : FileSystem} {memorySize : Nat} {source : SourceStack}

/-- The sessions of a run: the one that it begins with, and with every session the one after its next line or failure.
-/
inductive Reachable (fs : FileSystem) (memorySize : Nat) (source : SourceStack) : Session → Prop
  | start : Reachable fs memorySize source ⟨source, .empty⟩
  | step {s : Session} {item : Except Fault Line} {rest : SourceStack} :
    Reachable fs memorySize source s → s.source.next = (some item, rest) →
    Reachable fs memorySize source (handle fs memorySize { s with source := rest } item)

theorem appends_handle (fs : FileSystem) (memorySize : Nat) (s : Session) (item : Except Fault Line) :
    Appends s.assembly (s.handle fs memorySize item).assembly := by
  cases item with
  | error fault => exact (Appends.refl s.assembly).report _
  | ok line =>
    obtain ⟨ds, hds⟩ := assembly_handle_ok fs memorySize s line
    rw [hds]
    exact (Assembly.appends_process memorySize s.assembly line).report ds

theorem Reachable.pending {s : Session} (h : Reachable fs memorySize source s) : s.assembly.Pending := by
  induction h with
  | start => exact Assembly.pending_empty
  | @step s item rest _ _ ih => exact ih.of_appends (appends_handle fs memorySize { s with source := rest } item)

/-- The scan of a session of a run ends with a session of the run. -/
theorem Reachable.scan {s : Session} (h : Reachable fs memorySize source s) :
    ∃ t, Reachable fs memorySize source t ∧ t.assembly = s.scan fs memorySize := by
  induction s using scan_induction fs memorySize with
  | done s rest hnext => exact ⟨s, h, (scan_of_none hnext).symm⟩
  | take s item rest hnext ih =>
    rw [scan_of_some hnext]
    exact ih (h.step hnext)

/-- In every session of a run, whatever line or failure comes next only adds to the assembly, and every use stands at a
placeholder. This holds up to the session that the run ends with, whose labels are then resolved. -/
theorem reachable_appendOnly (fs : FileSystem) (memorySize : Nat) (source : SourceStack) :
    (∀ s, Reachable fs memorySize source s →
      (∀ rest item, Appends s.assembly (handle fs memorySize { s with source := rest } item).assembly) ∧
        ∀ r ∈ s.assembly.code.references, s.assembly.code.Placeholder r) ∧
    ∃ s, Reachable fs memorySize source s ∧ s.assembly = scan fs memorySize ⟨source, .empty⟩ := by
  refine ⟨fun s hs => ⟨fun rest item => ?_, hs.pending⟩, Reachable.start.scan⟩
  exact appends_handle fs memorySize { s with source := rest } item

/-- A jump to its own label, behind which a call follows that has too many operands. -/
theorem reachable_appendOnly_loop :
    let source := SourceStack.ofText "" "loop" "here: jmp here\nhere: call here, here"
    let line : Line := ⟨"loop", 1, "here: jmp here"⟩
    let s := handle ⟨[], []⟩ 4 ⟨source.next.2, .empty⟩ (.ok line)
    Reachable ⟨[], []⟩ 4 source s ∧ s.assembly.code.references = #[⟨"here", 1, line⟩] ∧
      s.assembly.code.Placeholder ⟨"here", 1, line⟩ ∧
      Appends s.assembly (s.handle ⟨[], []⟩ 4 (.ok ⟨"loop", 2, "here: call here, here"⟩)).assembly := by
  intro source line s
  have hnext : source.next = (some (.ok line), source.next.2) := by decide +kernel
  have hreachable : Reachable ⟨[], []⟩ 4 source s := Reachable.start.step hnext
  have huses : s.assembly.code.references = #[⟨"here", 1, line⟩] := by decide +kernel
  obtain ⟨happends, hplace⟩ := (reachable_appendOnly ⟨[], []⟩ 4 source).1 s hreachable
  exact ⟨hreachable, huses, hplace _ (by simp [huses]), happends s.source _⟩

end Session

end R64
