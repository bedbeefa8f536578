import R64.Proofs.Progress
/-!
Segments. A line whose statement is an instruction or data owns the words that it adds; all other words are fillings.
Main statements: the segments of a run are those that its lines contribute, in order; they lie apart and in order inside
the code; what lies outside of them is zero and no place of a use; and the segment of an instruction holds the word of
the instruction and what follows it, and nothing else.
-/
namespace R64

/-- Whether the words of a statement belong to its line, and if so whether they are an instruction. -/
def Statement.emits? : Statement → Option Bool
  | .instruction _ _ _ => some true
  | .directive .dw _ _ => some false
  | _ => none

theorem Statement.eq_instruction_of_emits? {s : Statement} (h : s.emits? = some true) :
    ∃ d name operands, s = .instruction d name operands := by
  unfold emits? at h
  split at h
  · exact ⟨_, _, _, rfl⟩
  · cases h
  · cases h

theorem Statement.isMove_of_emits? {s : Statement} {isInstruction : Bool} (h : s.emits? = some isInstruction) :
    s.isMove = false := by
  unfold emits? at h
  split at h
  · rfl
  · rfl
  · cases h

def Segment.holds (s : Segment) (i : Nat) : Bool := decide (s.start ≤ i ∧ i < s.stop)

namespace Assembly

/-- The segment for the words that `b` has more than `a`. -/
def added (line : Line) (isInstruction : Bool) (a b : Assembly) : Option Segment :=
  if a.code.size < b.code.size then
    some
      { address := a.origin + UInt32.ofNat a.code.size, start := a.code.size, stop := b.code.size, isInstruction, line }
  else none

/-- The segment that a line contributes to a run. -/
def contribution (memorySize : Nat) (a : Assembly) (line : Line) : Option Segment :=
  (a.statement line).emits?.bind fun isInstruction => added line isInstruction a (a.process memorySize line).1

theorem added_congr {a a' b b' : Assembly} (ha : a'.code.size = a.code.size) (horigin : a'.origin = a.origin)
    (hb : b'.code.size = b.code.size) (line : Line) (isInstruction : Bool) :
    added line isInstruction a' b' = added line isInstruction a b := by
  simp only [added, ha, horigin, hb]

theorem added_of_size_eq {a b : Assembly} (h : b.code.size = a.code.size) (line : Line) (isInstruction : Bool) :
    added line isInstruction a b = none := by
  rw [added, h, if_neg (Nat.lt_irrefl _)]

theorem contribution_eq_some_iff {memorySize : Nat} {a : Assembly} {line : Line} {s : Segment} :
    a.contribution memorySize line = some s ↔
      (a.statement line).emits? = some s.isInstruction ∧ s.start < s.stop ∧ s.start = a.code.size ∧
        s.stop = (a.process memorySize line).1.code.size ∧ s.address = a.origin + UInt32.ofNat a.code.size ∧
        s.line = line := by
  simp only [contribution, added, Option.bind_eq_some_iff, Option.ite_none_right_eq_some, Option.some.injEq]
  constructor
  · rintro ⟨isInstruction, hemits, hlt, rfl⟩
    exact ⟨hemits, hlt, rfl, rfl, rfl, rfl⟩
  · rintro ⟨hemits, hlt, hstart, hstop, haddress, hline⟩
    refine ⟨s.isInstruction, hemits, by rwa [← hstart, ← hstop], ?_⟩
    rw [← haddress, ← hstart, ← hstop, ← hline]

theorem segments_segment (a b : Assembly) (hsegments : b.segments = a.segments) (horigin : b.origin = a.origin)
    (line : Line) (isInstruction : Bool) :
    (b.segment line isInstruction a.code.size).segments.toList =
      a.segments.toList ++ (added line isInstruction a b).toList := by
  unfold segment added
  split
  · simp [hsegments, horigin]
  · simp [hsegments]

theorem segments_item (line : Line) (a : Assembly) (operand : Text) : (item line a operand).segments = a.segments := rfl

theorem segments_items (line : Line) (a : Assembly) (operands : List Text) :
    (operands.foldl (item line) a).segments = a.segments :=
  foldl_unchanged segments (segments_item line) operands a

theorem segments_emit (a : Assembly) (line : Line) (i : Instruction) : (a.emit line i).segments = a.segments := by
  unfold emit
  cases i.trailer <;> rfl

theorem segments_org (memorySize : Nat) (a : Assembly) (line : Line) (name operand : Text) :
    (a.org memorySize line name operand).segments = a.segments := by
  have hmove (b : Assembly) (address : Word) : (b.moveTo memorySize line address).segments = b.segments := by
    unfold moveTo
    dsimp only
    split
    · rfl
    · split
      · rfl
      · split
        · rfl
        · split <;> rfl
  unfold org
  split
  · rfl
  · exact hmove _ _
  · rfl

theorem segments_instruct (a : Assembly) (line : Line) (d : Declaration) (name : Text) (operands : List Text) :
    (a.instruct line d name operands).segments.toList =
      a.segments.toList ++ (added line true a (a.instruct line d name operands)).toList := by
  unfold instruct
  dsimp only
  split
  · next i _ =>
    have hsegments := segments_emit (a.reject line (d.read name operands).faults) line i
    have horigin := origin_emit (a.reject line (d.read name operands).faults) line i
    rw [segments_segment a _ hsegments horigin,
      added_congr rfl rfl (congrArg CodeBuffer.size (code_segment _ line true a.code.size))]
  · have hnone : added line true a (a.reject line (d.read name operands).faults) = none :=
      added_of_size_eq rfl line true
    rw [hnone, Option.toList_none, List.append_nil]
    rfl

theorem segments_execute (memorySize : Nat) (a : Assembly) (line : Line) (s : Statement) :
    (a.execute memorySize line s).1.segments.toList =
      a.segments.toList ++
        (s.emits?.bind fun isInstruction => added line isInstruction a (a.execute memorySize line s).1).toList := by
  cases s with
  | blank => simp [execute, Statement.emits?]
  | unknown name => simp [execute, Statement.emits?, reject, report]
  | instruction d name operands => exact segments_instruct a line d name operands
  | directive d name operands =>
    simp only [execute, direct]
    split
    · simp [Statement.emits?]
    · simp [Statement.emits?, segments_org]
    · simp [Statement.emits?]
    · next operand operands =>
      rw [segments_segment a _ (segments_items line a _) (origin_items line a _), Statement.emits?, Option.bind_some,
        added_congr rfl rfl (congrArg CodeBuffer.size (code_segment _ line false a.code.size))]
    · have hnone : ((Statement.directive d name operands).emits?.bind fun isInstruction =>
          added line isInstruction a (a.reject line [.directiveArity name])) = none :=
        Option.bind_eq_none_iff.mpr fun isInstruction _ => added_of_size_eq rfl line isInstruction
      rw [hnone, Option.toList_none, List.append_nil]
      rfl

theorem segments_label (line : Line) (a : Assembly) (name : Text) : (label line a name).segments = a.segments := by
  unfold label
  split <;> rfl

theorem segments_labels (line : Line) (a : Assembly) (names : List Text) :
    (names.foldl (label line) a).segments = a.segments :=
  foldl_unchanged segments (segments_label line) names a

theorem segments_process (memorySize : Nat) (a : Assembly) (line : Line) :
    (a.process memorySize line).1.segments.toList = a.segments.toList ++ (a.contribution memorySize line).toList := by
  have hsize : ((a.labels line).foldl (label line) a).code.size = a.code.size :=
    congrArg Array.size (words_labels line a (a.labels line))
  rw [process_eq, segments_execute, segments_labels, contribution, process_eq]
  simp only [added_congr hsize (origin_labels line a _) rfl]

theorem segments_of_contribution {memorySize : Nat} {a : Assembly} {line : Line} {s : Segment}
    (h : a.contribution memorySize line = some s) : (a.process memorySize line).1.segments = a.segments.push s := by
  apply Array.toList_inj.mp
  rw [segments_process, h, Array.toList_push, Option.toList_some]

theorem references_label (line : Line) (a : Assembly) (name : Text) :
    (label line a name).code.references = a.code.references := by
  rw [code_label, CodeBuffer.apply, CodeBuffer.define_fst]
  split <;> rfl

theorem references_labels (line : Line) (a : Assembly) (names : List Text) :
    (names.foldl (label line) a).code.references = a.code.references :=
  foldl_unchanged (·.code.references) (references_label line) names a

/-- A statement that owns no words fills at most. -/
theorem emission_of_emits?_eq_none (memorySize : Nat) (a : Assembly) (line : Line) {s : Statement}
    (h : s.emits? = none) :
    a.emission memorySize line s = [] ∨ ∃ length, a.emission memorySize line s = [.fillTo length] := by
  unfold emission
  split
  · cases h
  · cases h
  · unfold filling
    split
    · dsimp only
      split
      · exact .inl rfl
      · exact .inr ⟨_, rfl⟩
    · exact .inl rfl
  · exact .inl rfl

/-- Words that belong to no line are zero, and no use stands at them. -/
theorem filled_of_contribution_eq_none {memorySize : Nat} {a : Assembly} {line : Line} (ha : a.code.WellFormed)
    (h : a.contribution memorySize line = none) {i : Nat} (hi : a.code.size ≤ i)
    (hlt : i < (a.process memorySize line).1.code.size) :
    (a.process memorySize line).1.code.words[i]? = some 0 ∧ (a.process memorySize line).1.code.Unused i := by
  have hwords := words_labels line a (a.labels line)
  have hreferences := references_labels line a (a.labels line)
  cases hemits : (a.statement line).emits? with
  | some isInstruction =>
    rw [contribution, hemits, Option.bind_some, added] at h
    split at h
    · cases h
    · omega
  | none =>
    rw [process_eq, code_execute] at hlt ⊢
    rcases emission_of_emits?_eq_none memorySize _ line hemits with hnone | ⟨length, hfill⟩
    · rw [hnone, CodeBuffer.replay_nil, CodeBuffer.size, hwords] at hlt
      exact absurd hlt (Nat.not_lt.mpr hi)
    · rw [hfill, CodeBuffer.replay_cons, CodeBuffer.replay_nil, CodeBuffer.apply, CodeBuffer.fillTo?_eq_grow] at hlt ⊢
      simp only [CodeBuffer.size, hwords, hreferences, Array.size_append, Array.size_replicate] at hlt ⊢
      have hbehind : a.code.words.size ≤ i := hi
      constructor
      · rw [Array.getElem?_append_right hbehind, Array.getElem?_replicate, if_pos (by omega)]
      · intro r hr
        have hbound := ha.bounded r hr
        omega

end Assembly

namespace CodeBuffer

/-- An instruction puts its word behind the code and at most one more word behind that, the place of its use if it has
one. -/
theorem replay_operations (b : CodeBuffer) (line : Line) (i : Instruction) :
    (b.replay (i.operations line)).words[b.size]? = some i.fields.pack ∧
      (b.replay (i.operations line)).size = b.size + (if i.fields.imm then 2 else 1) ∧
      ∀ r ∈ (b.replay (i.operations line)).references, r ∈ b.references ∨ r.position = b.size + 1 := by
  have hfirst (v w : Word) : ((b.words.push v).push w)[b.words.size]? = some v := by
    rw [Array.getElem?_push, if_neg (by rw [Array.size_push]; omega), Array.getElem?_push_size]
  unfold Instruction.operations
  cases htrailer : i.trailer with
  | none =>
    simp only [replay_cons, replay_nil, apply, push, size, Instruction.fields, htrailer]
    exact ⟨by simp, by simp, fun r hr => .inl hr⟩
  | word w =>
    simp only [replay_cons, replay_nil, apply, push, size, Instruction.fields, htrailer]
    exact ⟨hfirst _ w, by simp, fun r hr => .inl hr⟩
  | label name =>
    simp only [replay_cons, replay_nil, apply, push, refer, size, Instruction.fields, htrailer]
    refine ⟨hfirst _ 0, by simp, ?_⟩
    intro r hr
    rcases Array.mem_push.mp hr with hr | rfl
    · exact .inl hr
    · exact .inr (by simp)

end CodeBuffer

namespace Assembly

/-- The segment of an instruction holds the word of the instruction and one more word if the flag tells so. -/
theorem instruction_of_contribution {memorySize : Nat} {a : Assembly} {line : Line} {s : Segment}
    (ha : a.code.WellFormed) (h : a.contribution memorySize line = some s) (hs : s.isInstruction) :
    ∃ d name operands i, a.statement line = .instruction d name operands ∧ (d.read name operands).value = some i ∧
      s.stop = s.start + (if i.fields.imm then 2 else 1) ∧
      (a.process memorySize line).1.code.words[s.start]? = some i.fields.pack ∧
      (a.process memorySize line).1.code.Unused s.start := by
  have hwords := words_labels line a (a.labels line)
  have hreferences := references_labels line a (a.labels line)
  have hsize : ((a.labels line).foldl (label line) a).code.size = a.code.size := congrArg Array.size hwords
  obtain ⟨hemits, hlt, hstart, hstop, -, -⟩ := contribution_eq_some_iff.mp h
  rw [hs] at hemits
  obtain ⟨d, name, operands, hstatement⟩ := Statement.eq_instruction_of_emits? hemits
  rw [process_eq, code_execute, hstatement, emission] at hstop ⊢
  cases hread : (d.read name operands).value with
  | none =>
    rw [hread, Option.elim_none, CodeBuffer.replay_nil, hsize] at hstop
    omega
  | some i =>
    rw [hread, Option.elim_some] at hstop
    rw [Option.elim_some]
    obtain ⟨hword, hlength, huses⟩ :=
      CodeBuffer.replay_operations ((a.labels line).foldl (label line) a).code line i
    rw [hsize] at hword hlength huses
    refine ⟨d, name, operands, i, rfl, hread, ?_, by rwa [hstart], ?_⟩
    · rw [hstop, hlength, hstart]
    · intro r hr
      rcases huses r hr with hr | hposition
      · rw [hreferences] at hr
        have hbound := ha.bounded r hr
        omega
      · omega

/-- The segments lie apart and in order inside the code, each at its distance from the origin. Outside of them there are
zeros only. -/
structure Accounted (a : Assembly) : Prop where
  wellFormed : a.code.WellFormed
  ordered : a.segments.toList.Pairwise fun s t => s.stop ≤ t.start
  inside : ∀ s ∈ a.segments.toList, s.start < s.stop ∧ s.stop ≤ a.code.size
  address : ∀ s ∈ a.segments.toList, s.address = a.origin + UInt32.ofNat s.start
  rest : ∀ i, i < a.code.size → (∀ s ∈ a.segments.toList, s.holds i = false) →
    a.code.words[i]? = some 0 ∧ a.code.Unused i

theorem accounted_empty : empty.Accounted where
  wellFormed := CodeBuffer.empty_wellFormed
  ordered := List.Pairwise.nil
  inside := by simp [empty]
  address := by simp [empty]
  rest := by simp [empty, CodeBuffer.empty, CodeBuffer.size]

theorem Accounted.report {a : Assembly} (h : a.Accounted) (ds : List Diagnostic) : (a.report ds).Accounted :=
  ⟨h.wellFormed, h.ordered, h.inside, h.address, h.rest⟩

variable {memorySize : Nat} {a : Assembly} {line : Line}

/-- Old segments stay where they are, whatever a line adds. -/
theorem Accounted.kept (h : a.Accounted) (memorySize : Nat) (line : Line) :
    ∀ s ∈ a.segments.toList, s.stop ≤ (a.process memorySize line).1.code.size ∧
      s.address = (a.process memorySize line).1.origin + UInt32.ofNat s.start := by
  intro s hs
  have hcontinues := continues_process memorySize a line
  have hsize := hcontinues.code.size_le
  have hinside := h.inside s hs
  refine ⟨by omega, ?_⟩
  rw [hcontinues.origin (by omega)]
  exact h.address s hs

theorem Accounted.rest_kept (h : a.Accounted) (memorySize : Nat) (line : Line) {i : Nat} (hi : i < a.code.size)
    (hout : ∀ s ∈ a.segments.toList, s.holds i = false) :
    (a.process memorySize line).1.code.words[i]? = some 0 ∧ (a.process memorySize line).1.code.Unused i := by
  have hextends := (continues_process memorySize a line).code
  obtain ⟨hword, hunused⟩ := h.rest i hi hout
  exact ⟨(hextends.kept i hi hunused).trans hword, hextends.unused hi hunused⟩

theorem Accounted.process (h : a.Accounted) (memorySize : Nat) (line : Line) :
    (a.process memorySize line).1.Accounted := by
  have hwell := (continues_process memorySize a line).wellFormed h.wellFormed
  have hsegments := segments_process memorySize a line
  cases hcontribution : a.contribution memorySize line with
  | none =>
    rw [hcontribution, Option.toList_none, List.append_nil] at hsegments
    refine ⟨hwell, ?_, ?_, ?_, ?_⟩
    · rw [hsegments]
      exact h.ordered
    · rw [hsegments]
      intro s hs
      exact ⟨(h.inside s hs).1, (h.kept memorySize line s hs).1⟩
    · rw [hsegments]
      intro s hs
      exact (h.kept memorySize line s hs).2
    · rw [hsegments]
      intro i hlt hout
      by_cases hi : i < a.code.size
      · exact h.rest_kept memorySize line hi hout
      · exact filled_of_contribution_eq_none h.wellFormed hcontribution (Nat.le_of_not_lt hi) hlt
  | some new =>
    rw [hcontribution, Option.toList_some] at hsegments
    obtain ⟨hemits, hnew, hstart, hstop, haddress, -⟩ := contribution_eq_some_iff.mp hcontribution
    have horigin := origin_process memorySize (.inl (Statement.isMove_of_emits? hemits))
    have hmem (s : Segment) : s ∈ (a.process memorySize line).1.segments.toList ↔ s ∈ a.segments.toList ∨ s = new := by
      rw [hsegments, List.mem_append, List.mem_singleton]
    refine ⟨hwell, ?_, ?_, ?_, ?_⟩
    · rw [hsegments, List.pairwise_append]
      refine ⟨h.ordered, List.pairwise_singleton _ _, ?_⟩
      intro s hs t ht
      rw [List.mem_singleton.mp ht, hstart]
      exact (h.inside s hs).2
    · intro s hs
      rcases (hmem s).mp hs with hs | rfl
      · exact ⟨(h.inside s hs).1, (h.kept memorySize line s hs).1⟩
      · exact ⟨hnew, Nat.le_of_eq hstop⟩
    · intro s hs
      rcases (hmem s).mp hs with hs | rfl
      · exact (h.kept memorySize line s hs).2
      · rw [haddress, hstart, horigin]
    · intro i hlt hout
      by_cases hi : i < a.code.size
      · exact h.rest_kept memorySize line hi fun s hs => hout s ((hmem s).mpr (.inl hs))
      · have hholds : new.holds i = true := by
          rw [Segment.holds, decide_eq_true_iff, hstart, hstop]
          exact ⟨Nat.le_of_not_lt hi, hlt⟩
        rw [hout new ((hmem new).mpr (.inr rfl))] at hholds
        cases hholds

theorem persists_accounted (memorySize : Nat) : Persists memorySize fun a b => a.Accounted → b.Accounted where
  refl _ := id
  trans hab hbc ha := hbc (hab ha)
  report _ ds ha := ha.report ds
  process _ line ha := ha.process memorySize line

/-- Segments account for the code at the end of every scan. -/
theorem accounted_scan (fs : FileSystem) (memorySize : Nat) (source : SourceStack) :
    (Session.scan fs memorySize ⟨source, .empty⟩).Accounted :=
  Session.scan_of_persists (persists_accounted memorySize) fs ⟨source, .empty⟩ accounted_empty

end Assembly

namespace Session

/-- The segments of a scan are the contributions of its lines. -/
theorem segments_scan (fs : FileSystem) (memorySize : Nat) (s : Session) :
    (s.scan fs memorySize).segments.toList =
      s.assembly.segments.toList ++
        (s.visits fs memorySize).filterMap fun v => v.1.contribution memorySize v.2 := by
  induction s using scan_induction fs memorySize with
  | done s source h => rw [scan_of_none h, visits_of_none h, List.filterMap_nil, List.append_nil]
  | take s item source h ih =>
    rw [scan_of_some h, ih]
    cases item with
    | error fault =>
      rw [visits_of_error h]
      rfl
    | ok line =>
      obtain ⟨ds, hds⟩ := assembly_handle_ok fs memorySize { s with source } line
      have hsegments : (handle fs memorySize { s with source } (.ok line)).assembly.segments.toList =
          s.assembly.segments.toList ++ (s.assembly.contribution memorySize line).toList := by
        rw [hds]
        exact Assembly.segments_process memorySize s.assembly line
      rw [hsegments, visits_of_ok h, List.append_assoc]
      cases hnew : s.assembly.contribution memorySize line <;> simp [hnew]

end Session

namespace Assembly

variable {fs : FileSystem} {memorySize : Nat} {source : SourceStack}

theorem not_lt_of_image {image : Array Word} (h : (run fs memorySize source).image = some image) :
    ¬ memoryLimit < memorySize := by
  intro hlt
  rw [run_eq, if_pos hlt] at h
  cases h

/-- The line that an instruction segment comes from, and what the code holds there in the end. -/
theorem instruction_of_segment {s : Segment}
    (hs : s ∈ (Session.scan fs memorySize ⟨source, .empty⟩).segments.toList) (hinstruction : s.isInstruction) :
    ∃ a d name operands i, (a, s.line) ∈ Session.visits fs memorySize ⟨source, .empty⟩ ∧
      a.contribution memorySize s.line = some s ∧ a.statement s.line = .instruction d name operands ∧
      (d.read name operands).value = some i ∧ s.stop = s.start + (if i.fields.imm then 2 else 1) ∧
      (Session.scan fs memorySize ⟨source, .empty⟩).code.words[s.start]? = some i.fields.pack ∧
      (Session.scan fs memorySize ⟨source, .empty⟩).code.Unused s.start := by
  rw [Session.segments_scan, List.mem_append] at hs
  rcases hs with hs | hs
  · simp [empty] at hs
  obtain ⟨⟨a, line⟩, hvisit, hcontribution⟩ := List.mem_filterMap.mp hs
  dsimp only at hcontribution
  obtain ⟨-, hlt, -, hstop, -, rfl⟩ := contribution_eq_some_iff.mp hcontribution
  obtain ⟨hbefore, -⟩ := Session.visits_of_persists (persists_accounted memorySize) fs _ _ hvisit
  obtain ⟨-, hafter⟩ := Session.visits_of_persists (persists_continues memorySize) fs _ _ hvisit
  obtain ⟨d, name, operands, i, hstatement, hread, hlength, hword, hunused⟩ :=
    instruction_of_contribution (hbefore accounted_empty).wellFormed hcontribution hinstruction
  have hinside : s.start < (a.process memorySize s.line).1.code.size := by omega
  refine ⟨a, d, name, operands, i, hvisit, hcontribution, hstatement, hread, hlength, ?_, ?_⟩
  · exact (hafter.code.kept s.start hinside hunused).trans hword
  · exact hafter.code.unused hinside hunused

/-- The image shows the words of the code wherever no use stands. -/
theorem getElem?_image_of_unused {a : Assembly} {image : Array Word} (h : (a.finish memorySize).image = some image)
    {i : Nat} {w : Word} (hword : a.code.words[i]? = some w) (hunused : a.code.Unused i) : image[i]? = some w := by
  obtain ⟨-, -, rfl⟩ := of_image_finish h
  have hlinked : a.code.link.words[i]? = some w := by
    rw [CodeBuffer.getElem?_link_of_kept fun r hr heq => absurd heq (hunused r hr), hword]
  rw [Array.getElem?_append_left (Array.getElem?_eq_some_iff.mp hlinked).1, hlinked]

end Assembly

end R64
