import Mathlib.Data.List.Nodup
import R64.Proofs.Segments
/-!
One flat address space. The origin is settled by the time that the first word is emitted, so segments and labels, which
get their addresses at different moments, agree. Main statement: the addresses of a run, seen from its final origin.
-/
namespace R64

namespace CodeBuffer

theorem size_apply_define (b : CodeBuffer) (name : Text) (origin : Word) (line : Line) :
    (b.apply (.define name origin line)).size = b.size := by
  rw [apply, define_fst]
  split <;> rfl

/-- Several labels on one line get one address, unless they are defined already. -/
theorem definition?_replay_define (b : CodeBuffer) (origin : Word) (line : Line) (names : List Text) (label : Text) :
    (b.replay (names.map (.define · origin line))).definition? label =
      (b.definition? label).or (if label ∈ names then some ⟨b.nextAddress origin, line⟩ else none) := by
  induction names generalizing b with
  | nil => simp
  | cons name names ih =>
    have haddress : (b.apply (.define name origin line)).nextAddress origin = b.nextAddress origin := by
      rw [nextAddress, size_apply_define, nextAddress]
    rw [List.map_cons, replay_cons, ih, definition?_apply, haddress, Option.or_assoc]
    by_cases hname : name = label
    · simp [Operation.definition?, hname, nextAddress]
    · simp [Operation.definition?, hname, Ne.symm hname]

theorem definition?_replay_of_appends {ops : List Operation} (h : ∀ op ∈ ops, op.appends) (b : CodeBuffer)
    (label : Text) : (b.replay ops).definition? label = b.definition? label := by
  induction ops generalizing b with
  | nil => rfl
  | cons op ops ih =>
    have hop : op.definition? b.size label = none := by
      have happends := h op List.mem_cons_self
      cases op with
      | define name origin line => cases happends
      | push w => rfl
      | append ws => rfl
      | fillTo length => rfl
      | refer name line => rfl
      | link => rfl
    rw [replay_cons, ih fun x hx => h x (List.mem_cons_of_mem op hx), definition?_apply, hop, Option.or_none]

theorem WellFormed.definition?_eq_some_iff {b : CodeBuffer} (h : b.WellFormed) {name : Text} {d : Definition} :
    b.definition? name = some d ↔ (name, d) ∈ b.definitions := by
  have hmem {d : Definition} (hd : b.definition? name = some d) : (name, d) ∈ b.definitions := by
    obtain ⟨⟨key, d⟩, hentry, rfl⟩ := Option.map_eq_some_iff.mp hd
    have hkey : key = name := by simpa using Array.find?_some hentry
    rw [← hkey]
    exact Array.mem_of_find?_eq_some hentry
  constructor
  · exact hmem
  · intro hentry
    rw [← Array.mem_toList_iff] at hentry
    cases hd : b.definition? name with
    | none => exact absurd (List.mem_map_of_mem hentry) (definition?_eq_none_iff.mp hd)
    | some d' =>
      have hentry' := Array.mem_toList_iff.mpr (hmem hd)
      rw [(Prod.mk.inj (List.inj_on_of_nodup_map h.distinct hentry' hentry rfl)).2]

theorem WellFormed.mem_symbols {b : CodeBuffer} (h : b.WellFormed) {name : Text} {address : Word} :
    (name, address) ∈ b.symbols ↔ ∃ d, b.definition? name = some d ∧ d.address = address := by
  simp only [symbols, Array.mem_map, h.definition?_eq_some_iff, Prod.mk.injEq]
  constructor
  · rintro ⟨⟨key, d⟩, hmem, rfl, rfl⟩
    exact ⟨d, hmem, rfl⟩
  · rintro ⟨d, hmem, rfl⟩
    exact ⟨(name, d), hmem, rfl, rfl⟩

end CodeBuffer

namespace Assembly

/-- The definition that a line makes if it carries the label. -/
def defines? (a : Assembly) (line : Line) (label : Text) : Option Definition :=
  if label ∈ a.labels line then some ⟨a.code.nextAddress a.origin, line⟩ else none

theorem definition?_process (memorySize : Nat) (a : Assembly) (line : Line) (label : Text) :
    (a.process memorySize line).1.code.definition? label = (a.code.definition? label).or (a.defines? line label) := by
  rw [code_process, operations, CodeBuffer.replay_append,
    CodeBuffer.definition?_replay_of_appends (appends_of_mem_emission memorySize a line _),
    CodeBuffer.definition?_replay_define]
  rfl

end Assembly

theorem Session.definition?_scan (fs : FileSystem) (memorySize : Nat) (s : Session) (label : Text) :
    (s.scan fs memorySize).code.definition? label =
      (s.assembly.code.definition? label).or
        ((s.visits fs memorySize).findSome? fun v => v.1.defines? v.2 label) := by
  induction s using scan_induction fs memorySize with
  | done s source h => rw [scan_of_none h, visits_of_none h, List.findSome?_nil, Option.or_none]
  | take s item source h ih =>
    rw [scan_of_some h, ih]
    cases item with
    | error fault =>
      rw [visits_of_error h]
      rfl
    | ok line =>
      obtain ⟨ds, hds⟩ := assembly_handle_ok fs memorySize { s with source } line
      rw [hds, Assembly.code_report, Assembly.definition?_process, Option.or_assoc, visits_of_ok h, List.findSome?_cons]
      cases s.assembly.defines? line label <;> rfl

namespace Assembly

/-- `label` stands on this line and on none of the lines before it. -/
def Introduces (lines : List (Assembly × Line)) (label : Text) (a : Assembly) (line : Line) : Prop :=
  ∃ before after, lines = before ++ (a, line) :: after ∧ label ∈ a.labels line ∧
    ∀ v ∈ before, label ∉ v.1.labels v.2

theorem findSome?_defines? {lines : List (Assembly × Line)} {label : Text} {d : Definition} :
    (lines.findSome? fun v => v.1.defines? v.2 label) = some d ↔
      ∃ a line, Introduces lines label a line ∧ d = ⟨a.code.nextAddress a.origin, line⟩ := by
  have hsome {a : Assembly} {line : Line} :
      a.defines? line label = some d ↔ label ∈ a.labels line ∧ d = ⟨a.code.nextAddress a.origin, line⟩ := by
    rw [defines?, Option.ite_none_right_eq_some, Option.some.injEq, eq_comm (a := d)]
  have hnone {v : Assembly × Line} : v.1.defines? v.2 label = none ↔ label ∉ v.1.labels v.2 := by
    simp [defines?]
  rw [List.findSome?_eq_some_iff]
  constructor
  · rintro ⟨before, ⟨a, line⟩, after, hlines, hd, hbefore⟩
    obtain ⟨hlabel, rfl⟩ := hsome.mp hd
    exact ⟨a, line, ⟨before, after, hlines, hlabel, fun v hv => hnone.mp (hbefore v hv)⟩, rfl⟩
  · rintro ⟨a, line, ⟨before, after, hlines, hlabel, hbefore⟩, rfl⟩
    exact ⟨before, (a, line), after, hlines, hsome.mpr ⟨hlabel, rfl⟩, fun v hv => hnone.mpr (hbefore v hv)⟩

variable {fs : FileSystem} {memorySize : Nat} {source : SourceStack}

/-- A label has the address that its first line met. -/
theorem mem_symbols_scan {label : Text} {address : Word} :
    (label, address) ∈ (Session.scan fs memorySize ⟨source, .empty⟩).code.symbols ↔
      ∃ a line, Introduces (Session.visits fs memorySize ⟨source, .empty⟩) label a line ∧
        address = a.origin + UInt32.ofNat a.code.size := by
  have hempty : (empty : Assembly).code.definition? label = none := rfl
  rw [(accounted_scan fs memorySize source).wellFormed.mem_symbols]
  simp only [Session.definition?_scan, hempty, Option.none_or, findSome?_defines?]
  constructor
  · rintro ⟨_, ⟨a, line, hintroduces, rfl⟩, rfl⟩
    exact ⟨a, line, hintroduces, UInt32.add_comm _ _⟩
  · rintro ⟨a, line, hintroduces, rfl⟩
    exact ⟨_, ⟨a, line, hintroduces, rfl⟩, UInt32.add_comm _ _⟩

theorem Introduces.mem {lines : List (Assembly × Line)} {label : Text} {a : Assembly} {line : Line}
    (h : Introduces lines label a line) : (a, line) ∈ lines := by
  obtain ⟨before, after, rfl, -, -⟩ := h
  simp

/-- From the first word on, the origin is the final one. -/
theorem origin_of_visit {a : Assembly} {line : Line} (h : (a, line) ∈ Session.visits fs memorySize ⟨source, .empty⟩)
    (hsize : a.code.size ≠ 0) : a.origin = (Session.scan fs memorySize ⟨source, .empty⟩).origin := by
  obtain ⟨-, hafter⟩ := Session.visits_of_persists (persists_continues memorySize) fs _ _ h
  have hprocess := continues_process memorySize a line
  rw [(hprocess.trans hafter).origin hsize]

/-- Every address of a run counts from one origin, the final one, for everything but labels before the first word. No
line changes the origin once there is code. A label has the address of the place where it stands first, and this is the
address of the segment of its line, if the line has one. -/
theorem run_addresses (fs : FileSystem) (memorySize : Nat) (source : SourceStack) :
    let r := run fs memorySize source
    let lines := visits fs memorySize source
    let origin := (Session.scan fs memorySize ⟨source, .empty⟩).origin
    (∀ a line, (a, line) ∈ lines → a.code.size ≠ 0 →
      a.origin = origin ∧ ∀ next, (a.process memorySize next).1.origin = origin) ∧
    (∀ s ∈ r.segments, s.address = origin + UInt32.ofNat s.start) ∧
    (∀ label address, (label, address) ∈ r.symbols ↔
      ∃ a line, Introduces lines label a line ∧ address = a.origin + UInt32.ofNat a.code.size ∧
        (a.code.size ≠ 0 → a.origin = origin)) ∧
    ∀ a line, (a, line) ∈ lines → (a.statement line).emits?.isSome →
      a.code.size < (a.process memorySize line).1.code.size →
      ∃ s ∈ r.segments, (a.process memorySize line).1.segments = a.segments.push s ∧
        ∀ label, Introduces lines label a line → (label, s.address) ∈ r.symbols := by
  intro r lines origin
  by_cases hlimit : memoryLimit < memorySize
  · have hlines : lines = [] := if_pos hlimit
    have hrun := run_of_lt hlimit fs source
    rw [hlines, show r = _ from hrun]
    simp [Introduces]
  have hlines : lines = Session.visits fs memorySize ⟨source, .empty⟩ := visits_of_not_lt hlimit fs source
  have hrun : r = (Session.scan fs memorySize ⟨source, .empty⟩).finish memorySize := run_of_not_lt hlimit fs source
  rw [hlines, hrun]
  refine ⟨?_, ?_, ?_, ?_⟩
  · intro a line hvisit hsize
    have horigin := origin_of_visit hvisit hsize
    refine ⟨horigin, ?_⟩
    intro next
    exact (origin_process memorySize (.inr (CodeBuffer.isEmpty_eq_false hsize))).trans horigin
  · intro s hs
    exact (accounted_scan fs memorySize source).address s (Array.mem_toList_iff.mpr hs)
  · intro label address
    refine mem_symbols_scan.trans ?_
    constructor
    · rintro ⟨a, line, hintroduces, haddress⟩
      exact ⟨a, line, hintroduces, haddress, origin_of_visit hintroduces.mem⟩
    · rintro ⟨a, line, hintroduces, haddress, -⟩
      exact ⟨a, line, hintroduces, haddress⟩
  · intro a line hvisit hemits hlt
    obtain ⟨isInstruction, hemits⟩ := Option.isSome_iff_exists.mp hemits
    obtain ⟨s, hs⟩ : ∃ s, a.contribution memorySize line = some s := by
      rw [contribution, hemits, Option.bind_some, added, if_pos hlt]
      exact ⟨_, rfl⟩
    obtain ⟨-, -, -, -, haddress, -⟩ := contribution_eq_some_iff.mp hs
    refine ⟨s, ?_, segments_of_contribution hs, ?_⟩
    · have hscan := Session.segments_scan fs memorySize ⟨source, .empty⟩
      apply Array.mem_toList_iff.mp
      rw [finish, hscan]
      exact List.mem_append_right _ (List.mem_filterMap.mpr ⟨(a, line), hvisit, hs⟩)
    · intro label hintroduces
      exact mem_symbols_scan.mpr ⟨a, line, hintroduces, haddress⟩

/-- A label before the origin is set and one after a gap in the code. -/
theorem run_addresses_gap :
    let source := SourceStack.ofText "" "gap" "first: .org [0x100]\njmp last\n.org [0x104]\nlast: .dw 7"
    let lines := visits ⟨[], []⟩ 8 source
    (∀ s ∈ (run ⟨[], []⟩ 8 source).segments, s.address = 0x100 + UInt32.ofNat s.start) ∧
    (∃ a line, Introduces lines "first" a line ∧ 0 = a.origin + UInt32.ofNat a.code.size) ∧
    ∃ a line, Introduces lines "last" a line ∧ 0x104 = a.origin + UInt32.ofNat a.code.size := by
  intro source lines
  have horigin : (Session.scan ⟨[], []⟩ 8 ⟨source, .empty⟩).origin = 0x100 := by decide +kernel
  obtain ⟨-, hsegments, hsymbols, -⟩ := run_addresses ⟨[], []⟩ 8 source
  rw [horigin] at hsegments
  obtain ⟨a, line, hfirst, hzero, -⟩ := (hsymbols "first" 0).mp (by decide +kernel)
  obtain ⟨b, line', hlast, hend, -⟩ := (hsymbols "last" 0x104).mp (by decide +kernel)
  exact ⟨hsegments, ⟨a, line, hfirst, hzero⟩, b, line', hlast, hend⟩

end Assembly

end R64
