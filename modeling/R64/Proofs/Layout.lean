import Mathlib.Data.List.Induction
import R64.Proofs.CodeBuffer
/-!
The layout of a history. Without regard to a buffer, a history says for every position what was put there, and for every
label where it was first defined. The main statements: before linking a buffer holds exactly the layout of its history,
and linking turns it into words, every use into the address of the first definition of its label.
-/
namespace R64.CodeBuffer

inductive Cell where
  | word (w : Word)
  | use (label : Text) (line : Line)
  | gap
  deriving DecidableEq

def Cell.initial : Cell → Word
  | .word w => w
  | .use _ _ => 0
  | .gap => 0

namespace Operation

/-- What an operation puts behind code of a given size. -/
def cells (size : Nat) : Operation → List Cell
  | .push w => [.word w]
  | .append ws => ws.map .word
  | .fillTo length => List.replicate (length - size) .gap
  | .refer label line => [.use label line]
  | .define _ _ _ => []
  | .link => []

/-- Whether an operation defines a label or repeats its definition. -/
def defines (label : Text) : Operation → Bool
  | .define name _ _ => name == label
  | _ => false

def use? : Operation → Option (Text × Line)
  | .refer label line => some (label, line)
  | _ => none

end Operation

/-- What a history puts at the positions from zero on. -/
def layout (ops : List Operation) : List Cell := ops.foldl (fun cells op => cells ++ op.cells cells.length) []

/-- `d` is where a history defines `label` for the first time: the position that follows what was there, counted from
the origin of that moment. -/
def FirstDefined (ops : List Operation) (label : Text) (d : Definition) : Prop :=
  ∃ before origin after, ops = before ++ .define label origin d.line :: after ∧
    (∀ op ∈ before, op.defines label = false) ∧ d.address = UInt32.ofNat (layout before).length + origin

theorem layout_concat (ops : List Operation) (op : Operation) :
    layout (ops ++ [op]) = layout ops ++ op.cells (layout ops).length := by
  rw [layout, List.foldl_append]
  rfl

/-- The uses among cells, the first of which stands at `start`. -/
def usesFrom (start : Nat) : List Cell → List Reference
  | [] => []
  | .use label line :: cells => ⟨label, start, line⟩ :: usesFrom (start + 1) cells
  | _ :: cells => usesFrom (start + 1) cells

theorem usesFrom_append (start : Nat) (cells more : List Cell) :
    usesFrom start (cells ++ more) = usesFrom start cells ++ usesFrom (start + cells.length) more := by
  induction cells generalizing start with
  | nil => rfl
  | cons cell cells ih =>
    have hstart : start + (cells.length + 1) = start + 1 + cells.length := by omega
    cases cell <;> simp [usesFrom, ih, hstart]

theorem usesFrom_words (start : Nat) (ws : List Word) : usesFrom start (ws.map .word) = [] := by
  induction ws generalizing start with
  | nil => rfl
  | cons w ws ih => exact ih (start + 1)

theorem usesFrom_gap (start count : Nat) : usesFrom start (List.replicate count .gap) = [] := by
  induction count generalizing start with
  | zero => rfl
  | succ count ih => exact ih (start + 1)

theorem mem_usesFrom {start : Nat} {cells : List Cell} {r : Reference} :
    r ∈ usesFrom start cells ↔ ∃ k, cells[k]? = some (.use r.label r.line) ∧ r.position = start + k := by
  induction cells generalizing start with
  | nil => simp [usesFrom]
  | cons cell cells ih =>
    have step : (∃ k, cells[k]? = some (.use r.label r.line) ∧ r.position = start + 1 + k) ↔
        ∃ k, (cell :: cells)[k + 1]? = some (.use r.label r.line) ∧ r.position = start + (k + 1) := by
      simp only [List.getElem?_cons_succ, Nat.add_assoc, Nat.add_comm 1]
    have split : (∃ k, (cell :: cells)[k]? = some (.use r.label r.line) ∧ r.position = start + k) ↔
        (cell = .use r.label r.line ∧ r.position = start) ∨
          ∃ k, (cell :: cells)[k + 1]? = some (.use r.label r.line) ∧ r.position = start + (k + 1) := by
      constructor
      · rintro ⟨k, hk⟩
        cases k with
        | zero => exact .inl (by simpa using hk)
        | succ k => exact .inr ⟨k, hk⟩
      · rintro (h | ⟨k, hk⟩)
        · exact ⟨0, by simpa using h⟩
        · exact ⟨k + 1, hk⟩
    rw [split, ← step, ← ih]
    cases cell with
    | use label line =>
      simp only [usesFrom, List.mem_cons, Cell.use.injEq]
      constructor
      · rintro (rfl | h)
        · exact .inl ⟨⟨rfl, rfl⟩, rfl⟩
        · exact .inr h
      · rintro (⟨⟨rfl, rfl⟩, rfl⟩ | h)
        · exact .inl rfl
        · exact .inr h
    | word w => simp [usesFrom]
    | gap => simp [usesFrom]

theorem words_apply (b : CodeBuffer) {op : Operation} (h : op ≠ .link) :
    (b.apply op).words.toList = b.words.toList ++ (op.cells b.size).map Cell.initial := by
  cases op with
  | push w => simp [apply, push, Operation.cells, Cell.initial]
  | append ws => simp [apply, append, Operation.cells, Function.comp_def, Cell.initial]
  | fillTo length => simp [apply, fillTo?_eq_grow, Operation.cells, Cell.initial]
  | refer label line => simp [apply, refer, Operation.cells, Cell.initial]
  | define label origin line =>
    rw [apply, define_fst]
    split <;> simp [Operation.cells]
  | link => exact absurd rfl h

theorem references_apply (b : CodeBuffer) (op : Operation) :
    (b.apply op).references.toList = b.references.toList ++ usesFrom b.size (op.cells b.size) := by
  cases op with
  | push w => simp [apply, push, Operation.cells, usesFrom]
  | append ws => simp [apply, append, Operation.cells, usesFrom_words]
  | fillTo length => simp [apply, fillTo?_eq_grow, Operation.cells, usesFrom_gap]
  | refer label line => simp [apply, refer, Operation.cells, usesFrom]
  | define label origin line =>
    rw [apply, define_fst]
    split <;> simp [Operation.cells, usesFrom]
  | link => simp [apply, Operation.cells, usesFrom]

/-- The definition that an operation makes when no earlier one stands against it. -/
def Operation.definition? (size : Nat) (label : Text) : Operation → Option Definition
  | .define name origin line => if name = label then some ⟨UInt32.ofNat size + origin, line⟩ else none
  | _ => none

theorem definition?_apply (b : CodeBuffer) (op : Operation) (label : Text) :
    (b.apply op).definition? label = (b.definition? label).or (op.definition? b.size label) := by
  cases op with
  | push w => simp [apply, push, CodeBuffer.definition?, Operation.definition?]
  | append ws => simp [apply, append, CodeBuffer.definition?, Operation.definition?]
  | fillTo length => simp [apply, fillTo?_eq_grow, CodeBuffer.definition?, Operation.definition?]
  | refer name line => simp [apply, refer, CodeBuffer.definition?, Operation.definition?]
  | define name origin line =>
    rw [apply, define_fst, Operation.definition?]
    split
    · next hnew =>
      rw [CodeBuffer.definition?, Array.find?_push]
      by_cases heq : name = label
      · subst heq
        rw [CodeBuffer.definition?, Option.map_eq_none_iff] at hnew
        simp [CodeBuffer.definition?, hnew, nextAddress]
      · simp [CodeBuffer.definition?, heq]
    · next hold =>
      by_cases heq : name = label
      · subst heq
        obtain ⟨d, hd⟩ := Option.ne_none_iff_exists'.mp hold
        simp [hd]
      · simp [heq]
  | link => simp [apply, Operation.definition?]

/-- Before linking, a buffer holds the layout of its history. -/
theorem words_replay {ops : List Operation} (h : .link ∉ ops) :
    (empty.replay ops).words.toList = (layout ops).map Cell.initial := by
  induction ops using List.reverseRec with
  | nil => rfl
  | append_singleton ops op ih =>
    simp only [List.mem_append, List.mem_singleton, not_or] at h
    have hsize : (empty.replay ops).size = (layout ops).length := by
      rw [size, ← Array.length_toList, ih h.1, List.length_map]
    rw [replay_append, replay_cons, replay_nil, words_apply _ (Ne.symm h.2), ih h.1, hsize, layout_concat,
      List.map_append]

theorem size_replay {ops : List Operation} (h : .link ∉ ops) : (empty.replay ops).size = (layout ops).length := by
  rw [size, ← Array.length_toList, words_replay h, List.length_map]

theorem references_replay {ops : List Operation} (h : .link ∉ ops) :
    (empty.replay ops).references.toList = usesFrom 0 (layout ops) := by
  induction ops using List.reverseRec with
  | nil => rfl
  | append_singleton ops op ih =>
    simp only [List.mem_append, List.mem_singleton, not_or] at h
    rw [replay_append, replay_cons, replay_nil, references_apply, ih h.1, size_replay h.1, layout_concat,
      usesFrom_append, Nat.zero_add]

/-- The uses of a buffer stand exactly where the layout of its history has them. -/
theorem mem_references_replay {ops : List Operation} (h : .link ∉ ops) {r : Reference} :
    r ∈ (empty.replay ops).references ↔ (layout ops)[r.position]? = some (.use r.label r.line) := by
  rw [← Array.mem_toList_iff, references_replay h, mem_usesFrom]
  simp

theorem usesFrom_cells (start size : Nat) (op : Operation) :
    (usesFrom start (op.cells size)).map (fun r => (r.label, r.line)) = op.use?.toList := by
  cases op <;> simp [Operation.cells, Operation.use?, usesFrom, usesFrom_words, usesFrom_gap]

/-- The uses of a layout are those of the history, in the same order. -/
theorem usesFrom_layout (ops : List Operation) :
    (usesFrom 0 (layout ops)).map (fun r => (r.label, r.line)) = ops.filterMap Operation.use? := by
  induction ops using List.reverseRec with
  | nil => rfl
  | append_singleton ops op ih =>
    rw [layout_concat, usesFrom_append, List.map_append, ih, usesFrom_cells, List.filterMap_append]
    cases h : op.use? <;> simp [h]

theorem definition?_eq_none_of_defines {op : Operation} {size : Nat} {label : Text} :
    op.definition? size label = none ↔ op.defines label = false := by
  cases op <;> simp [Operation.definition?, Operation.defines]

theorem definition?_replay_eq_none {ops : List Operation} {label : Text} :
    (empty.replay ops).definition? label = none ↔ ∀ op ∈ ops, op.defines label = false := by
  induction ops using List.reverseRec with
  | nil => simp [empty, definition?]
  | append_singleton ops op ih =>
    rw [replay_append, replay_cons, replay_nil, definition?_apply, Option.or_eq_none_iff, ih,
      definition?_eq_none_of_defines]
    simp only [List.mem_append, List.mem_singleton]
    constructor
    · rintro ⟨hops, hop⟩ x (hx | rfl)
      · exact hops x hx
      · exact hop
    · intro h
      exact ⟨fun x hx => h x (.inl hx), h op (.inr rfl)⟩

/-- The definition that a buffer keeps is the first one. -/
theorem firstDefined_of_definition? {ops : List Operation} (h : .link ∉ ops) {label : Text} {d : Definition}
    (hd : (empty.replay ops).definition? label = some d) : FirstDefined ops label d := by
  induction ops using List.reverseRec with
  | nil => simp [empty, definition?] at hd
  | append_singleton ops op ih =>
    simp only [List.mem_append, List.mem_singleton, not_or] at h
    rw [replay_append, replay_cons, replay_nil, definition?_apply, Option.or_eq_some_iff] at hd
    rcases hd with hold | ⟨hnone, hnew⟩
    · obtain ⟨before, origin, after, rfl, hbefore, haddress⟩ := ih h.1 hold
      exact ⟨before, origin, after ++ [op], by simp, hbefore, haddress⟩
    · cases op with
      | define name origin line =>
        simp only [Operation.definition?, Option.ite_none_right_eq_some, Option.some.injEq] at hnew
        obtain ⟨rfl, rfl⟩ := hnew
        refine ⟨ops, origin, [], rfl, definition?_replay_eq_none.mp hnone, ?_⟩
        rw [size_replay h.1]
      | push _ => cases hnew
      | append _ => cases hnew
      | fillTo _ => cases hnew
      | refer _ _ => cases hnew
      | link => cases hnew

/-- The word that stands for a cell after linking. -/
def Cell.Shows (ops : List Operation) : Cell → Word → Prop
  | .word v, w => w = v
  | .use label _, w => ∃ d, FirstDefined ops label d ∧ w = d.address
  | .gap, w => w = 0

/-- Linking shows every cell of the layout, provided that every use has a definition. -/
theorem shows_link_replay {ops : List Operation} (h : .link ∉ ops)
    (defined : ∀ r ∈ (empty.replay ops).references, (empty.replay ops).definition? r.label ≠ none)
    {i : Nat} {cell : Cell} (hcell : (layout ops)[i]? = some cell) :
    ∃ w, (empty.replay ops).link.words[i]? = some w ∧ cell.Shows ops w := by
  have before : (empty.replay ops).words[i]? = some cell.initial := by
    rw [← Array.getElem?_toList, words_replay h, List.getElem?_map, hcell, Option.map_some]
  have unchanged (hne : ∀ label line, cell ≠ .use label line) :
      (empty.replay ops).link.words[i]? = some cell.initial := by
    rw [getElem?_link_of_kept, before]
    rintro r hr rfl
    rw [(mem_references_replay h).mp hr] at hcell
    exact absurd (Option.some.inj hcell).symm (hne _ _)
  cases cell with
  | word w => exact ⟨w, unchanged (by simp), rfl⟩
  | gap => exact ⟨0, unchanged (by simp), rfl⟩
  | use label line =>
    have hr : (⟨label, i, line⟩ : Reference) ∈ (empty.replay ops).references :=
      (mem_references_replay h).mpr hcell
    obtain ⟨d, hd⟩ := Option.ne_none_iff_exists'.mp (defined _ hr)
    exact ⟨d.address, (empty_wellFormed.replay ops).getElem?_link hr hd, d, firstDefined_of_definition? h hd, rfl⟩

/-- The faults of linking: one for each use that has no definition, in the order of the uses. -/
theorem unresolved_replay {ops : List Operation} (h : .link ∉ ops) :
    (empty.replay ops).unresolved =
      ((ops.filterMap Operation.use?).filter fun u => !ops.any (·.defines u.1)).map
        fun u => .error (.unresolvedSymbol u.1) (some u.2) := by
  have undefined (label : Text) :
      ((empty.replay ops).definition? label).isNone = !ops.any (·.defines label) := by
    rw [Bool.eq_iff_iff, Option.isNone_iff_eq_none, definition?_replay_eq_none]
    simp
  rw [← usesFrom_layout, ← references_replay h, List.filter_map, List.map_map, unresolved]
  simp only [undefined, Function.comp_def]

/-- `image` is the memory that a history leads to. A use of a label is replaced by the address of the label's first
definition, every other word that was put somewhere is there unchanged, and what is left is zero. -/
structure Depicts (ops : List Operation) (memorySize : Nat) (image : Array Word) : Prop where
  size : image.size = memorySize
  use : ∀ (i : Nat) (label : Text) (line : Line), (layout ops)[i]? = some (.use label line) →
    ∃ d, FirstDefined ops label d ∧ image[i]? = some d.address
  word : ∀ (i : Nat) (w : Word), (layout ops)[i]? = some (.word w) → image[i]? = some w
  rest : ∀ i : Nat, i < memorySize → (layout ops)[i]? = some .gap ∨ (layout ops)[i]? = none → image[i]? = some 0

theorem defined_of_unresolved {b : CodeBuffer} (h : b.unresolved = []) :
    ∀ r ∈ b.references, b.definition? r.label ≠ none := by
  intro r hr
  rw [unresolved, List.map_eq_nil_iff, List.filter_eq_nil_iff] at h
  simpa using h r (Array.mem_toList_iff.mpr hr)

/-- The linked code, with zeros behind it up to the memory size, depicts the history. -/
theorem depicts_link_replay {ops : List Operation} (h : .link ∉ ops) {memorySize : Nat}
    (hsize : (empty.replay ops).size ≤ memorySize) (hresolved : (empty.replay ops).unresolved = []) :
    Depicts ops memorySize
      ((empty.replay ops).link.words ++ Array.replicate (memorySize - (empty.replay ops).size) 0) := by
  have hlinked : (empty.replay ops).link.words.size = (empty.replay ops).size := size_link _
  have code {i : Nat} {cell : Cell} (hcell : (layout ops)[i]? = some cell) :
      ∃ w, ((empty.replay ops).link.words ++ Array.replicate (memorySize - (empty.replay ops).size) 0)[i]? = some w ∧
        cell.Shows ops w := by
    obtain ⟨w, hw, hshows⟩ := shows_link_replay h (defined_of_unresolved hresolved) hcell
    exact ⟨w, by rw [Array.getElem?_append_left (Array.getElem?_eq_some_iff.mp hw).1, hw], hshows⟩
  refine ⟨?_, ?_, ?_, ?_⟩
  · rw [Array.size_append, Array.size_replicate, hlinked]
    omega
  · intro i label line hcell
    obtain ⟨w, hw, d, hd, rfl⟩ := code hcell
    exact ⟨d, hd, hw⟩
  · intro i w hcell
    obtain ⟨_, hw, rfl⟩ := code hcell
    exact hw
  · rintro i hi (hgap | hnone)
    · obtain ⟨_, hw, rfl⟩ := code hgap
      exact hw
    · have hbehind := List.getElem?_eq_none_iff.mp hnone
      rw [← size_replay h] at hbehind
      rw [Array.getElem?_append_right (by omega), Array.getElem?_replicate, if_pos (by omega)]

end R64.CodeBuffer
