import R64.Object.CodeBuffer
/-!
Histories of a code buffer. An operation is one of the six ways to change a buffer, linking included, and a history is
any list of them. Two facts carry everything here: an operation keeps a buffer well formed, and it only extends the
buffer. The main statement says what holds between any two moments of a history that starts with the empty buffer.
-/
namespace R64.CodeBuffer

inductive Operation where
  | push (w : Word)
  | append (ws : List Word)
  | fillTo (length : Nat)
  | refer (label : Text) (line : Line)
  | define (label : Text) (origin : Word) (line : Line)
  | link
  deriving DecidableEq

/-- Carry out an operation. A refused filling leaves the buffer as it is. -/
def apply (b : CodeBuffer) : Operation → CodeBuffer
  | .push w => b.push w
  | .append ws => b.append ws
  | .fillTo length => (b.fillTo? length).getD b
  | .refer label line => b.refer label line
  | .define label origin line => (b.define label origin line).1
  | .link => b.link

def replay (b : CodeBuffer) (ops : List Operation) : CodeBuffer := ops.foldl apply b

@[simp] theorem replay_nil (b : CodeBuffer) : b.replay [] = b := rfl

@[simp] theorem replay_cons (b : CodeBuffer) (op : Operation) (ops : List Operation) :
    b.replay (op :: ops) = (b.apply op).replay ops := rfl

@[simp] theorem replay_append (b : CodeBuffer) (before after : List Operation) :
    b.replay (before ++ after) = (b.replay before).replay after := List.foldl_append

/-- Uses stand at increasing places inside the code, and no label is defined twice. -/
structure WellFormed (b : CodeBuffer) : Prop where
  increasing : b.references.toList.Pairwise fun r s => r.position < s.position
  bounded : ∀ r ∈ b.references, r.position < b.size
  distinct : (b.definitions.toList.map (·.1)).Nodup

/-- Places of the code that no use stands at. -/
def Unused (b : CodeBuffer) (i : Nat) : Prop := ∀ r ∈ b.references, r.position ≠ i

/-- The place of `r` holds the address of the label that is used there. -/
def Resolved (b : CodeBuffer) (r : Reference) : Prop :=
  ∃ d, b.definition? r.label = some d ∧ b.words[r.position]? = some d.address

/-- `c` holds all that `b` holds. Only places of uses may be written over, and these not once they are resolved. -/
structure Extends (b c : CodeBuffer) : Prop where
  references : ∃ more, c.references = b.references ++ more ∧ ∀ r ∈ more, b.size ≤ r.position
  definitions : ∃ more, c.definitions = b.definitions ++ more
  size_le : b.size ≤ c.size
  kept : ∀ i, i < b.size → b.Unused i → c.words[i]? = b.words[i]?
  settled : ∀ r ∈ b.references, b.Resolved r → c.words[r.position]? = b.words[r.position]?

theorem empty_wellFormed : WellFormed empty where
  increasing := List.Pairwise.nil
  bounded := by simp [empty]
  distinct := List.nodup_nil

theorem Extends.definition? {b c : CodeBuffer} (h : Extends b c) {label : Text} {d : Definition}
    (hd : b.definition? label = some d) : c.definition? label = some d := by
  obtain ⟨more, hmore⟩ := h.definitions
  obtain ⟨entry, hfind, hentry⟩ := Option.map_eq_some_iff.mp hd
  rw [CodeBuffer.definition?, hmore, Array.find?_append, hfind]
  exact congrArg some hentry

theorem Extends.refl (b : CodeBuffer) : Extends b b where
  references := ⟨#[], by simp, by simp⟩
  definitions := ⟨#[], by simp⟩
  size_le := Nat.le_refl _
  kept _ _ _ := rfl
  settled _ _ _ := rfl

/-- A use that is added later stands behind everything that was there before. -/
theorem Extends.unused {b c : CodeBuffer} (h : Extends b c) {i : Nat} (hi : i < b.size) (hu : b.Unused i) :
    c.Unused i := by
  obtain ⟨more, hmore, hbehind⟩ := h.references
  intro r hr
  rw [hmore, Array.mem_append] at hr
  rcases hr with hr | hr
  · exact hu r hr
  · have := hbehind r hr
    omega

theorem Extends.mem_references {b c : CodeBuffer} (h : Extends b c) {r : Reference} (hr : r ∈ b.references) :
    r ∈ c.references := by
  obtain ⟨more, hmore, -⟩ := h.references
  rw [hmore]
  exact Array.mem_append_left _ hr

theorem Extends.resolved {b c : CodeBuffer} (h : Extends b c) {r : Reference} (hr : r ∈ b.references)
    (hd : b.Resolved r) : c.Resolved r := by
  obtain ⟨d, hlabel, hword⟩ := hd
  exact ⟨d, h.definition? hlabel, (h.settled r hr ⟨d, hlabel, hword⟩).trans hword⟩

theorem Extends.trans {b c d : CodeBuffer} (h : Extends b c) (k : Extends c d) : Extends b d where
  references := by
    obtain ⟨more, hmore, hbehind⟩ := h.references
    obtain ⟨later, hlater, kbehind⟩ := k.references
    refine ⟨more ++ later, by rw [hlater, hmore, Array.append_assoc], ?_⟩
    intro r hr
    rcases Array.mem_append.mp hr with hr | hr
    · exact hbehind r hr
    · exact Nat.le_trans h.size_le (kbehind r hr)
  definitions := by
    obtain ⟨more, hmore⟩ := h.definitions
    obtain ⟨later, hlater⟩ := k.definitions
    exact ⟨more ++ later, by rw [hlater, hmore, Array.append_assoc]⟩
  size_le := Nat.le_trans h.size_le k.size_le
  kept i hi hu := (k.kept i (Nat.lt_of_lt_of_le hi h.size_le) (h.unused hi hu)).trans (h.kept i hi hu)
  settled r hr hd := (k.settled r (h.mem_references hr) (h.resolved hr hd)).trans (h.settled r hr hd)

theorem extends_grow (b : CodeBuffer) (ws : Array Word) : Extends b { b with words := b.words ++ ws } where
  references := ⟨#[], by simp, by simp⟩
  definitions := ⟨#[], by simp⟩
  size_le := by simp [size]
  kept _ hi _ := Array.getElem?_append_left hi
  settled r _ hd := by
    obtain ⟨d, -, hword⟩ := hd
    exact Array.getElem?_append_left (Array.getElem?_eq_some_iff.mp hword).1

theorem WellFormed.grow {b : CodeBuffer} (h : b.WellFormed) (ws : Array Word) :
    WellFormed { b with words := b.words ++ ws } where
  increasing := h.increasing
  bounded r hr := Nat.lt_of_lt_of_le (h.bounded r hr) (extends_grow b ws).size_le
  distinct := h.distinct

theorem push_eq_grow (b : CodeBuffer) (w : Word) : b.push w = { b with words := b.words ++ #[w] } := by
  rw [push, Array.push_eq_append]

theorem append_eq_grow (b : CodeBuffer) (ws : List Word) :
    b.append ws = { b with words := b.words ++ ws.toArray } := by
  simp only [append, CodeBuffer.mk.injEq, and_true]
  apply Array.toList_inj.mp
  simp

/-- Filling is growing by zeros; a refused filling grows by nothing. -/
theorem fillTo?_eq_grow (b : CodeBuffer) (length : Nat) :
    (b.fillTo? length).getD b = { b with words := b.words ++ Array.replicate (length - b.size) 0 } := by
  unfold fillTo?
  split
  · next hlt =>
    have hzero : length - b.size = 0 := by omega
    simp [hzero]
  · rfl

theorem refer_eq_grow (b : CodeBuffer) (label : Text) (line : Line) :
    b.refer label line =
      { b with words := b.words ++ #[0], references := b.references ++ #[⟨label, b.size, line⟩] } := by
  rw [refer, Array.push_eq_append, Array.push_eq_append]

theorem extends_refer (b : CodeBuffer) (label : Text) (line : Line) : Extends b (b.refer label line) := by
  have h := extends_grow b #[0]
  rw [refer_eq_grow]
  exact {
    references := ⟨_, rfl, by simp⟩
    definitions := h.definitions
    size_le := h.size_le
    kept := h.kept
    settled := h.settled }

theorem WellFormed.refer {b : CodeBuffer} (h : b.WellFormed) (label : Text) (line : Line) :
    (b.refer label line).WellFormed where
  increasing := by
    simp only [CodeBuffer.refer, Array.toList_push, List.pairwise_append]
    refine ⟨h.increasing, List.pairwise_singleton _ _, ?_⟩
    intro r hr s hs
    obtain rfl := List.mem_singleton.mp hs
    exact h.bounded r (Array.mem_toList_iff.mp hr)
  bounded r hr := by
    simp only [CodeBuffer.refer, Array.mem_push, size, Array.size_push] at hr ⊢
    rcases hr with hr | rfl
    · exact Nat.lt_succ_of_lt (h.bounded r hr)
    · exact Nat.lt_succ_self _
  distinct := h.distinct

theorem definition?_eq_none_iff {b : CodeBuffer} {label : Text} :
    b.definition? label = none ↔ label ∉ b.definitions.toList.map (·.1) := by
  simp only [definition?, Option.map_eq_none_iff, Array.find?_eq_none, List.mem_map, beq_iff_eq]
  constructor
  · rintro h ⟨entry, hmem, rfl⟩
    exact h entry (Array.mem_toList_iff.mp hmem) rfl
  · intro h entry hmem heq
    exact h ⟨entry, Array.mem_toList_iff.mpr hmem, heq⟩

theorem define_fst (b : CodeBuffer) (label : Text) (origin : Word) (line : Line) :
    (b.define label origin line).1 =
      if b.definition? label = none then
        { b with definitions := b.definitions.push (label, ⟨b.nextAddress origin, line⟩) }
      else b := by
  unfold define
  split
  · next h => rw [if_neg (by simp [h])]
  · next h => rw [if_pos h]

theorem extends_define (b : CodeBuffer) (label : Text) (origin : Word) (line : Line) :
    Extends b (b.define label origin line).1 := by
  rw [define_fst]
  split
  · exact {
      references := ⟨#[], by simp, by simp⟩
      definitions := ⟨_, Array.push_eq_append⟩
      size_le := Nat.le_refl _
      kept := fun _ _ _ => rfl
      settled := fun _ _ _ => rfl }
  · exact .refl b

theorem WellFormed.define {b : CodeBuffer} (h : b.WellFormed) (label : Text) (origin : Word) (line : Line) :
    (b.define label origin line).1.WellFormed := by
  rw [define_fst]
  split
  · next hnew =>
    refine ⟨h.increasing, h.bounded, ?_⟩
    simp only [Array.toList_push, List.map_append, List.map_cons, List.map_nil]
    rw [List.nodup_append]
    refine ⟨h.distinct, by simp, ?_⟩
    rintro name hname _ hlabel rfl
    obtain rfl := List.mem_singleton.mp hlabel
    exact definition?_eq_none_iff.mp hnew hname
  · exact h

@[simp] theorem size_patch (b : CodeBuffer) (ws : Array Word) (r : Reference) : (b.patch ws r).size = ws.size := by
  unfold patch
  split
  · exact Array.size_setIfInBounds
  · rfl

@[simp] theorem size_foldl_patch (b : CodeBuffer) (rs : List Reference) (ws : Array Word) :
    (rs.foldl b.patch ws).size = ws.size := by
  induction rs generalizing ws with
  | nil => rfl
  | cons r rs ih => rw [List.foldl_cons, ih, size_patch]

/-- A word stays as it is unless it stands in the place of a use whose label is defined. -/
theorem getElem?_patch_of_kept {b : CodeBuffer} {ws : Array Word} {r : Reference} {i : Nat}
    (h : r.position = i → b.definition? r.label = none) : (b.patch ws r)[i]? = ws[i]? := by
  unfold patch
  split
  · next d hd =>
    have hne : r.position ≠ i := by
      intro heq
      rw [h heq] at hd
      cases hd
    exact Array.getElem?_setIfInBounds_ne hne
  · rfl

theorem getElem?_foldl_patch_of_kept {b : CodeBuffer} {rs : List Reference} {ws : Array Word} {i : Nat}
    (h : ∀ r ∈ rs, r.position = i → b.definition? r.label = none) : (rs.foldl b.patch ws)[i]? = ws[i]? := by
  induction rs generalizing ws with
  | nil => rfl
  | cons r rs ih =>
    rw [List.foldl_cons, ih fun s hs => h s (List.mem_cons_of_mem r hs)]
    exact getElem?_patch_of_kept (h r List.mem_cons_self)

/-- The place of a use gets the address of its label: no other use stands there. -/
theorem getElem?_foldl_patch_of_mem {b : CodeBuffer} {rs : List Reference} {ws : Array Word} {r : Reference}
    {d : Definition} (increasing : rs.Pairwise fun r s => r.position < s.position) (hr : r ∈ rs)
    (hd : b.definition? r.label = some d) (bound : r.position < ws.size) :
    (rs.foldl b.patch ws)[r.position]? = some d.address := by
  induction rs generalizing ws with
  | nil => cases hr
  | cons s rs ih =>
    obtain ⟨hlt, hrest⟩ := List.pairwise_cons.mp increasing
    rw [List.foldl_cons]
    rcases List.mem_cons.mp hr with rfl | hr
    · rw [getElem?_foldl_patch_of_kept fun t ht heq => absurd heq (Nat.ne_of_gt (hlt t ht))]
      simp [patch, hd, bound]
    · exact ih hrest hr (by simpa using bound)

theorem words_link (b : CodeBuffer) : b.link.words = b.references.toList.foldl b.patch b.words := by
  rw [link, ← Array.foldl_toList]

@[simp] theorem references_link (b : CodeBuffer) : b.link.references = b.references := rfl

@[simp] theorem definitions_link (b : CodeBuffer) : b.link.definitions = b.definitions := rfl

@[simp] theorem definition?_link (b : CodeBuffer) (label : Text) :
    b.link.definition? label = b.definition? label := rfl

@[simp] theorem size_link (b : CodeBuffer) : b.link.size = b.size := by
  rw [size, words_link, size_foldl_patch, size]

theorem getElem?_link_of_kept {b : CodeBuffer} {i : Nat}
    (h : ∀ r ∈ b.references, r.position = i → b.definition? r.label = none) : b.link.words[i]? = b.words[i]? := by
  rw [words_link]
  exact getElem?_foldl_patch_of_kept fun r hr => h r (Array.mem_toList_iff.mp hr)

theorem WellFormed.getElem?_link {b : CodeBuffer} (h : b.WellFormed) {r : Reference} (hr : r ∈ b.references)
    {d : Definition} (hd : b.definition? r.label = some d) : b.link.words[r.position]? = some d.address := by
  rw [words_link]
  exact getElem?_foldl_patch_of_mem h.increasing (Array.mem_toList_iff.mpr hr) hd (h.bounded r hr)

theorem WellFormed.link {b : CodeBuffer} (h : b.WellFormed) : b.link.WellFormed where
  increasing := h.increasing
  bounded r hr := by
    rw [size_link]
    exact h.bounded r hr
  distinct := h.distinct

/-- Linking extends: what it writes over are places of uses, and a resolved place gets the word that it holds. -/
theorem WellFormed.extends_link {b : CodeBuffer} (h : b.WellFormed) : Extends b b.link where
  references := ⟨#[], by simp, by simp⟩
  definitions := ⟨#[], by simp⟩
  size_le := by simp
  kept i _ hu := getElem?_link_of_kept fun r hr heq => absurd heq (hu r hr)
  settled r hr hd := by
    obtain ⟨d, hlabel, hword⟩ := hd
    rw [h.getElem?_link hr hlabel, hword]

theorem WellFormed.apply {b : CodeBuffer} (h : b.WellFormed) (op : Operation) : (b.apply op).WellFormed := by
  cases op with
  | push w =>
    rw [CodeBuffer.apply, push_eq_grow]
    exact h.grow _
  | append ws =>
    rw [CodeBuffer.apply, append_eq_grow]
    exact h.grow _
  | fillTo length =>
    rw [CodeBuffer.apply, fillTo?_eq_grow]
    exact h.grow _
  | refer label line => exact h.refer label line
  | define label origin line => exact h.define label origin line
  | link => exact h.link

theorem extends_apply_of_ne_link (b : CodeBuffer) {op : Operation} (h : op ≠ .link) : Extends b (b.apply op) := by
  cases op with
  | push w =>
    rw [CodeBuffer.apply, push_eq_grow]
    exact extends_grow b _
  | append ws =>
    rw [CodeBuffer.apply, append_eq_grow]
    exact extends_grow b _
  | fillTo length =>
    rw [CodeBuffer.apply, fillTo?_eq_grow]
    exact extends_grow b _
  | refer label line => exact extends_refer b label line
  | define label origin line => exact extends_define b label origin line
  | link => exact absurd rfl h

theorem WellFormed.extends_apply {b : CodeBuffer} (h : b.WellFormed) (op : Operation) : Extends b (b.apply op) := by
  by_cases hop : op = .link
  · rw [hop]
    exact h.extends_link
  · exact extends_apply_of_ne_link b hop

theorem WellFormed.replay {b : CodeBuffer} (h : b.WellFormed) (ops : List Operation) : (b.replay ops).WellFormed := by
  induction ops generalizing b with
  | nil => exact h
  | cons op ops ih => exact ih (h.apply op)

theorem WellFormed.extends_replay {b : CodeBuffer} (h : b.WellFormed) (ops : List Operation) :
    Extends b (b.replay ops) := by
  induction ops generalizing b with
  | nil => exact .refl b
  | cons op ops ih => exact (h.extends_apply op).trans (ih (h.apply op))

/-- Without linking a history extends any buffer, well formed or not. -/
theorem extends_replay_of_not_mem (b : CodeBuffer) {ops : List Operation} (h : .link ∉ ops) :
    Extends b (b.replay ops) := by
  induction ops generalizing b with
  | nil => exact .refl b
  | cons op ops ih =>
    obtain ⟨hop, hops⟩ := List.ne_and_not_mem_of_not_mem_cons h
    exact (extends_apply_of_ne_link b (Ne.symm hop)).trans (ih _ hops)

theorem WellFormed.resolved_link {b : CodeBuffer} (h : b.WellFormed) {r : Reference} (hr : r ∈ b.references)
    {d : Definition} (hd : b.definition? r.label = some d) : b.link.Resolved r :=
  ⟨d, hd, h.getElem?_link hr hd⟩

theorem WellFormed.link_link {b : CodeBuffer} (h : b.WellFormed) : b.link.link = b.link := by
  have hwords : b.link.link.words = b.link.words := by
    apply Array.ext_getElem?
    intro i
    -- a place gets the same address both times, or neither linking writes there
    by_cases hused : ∃ r ∈ b.references, r.position = i ∧ b.definition? r.label ≠ none
    · obtain ⟨r, hr, rfl, hlabel⟩ := hused
      obtain ⟨d, hd⟩ := Option.ne_none_iff_exists'.mp hlabel
      rw [h.link.getElem?_link hr hd, h.getElem?_link hr hd]
    · apply getElem?_link_of_kept
      intro r hr heq
      exact Classical.byContradiction fun hlabel => hused ⟨r, hr, heq, hlabel⟩
  change CodeBuffer.mk b.link.link.words b.references b.definitions =
    CodeBuffer.mk b.link.words b.references b.definitions
  rw [hwords]

@[simp] theorem unresolved_link (b : CodeBuffer) : b.link.unresolved = b.unresolved := rfl

/-- What holds of a buffer `b` with any history and of every later stage `c`. Uses stand in order and inside the code,
so that linking writes in range. Words that are no places of uses stay, and the code never shrinks. A label has one
definition, which stays. A place that linking `b` fills keeps its word whatever follows. A second linking changes
nothing and reports the same. -/
theorem replay_stable (before after : List Operation) :
    let b := empty.replay before
    let c := b.replay after
    ((b.references.toList.Pairwise fun r s => r.position < s.position) ∧ ∀ r ∈ b.references, r.position < b.size) ∧
    ((∀ i, i < b.size → b.Unused i → c.words[i]? = b.words[i]?) ∧ b.size ≤ c.size) ∧
    ((b.definitions.toList.map (·.1)).Nodup ∧
      ∀ label d, b.definition? label = some d → c.definition? label = some d) ∧
    (∀ r ∈ b.references, ∀ d, b.definition? r.label = some d →
      b.link.words[r.position]? = some d.address ∧ (b.link.replay after).words[r.position]? = some d.address) ∧
    (b.link.link.words = b.link.words ∧ b.link.unresolved = b.unresolved) := by
  intro b c
  have hb : b.WellFormed := empty_wellFormed.replay before
  have hc : Extends b c := hb.extends_replay after
  refine ⟨⟨hb.increasing, hb.bounded⟩, ⟨hc.kept, hc.size_le⟩, ⟨hb.distinct, fun _ _ => hc.definition?⟩, ?_, ?_⟩
  · intro r hr d hd
    have hword := hb.getElem?_link hr hd
    refine ⟨hword, ?_⟩
    rw [(hb.link.extends_replay after).settled r hr (hb.resolved_link hr hd), hword]
  · exact ⟨congrArg words hb.link_link, unresolved_link b⟩

end R64.CodeBuffer
