import R64.Proofs.Progress
/-!
The memory size as a threshold. Lines look at it in one place only, the directive for an address. As long as two runs of
the same sources with different sizes do the same, they are one run; where they part, neither can give an image in the
smaller memory any more. Main statement: a larger memory adds zeros to an image, and a smaller one that the code fits
into gives the same image without them.
-/
namespace R64

theorem CodeBuffer.size_of_fillTo? {b c : CodeBuffer} {length : Nat} (h : b.fillTo? length = some c) :
    c.size = length := by
  unfold fillTo? at h
  split at h
  · cases h
  · cases h
    simp only [size] at *
    simp only [Array.size_append, Array.size_replicate]
    omega

namespace Assembly

/-- An error was reported or the code is too long: nothing that follows gives an image of this size. -/
def Lost (memorySize : Nat) (a : Assembly) : Prop := (∃ d ∈ a.diagnostics, d.level = .error) ∨ memorySize < a.code.size

theorem Lost.of_continues {memorySize : Nat} {a b : Assembly} (h : a.Lost memorySize) (hb : Continues a b) :
    b.Lost memorySize := by
  rcases h with ⟨d, hd, hlevel⟩ | hsize
  · exact .inl ⟨d, Array.mem_toList_iff.mp (hb.diagnostics.subset (Array.mem_toList_iff.mpr hd)), hlevel⟩
  · exact .inr (Nat.lt_of_lt_of_le hsize hb.code.size_le)

theorem lost_reject (memorySize : Nat) (a : Assembly) (line : Line) (fault : Fault) :
    (a.reject line [fault]).Lost memorySize :=
  .inl ⟨.error fault (some line), by simp [reject, report], rfl⟩

section Sizes

variable {m m' : Nat} (hle : m ≤ m')

include hle

theorem moveTo_memorySize (a : Assembly) (line : Line) (address : Word) :
    a.moveTo m' line address = a.moveTo m line address ∨
      (a.moveTo m line address).Lost m ∧ (a.moveTo m' line address).Lost m := by
  unfold moveTo
  dsimp only
  split
  · exact .inl rfl
  · split
    · exact .inl rfl
    · by_cases hfits : (address - a.origin).toNat ≤ m
      · rw [if_neg (by omega), if_neg (by omega)]
        exact .inl rfl
      · rw [if_pos (show m < (address - a.origin).toNat by omega)]
        refine .inr ⟨lost_reject m a line _, ?_⟩
        split
        · exact lost_reject m a line _
        · split
          · next code hfill =>
            refine .inr ?_
            rw [CodeBuffer.size_of_fillTo? hfill]
            omega
          · exact lost_reject m a line _

theorem org_memorySize (a : Assembly) (line : Line) (name operand : Text) :
    a.org m' line name operand = a.org m line name operand ∨
      (a.org m line name operand).Lost m ∧ (a.org m' line name operand).Lost m := by
  unfold org
  split
  · exact .inl rfl
  · exact moveTo_memorySize hle _ line _
  · exact .inl rfl

theorem execute_memorySize (a : Assembly) (line : Line) (s : Statement) :
    a.execute m' line s = a.execute m line s ∨
      (a.execute m line s).1.Lost m ∧ (a.execute m' line s).1.Lost m := by
  cases s with
  | blank => exact .inl rfl
  | unknown name => exact .inl rfl
  | instruction d name operands => exact .inl rfl
  | directive d name operands =>
    simp only [execute, direct]
    split
    · exact .inl rfl
    · next operand =>
      rcases org_memorySize hle a line name operand with h | h
      · exact .inl (by rw [h])
      · exact .inr h
    · exact .inl rfl
    · exact .inl rfl
    · exact .inl rfl

theorem process_memorySize (a : Assembly) (line : Line) :
    a.process m' line = a.process m line ∨
      (a.process m line).1.Lost m ∧ (a.process m' line).1.Lost m := by
  rw [process_eq, process_eq]
  exact execute_memorySize hle _ line _

end Sizes

end Assembly

namespace Session

variable {m m' : Nat} (hle : m ≤ m') (fs : FileSystem)

include hle

theorem handle_memorySize (s : Session) (item : Except Fault Line) :
    s.handle fs m' item = s.handle fs m item ∨
      (s.handle fs m item).assembly.Lost m ∧ (s.handle fs m' item).assembly.Lost m := by
  cases item with
  | error fault => exact .inl rfl
  | ok line =>
    rcases Assembly.process_memorySize hle s.assembly line with h | ⟨h, h'⟩
    · left
      rw [handle_ok, handle_ok, h]
    · right
      exact ⟨h.of_continues (handle_ok_of_persists (Assembly.persists_continues m) fs s line),
        h'.of_continues (handle_ok_of_persists (Assembly.persists_continues m') fs s line)⟩

/-- Two scans end alike, or both end without hope of an image in the smaller memory. -/
theorem scan_memorySize (s : Session) :
    s.scan fs m' = s.scan fs m ∨ (s.scan fs m).Lost m ∧ (s.scan fs m').Lost m := by
  induction s using scan_induction fs m with
  | done s source hnext =>
    rw [scan_of_none hnext, scan_of_none hnext]
    exact .inl rfl
  | take s item source hnext ih =>
    rw [scan_of_some hnext, scan_of_some hnext]
    rcases handle_memorySize hle fs { s with source } item with h | ⟨h, h'⟩
    · rw [h]
      exact ih
    -- from here on the two sessions may read different files
    · right
      exact ⟨h.of_continues (scan_of_persists (Assembly.persists_continues m) fs _),
        h'.of_continues (scan_of_persists (Assembly.persists_continues m') fs _)⟩

end Session

namespace Assembly

theorem isSome_image_finish_iff (memorySize : Nat) (a : Assembly) :
    (a.finish memorySize).image.isSome ↔ ¬ a.Lost memorySize ∧ a.code.unresolved = [] := by
  constructor
  · intro h
    obtain ⟨image, himage⟩ := Option.isSome_iff_exists.mp h
    obtain ⟨hsize, hresolved, -⟩ := of_image_finish himage
    refine ⟨?_, hresolved⟩
    rintro (⟨d, hd, hlevel⟩ | hlt)
    · refine (isSome_image_finish memorySize a).mp h d ?_ hlevel
      rw [← Array.mem_toList_iff, diagnostics_finish, List.append_assoc]
      exact List.mem_append_left _ (Array.mem_toList_iff.mpr hd)
    · omega
  · rintro ⟨hlost, hresolved⟩
    rw [isSome_image_finish]
    intro d hd hlevel
    rw [← Array.mem_toList_iff, diagnostics_finish, hresolved, List.append_nil,
      if_neg fun hlt => hlost (.inr hlt), List.append_nil, Array.mem_toList_iff] at hd
    exact hlost (.inl ⟨d, hd, hlevel⟩)

/-- An assembly that fits is finished alike in every memory, apart from the zeros behind the code. -/
theorem finish_memorySize {m m' : Nat} (hle : m ≤ m') {a : Assembly} {image : Array Word}
    (h : (a.finish m).image = some image) :
    a.finish m' = { a.finish m with image := some (image ++ Array.replicate (m' - m) 0) } := by
  obtain ⟨hsize, -, rfl⟩ := of_image_finish h
  have hdiagnostics : (a.finish m').diagnostics = (a.finish m).diagnostics := by
    apply Array.toList_inj.mp
    rw [diagnostics_finish, diagnostics_finish, if_neg (by omega), if_neg (by omega)]
  have himage : (a.finish m').image =
      some (a.code.link.words ++ Array.replicate (m - a.code.size) 0 ++ Array.replicate (m' - m) 0) := by
    have hsum : m' - a.code.size = (m - a.code.size) + (m' - m) := by omega
    rw [image_finish] at h ⊢
    rw [hdiagnostics]
    split at h
    · cases h
    · next hnone => rw [if_neg hnone, Array.append_assoc, Array.replicate_append_replicate, hsum]
  calc a.finish m'
    _ = { image := (a.finish m').image, diagnostics := (a.finish m').diagnostics
          segments := a.segments, symbols := a.code.link.symbols } := rfl
    _ = _ := by
      rw [himage, hdiagnostics]
      rfl

/-- The memory size is a threshold. What can be assembled for one memory is assembled for a larger one with the same
messages, segments and symbols, and zeros behind the image. What can be assembled for the larger memory can be assembled
for the smaller one exactly if the code fits into it. -/
theorem run_memorySize (fs : FileSystem) (source : SourceStack) (m m' : Nat) (hle : m ≤ m')
    (hlimit : m' ≤ memoryLimit) :
    (∀ image, (run fs m source).image = some image →
      run fs m' source = { run fs m source with image := some (image ++ Array.replicate (m' - m) 0) }) ∧
    ((run fs m' source).image.isSome →
      ((run fs m source).image.isSome ↔ (Session.scan fs m' ⟨source, .empty⟩).code.size ≤ m)) := by
  rw [run_of_not_lt (show ¬ memoryLimit < m by omega), run_of_not_lt (show ¬ memoryLimit < m' by omega)]
  have hscan := Session.scan_memorySize hle fs ⟨source, .empty⟩
  constructor
  · intro image himage
    have hsome : ((Session.scan fs m ⟨source, .empty⟩).finish m).image.isSome := by
      rw [himage]
      rfl
    rcases hscan with hscan | ⟨hlost, -⟩
    · rw [hscan]
      exact finish_memorySize hle himage
    · exact absurd hlost ((isSome_image_finish_iff m _).mp hsome).1
  · intro hsome'
    obtain ⟨hlost', hresolved'⟩ := (isSome_image_finish_iff m' _).mp hsome'
    constructor
    · intro hsome
      obtain ⟨hlost, -⟩ := (isSome_image_finish_iff m _).mp hsome
      rcases hscan with hscan | ⟨habsurd, -⟩
      · rw [hscan]
        exact Nat.le_of_not_lt fun hlt => hlost (.inr hlt)
      · exact absurd habsurd hlost
    · intro hfits
      rcases hscan with hscan | ⟨-, herror | hlt⟩
      · rw [← hscan, isSome_image_finish_iff]
        refine ⟨?_, hresolved'⟩
        rintro (herror | hlt)
        · exact hlost' (.inl herror)
        · omega
      · exact absurd (.inl herror) hlost'
      · omega

/-- Five words of code with a gap in them, for memories of five, eight and four words. -/
theorem run_memorySize_gap :
    let source := SourceStack.ofText "" "gap" "jmp end\n.org [4]\nend: nop"
    let image : Array Word := #[0x5C3C0000, 4, 0, 0, 0]
    (run ⟨[], []⟩ 5 source).image = some image ∧
    run ⟨[], []⟩ 8 source = { run ⟨[], []⟩ 5 source with image := some (image ++ Array.replicate 3 0) } ∧
    ((run ⟨[], []⟩ 4 source).image.isSome ↔ 5 ≤ 4) := by
  intro source image
  have himage : (run ⟨[], []⟩ 5 source).image = some image := by decide +kernel
  have hlarger := (run_memorySize ⟨[], []⟩ source 5 8 (by decide) (by decide)).1 image himage
  have hsmaller := (run_memorySize ⟨[], []⟩ source 4 8 (by decide) (by decide)).2 (by rw [hlarger]; rfl)
  have hlength : (Session.scan ⟨[], []⟩ 8 ⟨source, .empty⟩).code.size = 5 := by decide +kernel
  rw [hlength] at hsmaller
  exact ⟨himage, hlarger, hsmaller⟩

end Assembly

end R64
