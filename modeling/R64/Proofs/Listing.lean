import R64.Listing
import R64.Proofs.Encoding
import R64.Proofs.Literals
import R64.Proofs.Segments
/-!
The listing against the image. Lines of a listing are read back as the address and the word that they show. Main
statement: every word of the image that is not zero belongs to one segment, and the listing shows the words of the
segments, in order, at their addresses.
-/
namespace R64

namespace Listing

/-- The address and the word that a line shows, if it shows any. -/
def readWord? (line : Text) : Option (Word × Word) :=
  (Text.dropLead? '[' line).map fun rest =>
    let address := rest.takeWhile (· != ']')
    let bytes := (rest.dropWhile (· != ']')).tail.takeWhile (· != '|')
    (UInt32.ofNat (Literal.value 16 address), UInt32.ofNat (Literal.value 16 (bytes.filter (· != ' '))))

theorem ne_of_mem_hexUpper {width n : Nat} {c d : Char} (h : c ∈ Text.hexUpper width n)
    (hd : d.isAlphanum = false) : (c != d) = true := by
  rw [bne_iff_ne]
  rintro rfl
  rw [Literal.isAlphanum_of_isDigit (Literal.isDigit_of_mem_hexUpper h)] at hd
  cases hd

theorem bytes_eq (w : Word) :
    bytes w = Text.hexUpper 2 (w.toNat / 0x1000000 % 256) ++ " " ++ Text.hexUpper 2 (w.toNat / 0x10000 % 256) ++ " " ++
      Text.hexUpper 2 (w.toNat / 0x100 % 256) ++ " " ++ Text.hexUpper 2 (w.toNat / 1 % 256) := by
  simp [bytes, List.intercalate]

theorem of_mem_bytes {w : Word} {c : Char} (h : c ∈ bytes w) : (c != '|') = true := by
  have hblank : c ∈ (" " : Text) → (c != '|') = true := by
    intro hc
    obtain rfl := List.mem_singleton.mp hc
    decide
  have hdigit {n : Nat} : c ∈ Text.hexUpper 2 n → (c != '|') = true := fun hc => ne_of_mem_hexUpper hc (by decide)
  simp only [bytes_eq, List.mem_append] at h
  rcases h with (((((h | h) | h) | h) | h) | h) | h
  · exact hdigit h
  · exact hblank h
  · exact hdigit h
  · exact hblank h
  · exact hdigit h
  · exact hblank h
  · exact hdigit h

theorem filter_hexUpper (width n : Nat) : (Text.hexUpper width n).filter (· != ' ') = Text.hexUpper width n :=
  List.filter_eq_self.mpr fun _ hc => ne_of_mem_hexUpper hc (by decide)

theorem value_bytes (w : Word) : Literal.value 16 ((bytes w).filter (· != ' ')) = w.toNat := by
  have hlt := w.toNat_lt
  have hblank : (" " : Text).filter (· != ' ') = [] := by decide
  have hmod (n : Nat) : n % 256 < 256 := Nat.mod_lt n (by decide)
  simp only [bytes_eq, List.filter_append, filter_hexUpper, hblank, List.append_nil,
    Literal.value_append_pair 16 _ (Literal.length_hexUpper_two (hmod _)), Literal.value_hexUpper]
  omega

/-- A line for a word is read as the word and its address. -/
theorem readWord?_wordLine (address w : Word) (number body : Text) :
    readWord? (wordLine address w number body) = some (address, w) := by
  have hline : Text.dropLead? '[' (wordLine address w number body) =
      some (Text.hexUpper 4 address.toNat ++ ']' ::
        ((' ' :: bytes w ++ [' ']) ++ '|' :: (" " ++ Text.padLeft 4 number ++ ": " ++ body))) := by
    delta wordLine
    simp [Text.dropLead?]
  have haddress : ∀ c ∈ Text.hexUpper 4 address.toNat, (c != ']') = true :=
    fun c hc => ne_of_mem_hexUpper hc (by decide)
  have hbytes : ∀ c ∈ ' ' :: bytes w ++ [' '], (c != '|') = true := by
    intro c hc
    simp only [List.mem_append, List.mem_cons, List.not_mem_nil, or_false] at hc
    rcases hc with (rfl | hc) | rfl
    · decide
    · exact of_mem_bytes hc
    · decide
  have hvalue : Literal.value 16 ((' ' :: bytes w ++ [' ']).filter (· != ' ')) = w.toNat := by
    rw [List.filter_append, List.filter_cons_of_neg (by decide), List.filter_singleton, ← value_bytes w]
    simp
  rw [readWord?, hline, Option.map_some]
  dsimp only
  rw [List.takeWhile_append_of_pos haddress, List.dropWhile_append_of_pos haddress,
    List.takeWhile_cons_of_neg (by decide), List.dropWhile_cons_of_neg (by decide), List.append_nil, List.tail_cons,
    List.takeWhile_append_of_pos hbytes, List.takeWhile_cons_of_neg (by decide), List.append_nil, hvalue,
    Literal.value_hexUpper, UInt32.ofNat_toNat, UInt32.ofNat_toNat]

theorem readWord?_fileHeader (file : Text) : readWord? (fileHeader file) = none := rfl

theorem readWord?_separator : readWord? separator = none := rfl

theorem readWord?_symbolLine (symbol : Text × Word) : readWord? (symbolLine symbol) = none := rfl

/-- The words of a segment, each with its address. -/
def shownWords (image : Array Word) (s : Segment) : List (Word × Word) :=
  (segmentWords image s).zipIdx.map fun (w, k) => (s.address + UInt32.ofNat k, w)

theorem filterMap_segmentLines (image : Array Word) (s : Segment) :
    (segmentLines image s).filterMap readWord? = shownWords image s := by
  rw [segmentLines, List.filterMap_map, shownWords, ← List.filterMap_eq_map]
  apply List.filterMap_congr
  rintro ⟨w, k⟩ -
  exact readWord?_wordLine _ _ _ _

theorem filterMap_segmentsLines (image : Array Word) (previous : Option Text) (segments : List Segment) :
    (segmentsLines image previous segments).filterMap readWord? = segments.flatMap (shownWords image) := by
  induction segments generalizing previous with
  | nil => rfl
  | cons s rest ih =>
    have hheader : (if previous = some s.line.file then [] else [fileHeader s.line.file]).filterMap readWord? = [] := by
      split
      · rfl
      · rw [List.filterMap_cons_none (readWord?_fileHeader _), List.filterMap_nil]
    rw [segmentsLines, List.filterMap_append, List.filterMap_append, hheader, filterMap_segmentLines, ih,
      List.nil_append, List.flatMap_cons]

/-- Only the lines of the segments show words. -/
theorem filterMap_lines {r : Report} {image : Array Word} (h : r.image = some image) :
    (lines r).filterMap readWord? = r.segments.toList.flatMap (shownWords image) := by
  have hsymbols : (r.symbols.toList.map symbolLine).filterMap readWord? = [] := by
    rw [List.filterMap_map]
    exact List.filterMap_eq_nil_iff.mpr fun symbol _ => readWord?_symbolLine symbol
  have hrest : (if r.symbols.isEmpty then [] else separator :: r.symbols.toList.map symbolLine).filterMap
      readWord? = [] := by
    split
    · rfl
    · rw [List.filterMap_cons_none readWord?_separator, hsymbols]
  rw [lines, h]
  dsimp only
  rw [List.filterMap_append, List.filterMap_append, filterMap_segmentsLines, hrest,
    List.filterMap_cons_none readWord?_separator, List.filterMap_nil, List.append_nil, List.append_nil]

theorem mem_segmentsLines {image : Array Word} {line : Text} {s : Segment} {segments : List Segment}
    (hs : s ∈ segments) (h : line ∈ segmentLines image s) (previous : Option Text) :
    line ∈ segmentsLines image previous segments := by
  induction segments generalizing previous with
  | nil => cases hs
  | cons t rest ih =>
    rw [segmentsLines]
    rcases List.mem_cons.mp hs with rfl | hs
    · exact List.mem_append_left _ (List.mem_append_right _ h)
    · exact List.mem_append_right _ (ih hs _)

end Listing

def Segment.positions (s : Segment) : List Nat := List.range' s.start (s.stop - s.start)

theorem Segment.mem_positions {s : Segment} {i : Nat} : i ∈ s.positions ↔ s.holds i := by
  rw [positions, List.mem_range'_1, holds, decide_eq_true_iff]
  omega

namespace Listing

variable {image : Array Word} {segments : List Segment}

theorem map_shownWords {s : Segment} {origin : Word} (hstop : s.stop ≤ image.size)
    (haddress : s.address = origin + UInt32.ofNat s.start) :
    (shownWords image s).map (fun x => (x.1, some x.2)) =
      s.positions.map fun i => (origin + UInt32.ofNat i, image[i]?) := by
  have hlength : (segmentWords image s).length = s.stop - s.start := by
    rw [segmentWords, Array.length_toList, Array.size_extract]
    omega
  apply List.ext_getElem
  · rw [shownWords, Segment.positions, List.length_map, List.length_map, List.length_map, List.length_zipIdx,
      List.length_range', hlength]
  · intro k hk hk'
    have hlt : s.start + k < image.size := by
      rw [Segment.positions, List.length_map, List.length_range'] at hk'
      omega
    simp [shownWords, segmentWords, Segment.positions, haddress, hlt, UInt32.add_assoc, UInt32.ofNat_add]

/-- What the lines for the segments show, place by place. -/
theorem map_flatMap_shownWords {origin : Word} (hstop : ∀ s ∈ segments, s.stop ≤ image.size)
    (haddress : ∀ s ∈ segments, s.address = origin + UInt32.ofNat s.start) :
    (segments.flatMap (shownWords image)).map (fun x => (x.1, some x.2)) =
      (segments.flatMap Segment.positions).map fun i => (origin + UInt32.ofNat i, image[i]?) := by
  rw [List.map_flatMap, List.map_flatMap]
  apply List.flatMap_congr
  intro s hs
  exact map_shownWords (hstop s hs) (haddress s hs)

theorem pairwise_positions (h : segments.Pairwise fun s t => s.stop ≤ t.start) :
    (segments.flatMap Segment.positions).Pairwise (· < ·) := by
  rw [List.pairwise_flatMap]
  refine ⟨fun s _ => List.pairwise_lt_range', h.imp ?_⟩
  intro s t hst i hi j hj
  rw [Segment.mem_positions, Segment.holds, decide_eq_true_iff] at hi hj
  omega

theorem countP_holds (h : segments.Pairwise fun s t => s.stop ≤ t.start) {i : Nat} {s : Segment}
    (hs : s ∈ segments) (hi : s.holds i) : segments.countP (·.holds i) = 1 := by
  induction segments with
  | nil => cases hs
  | cons t rest ih =>
    obtain ⟨hfirst, hrest⟩ := List.pairwise_cons.mp h
    simp only [Segment.holds, decide_eq_true_iff] at hi
    rcases List.mem_cons.mp hs with rfl | hs
    · have hlater : rest.countP (·.holds i) = 0 := by
        rw [List.countP_eq_zero]
        intro u hu
        have hbehind := hfirst u hu
        simp only [Segment.holds, decide_eq_true_iff]
        omega
      rw [List.countP_cons_of_pos (by simpa [Segment.holds] using hi), hlater]
    · have hbehind := hfirst s hs
      rw [List.countP_cons_of_neg (by simp only [Segment.holds, decide_eq_true_iff]; omega)]
      exact ih hrest hs

/-- A listing shows the words of an image, in segments that leave out nothing but zeros. -/
structure Faithful (r : Report) (image : Array Word) (origin : Word) : Prop where
  covered : ∀ i w, image[i]? = some w → w ≠ 0 → r.segments.toList.countP (·.holds i) = 1
  inside : ∀ s ∈ r.segments, s.stop ≤ image.size
  increasing : (r.segments.toList.flatMap Segment.positions).Pairwise (· < ·)
  shown : ((lines r).filterMap readWord?).map (fun x => (x.1, some x.2)) =
    (r.segments.toList.flatMap Segment.positions).map fun i => (origin + UInt32.ofNat i, image[i]?)
  immediate : ∀ s ∈ r.segments, s.isInstruction → ∀ w, image[s.start]? = some w → (Fields.unpack w).imm →
    s.stop = s.start + 2 ∧ ∃ v before, image[s.start + 1]? = some v ∧
      wordLine s.address w (Text.decimal s.line.number)
        (before ++ Terminal.coloured .yellow ("0x" ++ Text.hexUpper 8 v.toNat) ++ "  <- " ++ Text.trim s.line.text) ∈
          lines r

/-- The first line for an instruction ends with the word behind it, if the flag is set, and its source. -/
theorem mem_lines_of_instruction {r : Report} (h : r.image = some image) {s : Segment} (hs : s ∈ r.segments)
    (hinstruction : s.isInstruction) (hlt : s.start < s.stop) {w v : Word} (hword : image[s.start]? = some w)
    (himm : (Fields.unpack w).imm) (hnext : image[s.start + 1]? = some v) :
    ∃ before, wordLine s.address w (Text.decimal s.line.number)
      (before ++ Terminal.coloured .yellow ("0x" ++ Text.hexUpper 8 v.toNat) ++ "  <- " ++ Text.trim s.line.text) ∈
        lines r := by
  obtain ⟨before, hrender⟩ : ∃ before, (Fields.unpack w).render (some v) =
      before ++ Terminal.coloured .yellow ("0x" ++ Text.hexUpper 8 v.toNat) := by
    rw [Fields.render, Fields.immediateText, if_pos himm]
    exact ⟨_, rfl⟩
  have hbody : body image s w = before ++ Terminal.coloured .yellow ("0x" ++ Text.hexUpper 8 v.toNat) ++ "  <- " ++
      Text.trim s.line.text := by
    rw [body, if_pos hinstruction, hnext, hrender]
  have hfirst : (w, 0) ∈ (segmentWords image s).zipIdx := by
    have hsize := (Array.getElem?_eq_some_iff.mp hword).1
    rw [List.mem_zipIdx_iff_getElem?, segmentWords, Array.getElem?_toList, Array.getElem?_extract_of_lt (by omega),
      ← Array.getElem?_eq_getElem]
    exact hword
  have hline : wordLine s.address w (Text.decimal s.line.number) (body image s w) ∈ segmentLines image s := by
    refine List.mem_map.mpr ⟨(w, 0), hfirst, ?_⟩
    simp
  refine ⟨before, ?_⟩
  rw [← hbody, lines, h]
  dsimp only
  exact List.mem_append_left _ (List.mem_append_left _ (mem_segmentsLines (Array.mem_toList_iff.mpr hs) hline none))

end Listing

namespace Assembly

variable {fs : FileSystem} {memorySize : Nat} {source : SourceStack}

/-- Behind the code there are zeros. -/
theorem eq_zero_of_size_le {a : Assembly} {image : Array Word} (h : (a.finish memorySize).image = some image) {i : Nat}
    (hi : a.code.size ≤ i) {w : Word} (hword : image[i]? = some w) : w = 0 := by
  obtain ⟨-, -, rfl⟩ := of_image_finish h
  have hlinked : a.code.link.words.size ≤ i := Nat.le_trans (Nat.le_of_eq (CodeBuffer.size_link a.code)) hi
  rw [Array.getElem?_append_right hlinked, Array.getElem?_replicate, Option.ite_none_right_eq_some] at hword
  exact (Option.some.inj hword.2).symm

theorem size_le_of_image {a : Assembly} {image : Array Word} (h : (a.finish memorySize).image = some image) :
    a.code.size ≤ image.size := by
  obtain ⟨-, -, rfl⟩ := of_image_finish h
  rw [Array.size_append, ← CodeBuffer.size_link]
  exact Nat.le_add_right _ _

/-- A word that is not zero stands in a segment. -/
theorem exists_segment_of_ne_zero {image : Array Word}
    (h : ((Session.scan fs memorySize ⟨source, .empty⟩).finish memorySize).image = some image) {i : Nat} {w : Word}
    (hword : image[i]? = some w) (hw : w ≠ 0) :
    ∃ s ∈ (Session.scan fs memorySize ⟨source, .empty⟩).segments.toList, s.holds i := by
  by_contra hout
  have hsize : i < (Session.scan fs memorySize ⟨source, .empty⟩).code.size := by
    by_contra hge
    exact hw (eq_zero_of_size_le h (Nat.not_lt.mp hge) hword)
  obtain ⟨hzero, hunused⟩ := (accounted_scan fs memorySize source).rest i hsize (by simpa using hout)
  have himage := getElem?_image_of_unused h hzero hunused
  rw [hword] at himage
  exact hw (Option.some.inj himage)

/-- The segments of a run are not empty, they lie in the code, in order and apart, and the listing of a run that
succeeds is faithful to them. -/
theorem run_listing (fs : FileSystem) (memorySize : Nat) (source : SourceStack) :
    let r := run fs memorySize source
    let final := Session.scan fs memorySize ⟨source, .empty⟩
    r.segments.toList.Pairwise (fun s t => s.stop ≤ t.start) ∧
    (∀ s ∈ r.segments, s.start < s.stop ∧ s.stop ≤ final.code.size) ∧
    ∀ image, r.image = some image → Listing.Faithful r image final.origin := by
  intro r final
  by_cases hlimit : memoryLimit < memorySize
  · have hrun := run_of_lt hlimit fs source
    rw [show r = _ from hrun]
    simp
  have hrun : r = final.finish memorySize := run_of_not_lt hlimit fs source
  have haccounted := accounted_scan fs memorySize source
  rw [hrun]
  refine ⟨haccounted.ordered, fun s hs => haccounted.inside s (Array.mem_toList_iff.mpr hs), ?_⟩
  intro image himage
  have hinside : ∀ s ∈ final.segments.toList, s.stop ≤ image.size := fun s hs =>
    Nat.le_trans (haccounted.inside s hs).2 (size_le_of_image himage)
  refine ⟨?_, fun s hs => hinside s (Array.mem_toList_iff.mpr hs),
    Listing.pairwise_positions haccounted.ordered, ?_, ?_⟩
  · intro i w hword hw
    obtain ⟨s, hs, hi⟩ := exists_segment_of_ne_zero himage hword hw
    exact Listing.countP_holds haccounted.ordered hs hi
  · rw [Listing.filterMap_lines himage]
    exact Listing.map_flatMap_shownWords hinside haccounted.address
  · intro s hs hinstruction w hword himm
    have hs' : s ∈ final.segments.toList := Array.mem_toList_iff.mpr hs
    obtain ⟨-, -, -, -, i, -, -, -, -, hlength, hpacked, hunused⟩ := instruction_of_segment hs' hinstruction
    have hw : i.fields.pack = w := by
      rw [getElem?_image_of_unused himage hpacked hunused] at hword
      exact Option.some.inj hword
    have hstop : s.stop = s.start + 2 := by
      rw [← hw, Instruction.unpack_pack_fields] at himm
      rw [hlength, if_pos himm]
    have hlt : s.start + 1 < image.size := by
      have hle := hinside s hs'
      omega
    have hnext := Array.getElem?_eq_getElem hlt
    obtain ⟨before, hline⟩ :=
      Listing.mem_lines_of_instruction himage hs hinstruction (by omega) hword himm hnext
    exact ⟨hstop, _, before, hnext, hline⟩

/-- Two segments with a gap between them, at an origin. -/
theorem run_listing_gap :
    let source := SourceStack.ofText "" "gap" ".org [0x100]\njmp last\n.org [0x104]\nlast: .dw 7"
    let image : Array Word := #[0x5C3C0000, 0x104, 0, 0, 7, 0, 0, 0]
    (run ⟨[], []⟩ 8 source).image = some image ∧ Listing.Faithful (run ⟨[], []⟩ 8 source) image 0x100 := by
  intro source image
  have himage : (run ⟨[], []⟩ 8 source).image = some image := by decide +kernel
  have horigin : (Session.scan ⟨[], []⟩ 8 ⟨source, .empty⟩).origin = 0x100 := by decide +kernel
  have hfaithful := (run_listing ⟨[], []⟩ 8 source).2.2 image himage
  rw [horigin] at hfaithful
  exact ⟨himage, hfaithful⟩

end Assembly

end R64
