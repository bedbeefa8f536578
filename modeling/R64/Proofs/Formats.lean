import Mathlib.Data.Nat.Size
import R64.Object.Image
import R64.Proofs.Literals
import R64.Proofs.Splicing
/-!
Image files read back. The readers here follow the formats and not the writer: bytes are taken in groups of four, text
is taken line by line. Main statement: in each format a file is read as the words that were written into it.
-/
namespace R64

namespace Text

variable {s : Text}

/-- Characters that one byte stands for and that end no line. -/
def isPrintable (c : Char) : Bool := decide (0x20 ≤ c.toNat ∧ c.toNat < 0x7F)

def Printable (s : Text) : Prop := ∀ c ∈ s, isPrintable c

instance : Decidable (Printable s) := List.decidableBAll (fun c => isPrintable c = true) s

theorem Printable.append {t : Text} (hs : Printable s) (ht : Printable t) : Printable (s ++ t) := by
  intro c hc
  rcases List.mem_append.mp hc with hc | hc
  · exact hs c hc
  · exact ht c hc

theorem printable_of_isDigit {base : Nat} (h : ∀ c ∈ s, Literal.isDigit base c) : Printable s := by
  intro c hc
  have halphanum := Literal.isAlphanum_of_isDigit (h c hc)
  rw [isAlphanum_iff] at halphanum
  exact decide_eq_true (by omega)

theorem toNat_byte {c : Char} (h : isPrintable c) : (UInt8.ofNat c.toNat).toNat = c.toNat := by
  have hrange := of_decide_eq_true h
  exact UInt8.toNat_ofNat_of_lt' (show c.toNat < 256 by omega)

theorem toBytes_of_printable (h : Printable s) : toBytes s = s.map fun c => UInt8.ofNat c.toNat := by
  induction s with
  | nil => rfl
  | cons c s ih =>
    have hc := of_decide_eq_true (h c List.mem_cons_self)
    have hbyte : String.utf8EncodeChar c = [UInt8.ofNat c.toNat] := if_pos (show c.toNat ≤ 0x7F by omega)
    have hrest := ih fun d hd => h d (List.mem_cons_of_mem c hd)
    rw [toBytes] at hrest
    rw [toBytes, List.flatMap_cons, hbyte, hrest]
    rfl

theorem ofBytes_toBytes (h : Printable s) : ofBytes (toBytes s) = s := by
  rw [toBytes_of_printable h]
  induction s with
  | nil => rfl
  | cons c s ih =>
    have hc := of_decide_eq_true (h c List.mem_cons_self)
    have hbyte := toNat_byte (h c List.mem_cons_self)
    have hlead : Lead.ofByte (UInt8.ofNat c.toNat).toNat = .single := by
      rw [hbyte, Lead.ofByte, if_pos (by omega)]
    rw [List.map_cons, ofBytes, hlead, hbyte, Char.ofNat_toNat, ih fun d hd => h d (List.mem_cons_of_mem c hd)]

theorem not_mem_toBytes {b : UInt8} (h : Printable s) (hb : b.toNat < 0x20) : b ∉ toBytes s := by
  rw [toBytes_of_printable h]
  intro hmem
  obtain ⟨c, hc, rfl⟩ := List.mem_map.mp hmem
  have hrange := of_decide_eq_true (h c hc)
  rw [toNat_byte (h c hc)] at hb
  omega

theorem dropTrail?_concat (c : Char) (s : Text) : dropTrail? c (s ++ [c]) = some s := by
  rw [dropTrail?, List.getLast?_concat, if_pos rfl, List.dropLast_concat]

end Text

/-- Printable lines, each ended by a line feed, are the lines of the file. -/
theorem Line.ofBytes_lines {lines : List Text} (h : ∀ line ∈ lines, line.Printable) :
    ofBytes (Text.toBytes (lines.flatMap Format.lineOf)) = lines := by
  have hpieces : Pieces 0x0A (Text.toBytes (lines.flatMap Format.lineOf)) (lines.map Text.toBytes) [] := by
    refine ⟨?_, ?_, List.not_mem_nil⟩
    · rw [List.append_nil, List.flatMap_map, Text.toBytes, List.flatMap_assoc]
      apply List.flatMap_congr
      intro line _
      rw [Format.lineOf, List.flatMap_append]
      rfl
    · intro piece hpiece
      obtain ⟨line, hline, rfl⟩ := List.mem_map.mp hpiece
      exact Text.not_mem_toBytes (h line hline) (by decide)
  rw [ofBytes, hpieces.cut_eq, if_pos rfl, List.append_nil, List.map_map, List.map_map]
  refine (List.map_congr_left ?_).trans (List.map_id lines)
  intro line hline
  have hreturn : withoutReturn 0x0D (Text.toBytes line) = Text.toBytes line := by
    rw [withoutReturn, if_neg]
    intro hlast
    exact Text.not_mem_toBytes (h line hline) (by decide) (List.mem_of_getLast? hlast)
  rw [Function.comp_apply, Function.comp_apply, hreturn, Text.ofBytes_toBytes (h line hline)]
  rfl

namespace Format

/-- Words from groups of four bytes, the lowest byte first. A group that is not whole is refused. -/
def readGroups? : List UInt8 → Option (List Word)
  | [] => some []
  | a :: b :: c :: d :: bytes =>
    (readGroups? bytes).map fun words =>
      UInt32.ofNat (a.toNat + 0x100 * b.toNat + 0x10000 * c.toNat + 0x1000000 * d.toNat) :: words
  | _ => none

/-- The three words of a line that ends in a semicolon. -/
def readTriple? (line : Text) : Option (Text × Text × Text) :=
  (Text.dropTrail? ';' line).bind fun body =>
    match body.split ' ' with
    | [first, second, third] => some (first, second, third)
    | _ => none

/-- The number of words that a line `DEPTH = number;` announces. -/
def readDepth? (line : Text) : Option Nat :=
  (readTriple? line).bind fun (name, mark, digits) =>
    if name = "DEPTH" ∧ mark = "=" then Literal.numeral? 10 digits else none

/-- The two numerals of a line `address : value;`. -/
def readRow? (line : Text) : Option (Text × Text) :=
  (readTriple? line).bind fun (address, mark, value) =>
    if mark = ":" ∧ Literal.isNumeral 16 address ∧ Literal.isNumeral 16 value then some (address, value) else none

def mifDepth? (bytes : List UInt8) : Option Nat := (Line.ofBytes bytes).findSome? readDepth?

def beginLine : Text := "BEGIN"

def endLine : Text := "END;"

/-- The rows between the beginning and the end of the content; empty lines do not count. -/
def mifRows? (bytes : List UInt8) : Option (List (Text × Text)) :=
  let content := ((Line.ofBytes bytes).dropWhile (· != beginLine)).tail.takeWhile (· != endLine)
  (content.filter (· != [])).mapM readRow?

/-- A numeral and the mark behind it. -/
def readValue? (line : Text) : Option (Text × Char) :=
  line.getLast?.bind fun mark => if Literal.isNumeral 16 line.dropLast then some (line.dropLast, mark) else none

/-- The entries of a vector, which stands behind two lines that announce it. -/
def coeEntries? (bytes : List UInt8) : Option (List (Text × Char)) :=
  match Line.ofBytes bytes with
  | radix :: vector :: entries =>
    if radix = "memory_initialization_radix=16;" ∧ vector = "memory_initialization_vector=" then
      entries.mapM readValue?
    else none
  | _ => none

def wordOf (digits : Text) : Word := UInt32.ofNat (Literal.value 16 digits)

/-- A comma behind each of `n` entries but the last, which has a semicolon. -/
def marks (n : Nat) : List Char := List.replicate (n - 1) ',' ++ [';']

/-- The words of an image file. Addresses have to count up to the depth, and marks to stand as the format wants. -/
def decode (f : Format) (bytes : List UInt8) : Option (List Word) :=
  match f with
  | .raw => readGroups? bytes
  | .mif =>
    (mifDepth? bytes).bind fun depth => (mifRows? bytes).bind fun rows =>
      if rows.map (fun row => Literal.value 16 row.1) = List.range depth then some (rows.map fun row => wordOf row.2)
      else none
  | .coe =>
    (coeEntries? bytes).bind fun entries =>
      if entries.map (·.2) = marks entries.length then some (entries.map fun entry => wordOf entry.1) else none

theorem readGroups?_littleEndian (words : List Word) : readGroups? (words.flatMap littleEndian) = some words := by
  induction words with
  | nil => rfl
  | cons w words ih =>
    have hlt := w.toNat_lt
    have hbyte (n : Nat) : (UInt8.ofNat (n % 256)).toNat = n % 256 :=
      UInt8.toNat_ofNat_of_lt (Nat.mod_lt n (by decide))
    have hword : w.toNat / 1 % 256 + 0x100 * (w.toNat / 0x100 % 256) + 0x10000 * (w.toNat / 0x10000 % 256) +
        0x1000000 * (w.toNat / 0x1000000 % 256) = w.toNat := by omega
    rw [List.flatMap_cons, littleEndian]
    simp only [List.map_cons, List.map_nil, List.cons_append, List.nil_append, readGroups?, ih, hbyte, hword,
      Option.map_some, UInt32.ofNat_toNat]

theorem readTriple?_eq {first second third : Text} (hfirst : ' ' ∉ first) (hsecond : ' ' ∉ second)
    (hthird : ' ' ∉ third) :
    readTriple? (first ++ ' ' :: (second ++ ' ' :: third) ++ [';']) = some (first, second, third) := by
  rw [readTriple?, Text.dropTrail?_concat, Option.bind_some, Text.split_append_of_not_mem hfirst,
    Text.split_append_of_not_mem hsecond, Text.split_of_not_mem hthird]

theorem not_mem_of_isDigit {base : Nat} {digits : Text} (h : ∀ c ∈ digits, Literal.isDigit base c) {c : Char}
    (hc : c.isAlphanum = false) : c ∉ digits := by
  intro hmem
  rw [Literal.isAlphanum_of_isDigit (h c hmem)] at hc
  cases hc

theorem isDigit_of_mem_decimal {n : Nat} {c : Char} (h : c ∈ Text.decimal n) : Literal.isDigit 10 c :=
  Literal.isDigit_of_mem_toDigits (by decide) (by decide) n c h

theorem isNumeral_hex (width n : Nat) : Literal.isNumeral 16 (Text.hex width n) := by
  rw [Literal.isNumeral, Bool.and_eq_true, bne_iff_ne, List.all_eq_true]
  refine ⟨?_, fun c hc => Literal.isDigit_of_mem_hex hc⟩
  intro hnil
  exact Nat.toDigits_ne_nil (List.append_eq_nil_iff.mp hnil).2

theorem wordOf_wordDigits (w : Word) : wordOf (wordDigits w) = w := by
  rw [wordOf, wordDigits, Literal.value_hex, UInt32.ofNat_toNat]

theorem isNumeral_wordDigits (w : Word) : Literal.isNumeral 16 (wordDigits w) := isNumeral_hex 8 w.toNat

theorem blank_not_mem_hex (width n : Nat) : ' ' ∉ Text.hex width n :=
  not_mem_of_isDigit (fun _ => Literal.isDigit_of_mem_hex) (by decide)

theorem printable_hex (width n : Nat) : Text.Printable (Text.hex width n) :=
  Text.printable_of_isDigit fun _ => Literal.isDigit_of_mem_hex

theorem blank_not_mem_wordDigits (w : Word) : ' ' ∉ wordDigits w := blank_not_mem_hex 8 w.toNat

def depthLine (depth : Nat) : Text := "DEPTH = " ++ Text.decimal depth ++ ";"

def rowLine (width : Nat) (row : Word × Nat) : Text := Text.hex width row.2 ++ " : " ++ wordDigits row.1 ++ ";"

def entryLine (entry : Word × Char) : Text := wordDigits entry.1 ++ [entry.2]

theorem readDepth?_depthLine (depth : Nat) : readDepth? (depthLine depth) = some depth := by
  have hline : depthLine depth = "DEPTH" ++ ' ' :: ("=" ++ ' ' :: Text.decimal depth) ++ [';'] := rfl
  have hblank : ' ' ∉ Text.decimal depth := not_mem_of_isDigit (fun _ => isDigit_of_mem_decimal) (by decide)
  have hnumeral : Literal.isNumeral 10 (Text.decimal depth) :=
    Literal.isNumeral_toDigits (by decide) (by decide) depth
  have hvalue : Literal.value 10 (Text.decimal depth) = depth := Literal.value_toDigits (by decide) (by decide) depth
  rw [readDepth?, hline, readTriple?_eq (by decide) (by decide) hblank, Option.bind_some]
  dsimp only
  rw [if_pos ⟨rfl, rfl⟩, Literal.numeral?, if_pos hnumeral, hvalue]

theorem readRow?_rowLine (width : Nat) (row : Word × Nat) :
    readRow? (rowLine width row) = some (Text.hex width row.2, wordDigits row.1) := by
  have hline : rowLine width row = Text.hex width row.2 ++ ' ' :: (":" ++ ' ' :: wordDigits row.1) ++ [';'] := by
    simp [rowLine]
  rw [readRow?, hline, readTriple?_eq (blank_not_mem_hex _ _) (by decide) (blank_not_mem_wordDigits _),
    Option.bind_some]
  exact if_pos ⟨rfl, isNumeral_hex _ _, isNumeral_wordDigits _⟩

theorem readValue?_entryLine (entry : Word × Char) :
    readValue? (entryLine entry) = some (wordDigits entry.1, entry.2) := by
  rw [readValue?, entryLine, List.getLast?_concat, Option.bind_some, List.dropLast_concat,
    if_pos (isNumeral_wordDigits _)]

theorem mapM_map_some {α β γ : Type} {read : β → Option γ} {write : α → β} {f : α → γ}
    (h : ∀ x, read (write x) = some (f x)) (xs : List α) : (xs.map write).mapM read = some (xs.map f) := by
  have hcomp : read ∘ write = fun x => pure (f x) := funext h
  rw [List.mapM_map, hcomp, List.mapM_pure]
  rfl

section Mif

variable (words : List Word)

def mifRows : List (Text × Text) :=
  words.zipIdx.map fun row => (Text.hex (addressWidth words.length) row.2, wordDigits row.1)

def mifContent : List Text := [] :: (words.zipIdx.map (rowLine (addressWidth words.length)) ++ [[]])

def mifHeader : List Text :=
  [depthLine words.length, "WIDTH = 32;", "ADDRESS_RADIX = HEX;", "DATA_RADIX = HEX;", "CONTENT"]

def mifLines : List Text := mifHeader words ++ beginLine :: (mifContent words ++ [endLine])

theorem mifText_eq : mifText words = (mifLines words).flatMap lineOf := by
  have hrows : (words.zipIdx.map (rowLine (addressWidth words.length))).flatMap lineOf =
      words.zipIdx.flatMap fun row => mifLine (addressWidth words.length) row.2 row.1 := by
    rw [List.flatMap_map]
    rfl
  rw [mifLines, List.flatMap_append, List.flatMap_cons, List.flatMap_append, mifContent, List.flatMap_cons,
    List.flatMap_append, hrows, List.flatMap_singleton, List.flatMap_singleton, mifText, mifHeader]
  simp only [List.flatMap_cons, List.flatMap_nil, List.append_nil, List.append_assoc]
  rfl

theorem ne_of_mem_mifContent {line : Text} (h : line ∈ mifContent words) : (line != endLine) = true := by
  rw [bne_iff_ne]
  rintro rfl
  simp only [mifContent, List.mem_cons, List.mem_append, List.mem_map] at h
  rcases h with h | ⟨row, -, h⟩ | h | h
  · cases h
  · have hcolon : ':' ∈ rowLine (addressWidth words.length) row := by simp [rowLine]
    rw [h] at hcolon
    exact absurd hcolon (by decide)
  · cases h
  · cases h

theorem filter_mifContent :
    (mifContent words).filter (· != []) = words.zipIdx.map (rowLine (addressWidth words.length)) := by
  have hrows : (words.zipIdx.map (rowLine (addressWidth words.length))).filter (· != []) =
      words.zipIdx.map (rowLine (addressWidth words.length)) := by
    rw [List.filter_eq_self]
    intro line hline
    obtain ⟨row, -, rfl⟩ := List.mem_map.mp hline
    simp [rowLine]
  rw [mifContent, List.filter_cons_of_neg (by decide), List.filter_append, hrows, List.filter_cons_of_neg (by decide),
    List.filter_nil, List.append_nil]

theorem printable_mifLines : ∀ line ∈ mifLines words, Text.Printable line := by
  have hdepth : Text.Printable (depthLine words.length) :=
    .append (.append (by decide) (Text.printable_of_isDigit fun _ => isDigit_of_mem_decimal)) (by decide)
  have hrow (row : Word × Nat) : Text.Printable (rowLine (addressWidth words.length) row) :=
    .append (.append (.append (printable_hex _ _) (by decide)) (printable_hex _ _)) (by decide)
  intro line hline
  simp only [mifLines, mifHeader, mifContent, List.mem_append, List.mem_cons, List.mem_map, List.not_mem_nil,
    or_false] at hline
  rcases hline with (rfl | rfl | rfl | rfl | rfl) | rfl | (rfl | ⟨row, -, rfl⟩ | rfl) | rfl
  · exact hdepth
  · decide
  · decide
  · decide
  · decide
  · decide
  · decide
  · exact hrow row
  · decide
  · decide

theorem lines_mif : Line.ofBytes (encode .mif words) = mifLines words := by
  rw [encode, mifText_eq, Line.ofBytes_lines (printable_mifLines words)]

theorem mifDepth?_encode : mifDepth? (encode .mif words) = some words.length := by
  rw [mifDepth?, lines_mif, mifLines, mifHeader, List.cons_append, List.findSome?_cons, readDepth?_depthLine]

theorem mifRows?_encode : mifRows? (encode .mif words) = some (mifRows words) := by
  have hbegin : (mifLines words).dropWhile (· != beginLine) = beginLine :: (mifContent words ++ [endLine]) := rfl
  rw [mifRows?, lines_mif, hbegin, List.tail_cons,
    List.takeWhile_append_of_pos fun line hline => ne_of_mem_mifContent words hline,
    List.takeWhile_cons_of_neg (by decide), List.append_nil, filter_mifContent, mapM_map_some (readRow?_rowLine _),
    mifRows]

end Mif

section Coe

def coeEntries (words : List Word) : List (Word × Char) := words.zip (marks words.length)

def coeHeader : List Text := ["memory_initialization_radix=16;", "memory_initialization_vector="]

theorem length_marks {n : Nat} (h : n ≠ 0) : (marks n).length = n := by
  rw [marks, List.length_append, List.length_replicate, List.length_singleton]
  omega

theorem coeEntries_concat (words : List Word) (last : Word) :
    coeEntries (words ++ [last]) = words.map (·, ',') ++ [(last, ';')] := by
  have hzip : words.zip (List.replicate words.length ',') = words.map (·, ',') := by
    induction words with
    | nil => rfl
    | cons w words ih => rw [List.length_cons, List.replicate_succ, List.zip_cons_cons, List.map_cons, ih]
  rw [coeEntries, marks, List.length_append, List.length_singleton, Nat.add_sub_cancel,
    List.zip_append List.length_replicate.symm, hzip]
  rfl

variable {words : List Word} (h : words ≠ [])

include h

theorem coeText_eq : coeText words = (coeHeader ++ (coeEntries words).map entryLine).flatMap lineOf := by
  obtain ⟨start, last, rfl⟩ := words.eq_nil_or_concat'.resolve_left h
  have hstart : start.flatMap (coeLine ",") = ((start.map (·, ',')).map entryLine).flatMap lineOf := by
    rw [List.flatMap_map, List.flatMap_map]
    rfl
  rw [coeEntries_concat, coeText, List.dropLast_concat, List.getLast?_concat, List.map_append, List.flatMap_append,
    List.flatMap_append, hstart, Option.toList_some, List.flatMap_singleton, List.map_singleton, List.flatMap_singleton,
    coeHeader, List.flatMap_cons, List.flatMap_singleton, List.append_assoc]
  rfl

omit h in
theorem printable_coeLines : ∀ line ∈ coeHeader ++ (coeEntries words).map entryLine, Text.Printable line := by
  intro line hline
  simp only [coeHeader, List.mem_append, List.mem_cons, List.mem_map, List.not_mem_nil, or_false] at hline
  rcases hline with (rfl | rfl) | ⟨⟨w, mark⟩, hentry, rfl⟩
  · decide
  · decide
  · refine .append (printable_hex _ _) ?_
    have hcomma : Text.Printable [','] := by decide
    have hsemicolon : Text.Printable [';'] := by decide
    rcases List.mem_append.mp (List.of_mem_zip hentry).2 with hmark | hmark
    · obtain rfl := List.eq_of_mem_replicate hmark
      exact hcomma
    · obtain rfl := List.mem_singleton.mp hmark
      exact hsemicolon

theorem coeEntries?_encode :
    coeEntries? (encode .coe words) = some ((coeEntries words).map fun entry => (wordDigits entry.1, entry.2)) := by
  rw [coeEntries?, encode, coeText_eq h, Line.ofBytes_lines printable_coeLines]
  exact (if_pos ⟨rfl, rfl⟩).trans (mapM_map_some readValue?_entryLine _)

theorem map_snd_coeEntries : (coeEntries words).map (·.2) = marks words.length := by
  have hlength : (marks words.length).length = words.length := length_marks (by simpa using h)
  exact List.map_snd_zip (Nat.le_of_eq hlength)

theorem map_fst_coeEntries : (coeEntries words).map (·.1) = words := by
  have hlength : (marks words.length).length = words.length := length_marks (by simpa using h)
  exact List.map_fst_zip (Nat.le_of_eq hlength.symm)

end Coe

theorem map_address_mifRows (words : List Word) :
    (mifRows words).map (fun row => Literal.value 16 row.1) = List.range words.length := by
  rw [mifRows, List.map_map, List.range_eq_range', ← List.zipIdx_map_snd 0 words]
  apply List.map_congr_left
  intro row _
  exact Literal.value_hex _ _

theorem map_word_mifRows (words : List Word) : (mifRows words).map (fun row => wordOf row.2) = words := by
  rw [mifRows, List.map_map]
  refine Eq.trans (List.map_congr_left ?_) (List.zipIdx_map_fst 0 words)
  intro row _
  exact wordOf_wordDigits row.1

theorem decode_encode (f : Format) {words : List Word} (h : words ≠ []) : f.decode (f.encode words) = some words := by
  cases f with
  | raw => exact readGroups?_littleEndian words
  | mif =>
    rw [decode, mifDepth?_encode, mifRows?_encode, Option.bind_some, Option.bind_some, map_address_mifRows,
      if_pos rfl, map_word_mifRows]
  | coe =>
    have hentries : ((coeEntries words).map fun entry => (wordDigits entry.1, entry.2)).map (·.2) =
        marks words.length := by
      rw [List.map_map, ← map_snd_coeEntries h]
      rfl
    have hwords : ((coeEntries words).map fun entry => (wordDigits entry.1, entry.2)).map
        (fun entry => wordOf entry.1) = words := by
      rw [List.map_map]
      refine Eq.trans (List.map_congr_left ?_) (map_fst_coeEntries h)
      intro entry _
      exact wordOf_wordDigits entry.1
    have hlength : ((coeEntries words).map fun entry => (wordDigits entry.1, entry.2)).length = words.length := by
      rw [List.length_map, ← List.length_map (·.1), map_fst_coeEntries h]
    rw [decode, coeEntries?_encode h, Option.bind_some, hentries, hlength, if_pos rfl, hwords]

theorem bitLength_eq_size (n : Nat) : bitLength n = n.size := by
  by_cases hn : n = 0
  · subst hn
    rfl
  · rw [bitLength, if_neg hn]
    apply Nat.le_antisymm
    · exact Nat.lt_size.mpr (Nat.log2_self_le hn)
    · exact Nat.size_le.mpr Nat.lt_log2_self

/-- The addresses of `depth` words have one width, which is that of the last address. -/
theorem length_hex_address {depth address : Nat} (h : address < depth) :
    (Text.hex (addressWidth depth) address).length = max 1 (((depth - 1).size + 3) / 4) := by
  have hdigits : (Nat.toDigits 16 address).length ≤ max 1 (((depth - 1).size + 3) / 4) := by
    rw [Nat.length_toDigits_le_iff (by decide) (by omega)]
    have hbound : address < 2 ^ (depth - 1).size := Nat.lt_of_le_of_lt (by omega) (Nat.lt_size_self (depth - 1))
    have hpower : (16 : Nat) ^ max 1 (((depth - 1).size + 3) / 4) = 2 ^ (4 * max 1 (((depth - 1).size + 3) / 4)) := by
      rw [Nat.pow_mul]
    rw [hpower]
    exact Nat.lt_of_lt_of_le hbound (Nat.pow_le_pow_right (by decide) (by omega))
  have hpositive : 0 < (Nat.toDigits 16 address).length := Nat.length_toDigits_pos
  rw [Text.hex, List.length_leftpad, addressWidth, bitLength_eq_size]
  omega

/-- An image file of any format is read as the words that it was written from. The text with addresses announces the
number of words and counts the addresses up, all with as many digits as the last one needs; the vector has a comma
behind each word but the last, which has a semicolon. So no two images have the same file in a format. -/
theorem encode_lossless (words : List Word) (h : words ≠ []) :
    (∀ f : Format, f.decode (f.encode words) = some words) ∧
    (mifDepth? (encode .mif words) = some words.length ∧
      ∃ rows, mifRows? (encode .mif words) = some rows ∧
        rows.map (fun row => Literal.value 16 row.1) = List.range words.length ∧
        ∀ row ∈ rows, row.1.length = max 1 (((words.length - 1).size + 3) / 4)) ∧
    (∃ entries, coeEntries? (encode .coe words) = some entries ∧
      entries.map (·.2) = List.replicate (words.length - 1) ',' ++ [';']) ∧
    ∀ (f : Format) (words' : List Word), words' ≠ [] → f.encode words' = f.encode words → words' = words := by
  refine ⟨fun f => f.decode_encode h, ⟨mifDepth?_encode words, ?_⟩, ?_, ?_⟩
  · refine ⟨mifRows words, mifRows?_encode words, map_address_mifRows words, ?_⟩
    intro row hrow
    obtain ⟨⟨w, address⟩, hmem, rfl⟩ := List.mem_map.mp hrow
    exact length_hex_address (List.snd_lt_of_mem_zipIdx hmem)
  · refine ⟨_, coeEntries?_encode h, ?_⟩
    rw [List.map_map]
    exact map_snd_coeEntries h
  · intro f words' h' heq
    have hdecode := f.decode_encode h'
    rw [heq, f.decode_encode h] at hdecode
    exact (Option.some.inj hdecode).symm

/-- Seventeen words, the least number whose addresses take two digits. -/
theorem encode_lossless_seventeen :
    let words : List Word := List.replicate 17 0xDEADBEEF
    words ≠ [] ∧ (∀ f : Format, f.decode (f.encode words) = some words) ∧
      ∃ rows, mifRows? (encode .mif words) = some rows ∧ ∀ row ∈ rows, row.1.length = 2 := by
  intro words
  have hne : words ≠ [] := by decide
  have hdigits : max 1 (((words.length - 1).size + 3) / 4) = 2 := by decide
  obtain ⟨hdecode, ⟨-, rows, hrows, -, hwidth⟩, -⟩ := encode_lossless words hne
  rw [hdigits] at hwidth
  exact ⟨hne, hdecode, rows, hrows, hwidth⟩

end Format

end R64
