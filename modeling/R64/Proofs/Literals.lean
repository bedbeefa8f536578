import Mathlib.Algebra.Group.Int.Defs
import Mathlib.Algebra.Group.Nat.Defs
import R64.Literal.Basic
import R64.Proofs.Lexing
/-!
Literals: the characters that integers, registers and single-precision numbers consist of, by which they can be told
apart. Main statements: the hexadecimal numeral of a word is read as the word, the name of a register as the register,
and no number is a register.
-/
namespace R64.Literal

theorem digit?_digitChar {d : Nat} (h : d < 16) : digit? d.digitChar = some d := by
  have hall : ∀ d < 16, digit? d.digitChar = some d := by decide
  exact hall d h

theorem digitValue_digitChar {d : Nat} (h : d < 16) : digitValue d.digitChar = d := by
  rw [digitValue, digit?_digitChar h, Option.getD_some]

theorem isDigit_digitChar {base d : Nat} (hbase : base ≤ 16) (h : d < base) : isDigit base d.digitChar := by
  rw [isDigit, digit?_digitChar (by omega)]
  exact decide_eq_true h

theorem value_concat (base : Nat) (s : Text) (c : Char) :
    value base (s ++ [c]) = value base s * base + digitValue c := by
  rw [value, List.foldl_append]
  rfl

section Numerals

variable {base : Nat} (hbase : 1 < base) (hbase' : base ≤ 16)

include hbase hbase'

theorem isDigit_of_mem_toDigits (n : Nat) : ∀ c ∈ Nat.toDigits base n, isDigit base c := by
  induction n using Nat.strongRecOn with
  | ind n ih =>
    intro c hc
    rw [Nat.toDigits_eq_if hbase] at hc
    split at hc
    · next hlt =>
      obtain rfl := List.mem_singleton.mp hc
      exact isDigit_digitChar hbase' hlt
    · next hge =>
      rcases List.mem_append.mp hc with hc | hc
      · exact ih (n / base) (Nat.div_lt_self (by omega) hbase) c hc
      · obtain rfl := List.mem_singleton.mp hc
        exact isDigit_digitChar hbase' (Nat.mod_lt n (by omega))

theorem isNumeral_toDigits (n : Nat) : isNumeral base (Nat.toDigits base n) := by
  rw [isNumeral, Bool.and_eq_true, bne_iff_ne, List.all_eq_true]
  exact ⟨Nat.toDigits_ne_nil, isDigit_of_mem_toDigits hbase hbase' n⟩

/-- A numeral is read as its number. -/
theorem value_toDigits (n : Nat) : value base (Nat.toDigits base n) = n := by
  induction n using Nat.strongRecOn with
  | ind n ih =>
    rw [Nat.toDigits_eq_if hbase]
    split
    · next hlt =>
      have hvalue := value_concat base [] n.digitChar
      rw [List.nil_append, digitValue_digitChar (by omega)] at hvalue
      simpa [value] using hvalue
    · next hge =>
      have hmod : n % base < base := Nat.mod_lt n (by omega)
      rw [value_concat, ih (n / base) (Nat.div_lt_self (by omega) hbase), digitValue_digitChar (by omega)]
      exact Nat.div_add_mod' n base

end Numerals

/-- Digits stand in three ranges of characters. -/
theorem digit?_cases {c : Char} {d : Nat} (h : digit? c = some d) :
    (48 ≤ c.toNat ∧ c.toNat ≤ 57) ∧ d = c.toNat - 48 ∨ (97 ≤ c.toNat ∧ c.toNat ≤ 102) ∧ d = c.toNat - 97 + 10 ∨
      (65 ≤ c.toNat ∧ c.toNat ≤ 70) ∧ d = c.toNat - 65 + 10 := by
  have hle (d : Char) : d ≤ c ↔ d.toNat ≤ c.toNat := UInt32.le_iff_toNat_le
  have hge (d : Char) : c ≤ d ↔ c.toNat ≤ d.toNat := UInt32.le_iff_toNat_le
  simp only [digit?, hle, hge] at h
  split at h
  · next hrange => exact .inl ⟨hrange, (Option.some.inj h).symm⟩
  · split at h
    · next hrange => exact .inr (.inl ⟨hrange, (Option.some.inj h).symm⟩)
    · split at h
      · next hrange => exact .inr (.inr ⟨hrange, (Option.some.inj h).symm⟩)
      · cases h

theorem exists_of_isDigit {base : Nat} {c : Char} (h : isDigit base c) : ∃ d, digit? c = some d ∧ d < base := by
  rw [isDigit] at h
  cases hdigit : digit? c with
  | none => simp [hdigit] at h
  | some d => exact ⟨d, rfl, by simpa [hdigit] using h⟩

theorem digitValue_lt {base : Nat} {c : Char} (h : isDigit base c) : digitValue c < base := by
  obtain ⟨d, hdigit, hd⟩ := exists_of_isDigit h
  rwa [digitValue, hdigit]

theorem isAlphanum_of_isDigit {base : Nat} {c : Char} (h : isDigit base c) : c.isAlphanum := by
  obtain ⟨d, hdigit, -⟩ := exists_of_isDigit h
  rw [Text.isAlphanum_iff]
  rcases digit?_cases hdigit with ⟨hrange, -⟩ | ⟨hrange, -⟩ | ⟨hrange, -⟩ <;> omega

theorem lt_of_isDigit {base : Nat} {c : Char} (h : isDigit base c) : c.toNat < 103 := by
  obtain ⟨d, hdigit, -⟩ := exists_of_isDigit h
  rcases digit?_cases hdigit with ⟨hrange, -⟩ | ⟨hrange, -⟩ | ⟨hrange, -⟩ <;> omega

theorem toNat_of_isDigit_ten {c : Char} (h : isDigit 10 c) : 48 ≤ c.toNat ∧ c.toNat ≤ 57 := by
  obtain ⟨d, hdigit, hd⟩ := exists_of_isDigit h
  rcases digit?_cases hdigit with ⟨hrange, -⟩ | ⟨-, heq⟩ | ⟨-, heq⟩
  · exact hrange
  · omega
  · omega

theorem value_append_pair (base : Nat) (s : Text) {t : Text} (h : t.length = 2) :
    value base (s ++ t) = value base s * (base * base) + value base t := by
  obtain ⟨c, d, rfl⟩ := List.length_eq_two.mp h
  simp only [value, List.foldl_append, List.foldl_cons, List.foldl_nil, Nat.zero_mul, Nat.zero_add, Nat.add_mul,
    Nat.mul_assoc, Nat.add_assoc]

theorem value_zeros (base k : Nat) : value base (List.replicate k '0') = 0 := by
  induction k with
  | zero => rfl
  | succ k ih =>
    rw [List.replicate_succ', value_concat, ih, Nat.zero_mul]
    rfl

theorem isDigit_toUpper {c : Char} (h : isDigit 16 c) : isDigit 16 c.toUpper ∧ digitValue c.toUpper = digitValue c := by
  have hall : ∀ n < 103, isDigit 16 (Char.ofNat n) → isDigit 16 (Char.ofNat n).toUpper ∧
      digitValue (Char.ofNat n).toUpper = digitValue (Char.ofNat n) := by
    decide
  have hchar := hall c.toNat (lt_of_isDigit h)
  rw [Char.ofNat_toNat] at hchar
  exact hchar h

theorem value_upper {base : Nat} {s : Text} (h : ∀ c ∈ s, isDigit 16 c) : value base (Text.upper s) = value base s := by
  have hfold (n : Nat) : (Text.upper s).foldl (fun n c => n * base + digitValue c) n =
      s.foldl (fun n c => n * base + digitValue c) n := by
    induction s generalizing n with
    | nil => rfl
    | cons c s ih =>
      rw [Text.upper, List.map_cons, List.foldl_cons, List.foldl_cons, (isDigit_toUpper (h c List.mem_cons_self)).2]
      exact ih (fun d hd => h d (List.mem_cons_of_mem c hd)) _
  exact hfold 0

theorem isDigit_of_mem_hex {width n : Nat} {c : Char} (h : c ∈ Text.hex width n) : isDigit 16 c := by
  rcases List.mem_append.mp h with h | h
  · obtain rfl := (List.mem_replicate.mp h).2
    decide
  · exact isDigit_of_mem_toDigits (by decide) (by decide) n c h

theorem isDigit_of_mem_hexUpper {width n : Nat} {c : Char} (h : c ∈ Text.hexUpper width n) : isDigit 16 c := by
  obtain ⟨d, hd, rfl⟩ := List.mem_map.mp h
  exact (isDigit_toUpper (isDigit_of_mem_hex hd)).1

/-- A numeral keeps its value behind zeros. -/
theorem value_hex (width n : Nat) : value 16 (Text.hex width n) = n := by
  have hzeros := value_zeros 16 (width - (Nat.toDigits 16 n).length)
  have hdigits : value 16 (Nat.toDigits 16 n) = n := value_toDigits (by decide) (by decide) n
  rw [value] at hzeros hdigits
  rw [Text.hex, List.leftpad, value, List.foldl_append, hzeros, hdigits]

theorem value_hexUpper (width n : Nat) : value 16 (Text.hexUpper width n) = n := by
  rw [Text.hexUpper, value_upper fun c hc => isDigit_of_mem_hex hc, value_hex]

theorem length_hexUpper_two {n : Nat} (h : n < 256) : (Text.hexUpper 2 n).length = 2 := by
  have hall : ∀ n < 256, (Text.hexUpper 2 n).length = 2 := by decide +kernel
  exact hall n h

/-- A sign that is split off is the only character in front of the rest. -/
theorem mem_splitSign {s : Text} {c : Char} (h : c ∈ s) : c = '+' ∨ c = '-' ∨ c ∈ (splitSign s).2 := by
  cases s with
  | nil => cases h
  | cons d s =>
    rw [splitSign]
    split
    · next hd =>
      rcases List.mem_cons.mp h with rfl | h
      · exact .inr (.inl hd)
      · exact .inr (.inr h)
    · split
      · next hd =>
        rcases List.mem_cons.mp h with rfl | h
        · exact .inl hd
        · exact .inr (.inr h)
      · exact .inr (.inr h)

theorem isAlphanum_of_mem_marker (r : Radix) : ∀ c ∈ r.marker, c.isAlphanum :=
  List.all_eq_true.mp (by cases r <;> decide)

theorem digits?_eq_some_iff {r : Radix} {s digits : Text} :
    r.digits? s = some digits ↔ (splitSign s).2 = r.marker ++ digits ∧ isNumeral r.base digits := by
  rw [Radix.digits?]
  constructor
  · intro h
    split at h
    · next hcond =>
      cases h
      rw [Bool.and_eq_true, List.isPrefixOf_iff_prefix] at hcond
      obtain ⟨⟨rest, hrest⟩, hnumeral⟩ := hcond
      rw [← hrest, List.drop_left] at hnumeral ⊢
      exact ⟨rfl, hnumeral⟩
    · cases h
  · rintro ⟨hbody, hnumeral⟩
    simp [hbody, hnumeral]

theorem isInteger_iff {s : Text} : isInteger s ↔ ∃ (r : Radix) (digits : Text), r.digits? s = some digits := by
  rw [isInteger, List.any_eq_true]
  constructor
  · rintro ⟨r, -, hr⟩
    exact ⟨r, Option.isSome_iff_exists.mp hr⟩
  · rintro ⟨r, hr⟩
    exact ⟨r, by cases r <;> decide, Option.isSome_iff_exists.mpr hr⟩

theorem of_isNumeral {base : Nat} {s : Text} (h : isNumeral base s) : s ≠ [] ∧ ∀ c ∈ s, isDigit base c := by
  rwa [isNumeral, Bool.and_eq_true, bne_iff_ne, List.all_eq_true] at h

/-- The first character after the sign of an integer is a decimal digit in every notation. -/
theorem head_of_digits? {r : Radix} {s digits : Text} (h : r.digits? s = some digits) :
    ∃ c ∈ (splitSign s).2.head?, isDigit 10 c := by
  obtain ⟨hbody, hnumeral⟩ := digits?_eq_some_iff.mp h
  rw [hbody]
  cases r with
  | decimal =>
    obtain ⟨hne, hdigits⟩ := of_isNumeral hnumeral
    obtain ⟨c, rest, rfl⟩ := List.exists_cons_of_ne_nil hne
    exact ⟨c, rfl, hdigits c List.mem_cons_self⟩
  | hexadecimal => exact ⟨'0', rfl, by decide⟩
  | binary => exact ⟨'0', rfl, by decide⟩

theorem of_mem_isInteger {s : Text} (h : isInteger s) {c : Char} (hc : c ∈ s) :
    c = '+' ∨ c = '-' ∨ c.isAlphanum := by
  obtain ⟨r, digits, hr⟩ := isInteger_iff.mp h
  obtain ⟨hbody, hnumeral⟩ := digits?_eq_some_iff.mp hr
  rcases mem_splitSign hc with hc | hc | hc
  · exact .inl hc
  · exact .inr (.inl hc)
  · rw [hbody] at hc
    rcases List.mem_append.mp hc with hc | hc
    · exact .inr (.inr (isAlphanum_of_mem_marker r c hc))
    · exact .inr (.inr (isAlphanum_of_isDigit ((of_isNumeral hnumeral).2 c hc)))

section Notations

variable {α : Type} (f : Radix → Text → α) {r : Radix} {s digits : Text}

theorem isSome_findSome?_digits? :
    (Radix.all.findSome? fun r => (r.digits? s).map (f r)).isSome = isInteger s := by
  simp only [isInteger, Radix.all, List.any_cons, List.any_nil, List.findSome?_cons, List.findSome?_nil]
  cases Radix.decimal.digits? s with
  | some digits => rfl
  | none =>
    cases Radix.hexadecimal.digits? s with
    | some digits => rfl
    | none => cases Radix.binary.digits? s <;> rfl

/-- The letter behind the zero tells the notations apart. -/
theorem findSome?_digits? (h : r.digits? s = some digits) :
    (Radix.all.findSome? fun r => (r.digits? s).map (f r)) = some (f r digits) := by
  obtain ⟨hbody, -⟩ := digits?_eq_some_iff.mp h
  have hdecimal (hletter : ∃ c ∈ (splitSign s).2, isDigit 10 c = false) : Radix.decimal.digits? s = none := by
    rw [Option.eq_none_iff_forall_ne_some]
    intro ds hds
    obtain ⟨hbody', hnumeral⟩ := digits?_eq_some_iff.mp hds
    obtain ⟨c, hc, hletter⟩ := hletter
    rw [hbody'] at hc
    have hdigit : isDigit 10 c := (of_isNumeral hnumeral).2 c hc
    rw [hletter] at hdigit
    cases hdigit
  cases r with
  | decimal => simp [Radix.all, h]
  | hexadecimal =>
    have hnone := hdecimal ⟨'x', by simp [hbody, Radix.marker], by decide⟩
    simp [Radix.all, hnone, h]
  | binary =>
    have hnone := hdecimal ⟨'b', by simp [hbody, Radix.marker], by decide⟩
    have hhexadecimal : Radix.hexadecimal.digits? s = none := by
      rw [Option.eq_none_iff_forall_ne_some]
      intro ds hds
      have hsame := hbody.symm.trans (digits?_eq_some_iff.mp hds).1
      cases hsame
    simp [Radix.all, hnone, hhexadecimal, h]

end Notations

/-- The value of an integer literal, of any size. -/
def integerValue? (s : Text) : Option Int :=
  (Radix.all.findSome? fun r => (r.digits? s).map (value r.base)).map fun n : Nat =>
    if (splitSign s).1 then -(n : Int) else n

/-- The word for an integer that has a signed or an unsigned representation in 32 bits. -/
def wordOfInt? (v : Int) : Option Word :=
  if -0x80000000 ≤ v ∧ v < 0x100000000 then some (UInt32.ofInt v) else none

theorem isInteger_eq_isSome (s : Text) : isInteger s = (integerValue? s).isSome := by
  rw [integerValue?, Option.isSome_map, isSome_findSome?_digits? fun r => value r.base]

theorem integerValue?_of_digits? {r : Radix} {s digits : Text} (h : r.digits? s = some digits) :
    integerValue? s = some (if (splitSign s).1 then -(value r.base digits : Int) else value r.base digits) := by
  rw [integerValue?, findSome?_digits? (fun r => value r.base) h]
  rfl

theorem Radix.base_pos (r : Radix) : 0 < r.base := by cases r <;> decide

theorem Radix.base_le (r : Radix) : r.base ≤ 16 := by cases r <;> decide

theorem checkedMul_ofNat {a b : Nat} (ha : a < 2 ^ 63) (hb : b < 2 ^ 63) :
    checkedMul (Int64.ofNat a) (Int64.ofNat b) =
      if a * b < 2 ^ 63 then some (Int64.ofNat (a * b)) else none := by
  have hflag : BitVec.smulOverflow (Int64.ofNat a).toBitVec (Int64.ofNat b).toBitVec ↔ ¬ a * b < 2 ^ 63 := by
    rw [BitVec.smulOverflow, Int64.toInt_toBitVec, Int64.toInt_toBitVec, Int64.toInt_ofNat_of_lt ha,
      Int64.toInt_ofNat_of_lt hb, ← Int.natCast_mul, Bool.or_eq_true, decide_eq_true_iff, decide_eq_true_iff]
    omega
  rw [checkedMul, ← Int64.ofNat_mul, if_congr hflag rfl rfl, ite_not]

theorem checkedAdd_ofNat {a b : Nat} (ha : a < 2 ^ 63) (hb : b < 2 ^ 63) :
    checkedAdd (Int64.ofNat a) (Int64.ofNat b) =
      if a + b < 2 ^ 63 then some (Int64.ofNat (a + b)) else none := by
  have hflag : BitVec.saddOverflow (Int64.ofNat a).toBitVec (Int64.ofNat b).toBitVec ↔ ¬ a + b < 2 ^ 63 := by
    rw [BitVec.saddOverflow, Int64.toInt_toBitVec, Int64.toInt_toBitVec, Int64.toInt_ofNat_of_lt ha,
      Int64.toInt_ofNat_of_lt hb, Bool.or_eq_true, decide_eq_true_iff, decide_eq_true_iff]
    omega
  rw [checkedAdd, ← Int64.ofNat_add, if_congr hflag rfl rfl, ite_not]

section Checked

variable {base : Nat} (hpositive : 0 < base) (hbase : base ≤ 16)

include hbase in
theorem pushDigit?_ofNat {n : Nat} (hn : n < 2 ^ 63) {c : Char} (hc : isDigit base c) :
    pushDigit? base (Int64.ofNat n) c =
      if n * base + digitValue c < 2 ^ 63 then some (Int64.ofNat (n * base + digitValue c)) else none := by
  have hdigit := digitValue_lt hc
  rw [pushDigit?, checkedMul_ofNat hn (by omega)]
  by_cases hmul : n * base < 2 ^ 63
  · rw [if_pos hmul, Option.bind_some, checkedAdd_ofNat hmul (by omega)]
  · rw [if_neg hmul, Option.bind_none, if_neg (by omega)]

include hpositive in
theorem le_foldl_value (n : Nat) (s : Text) : n ≤ s.foldl (fun n c => n * base + digitValue c) n := by
  induction s generalizing n with
  | nil => exact Nat.le_refl n
  | cons c s ih =>
    calc n ≤ n * base := Nat.le_mul_of_pos_right n hpositive
      _ ≤ n * base + digitValue c := Nat.le_add_right _ _
      _ ≤ _ := ih _

include hpositive hbase

theorem foldlM_pushDigit? {n : Nat} (hn : n < 2 ^ 63) {s : Text} (hs : ∀ c ∈ s, isDigit base c) :
    s.foldlM (pushDigit? base) (Int64.ofNat n) =
      if s.foldl (fun n c => n * base + digitValue c) n < 2 ^ 63 then
        some (Int64.ofNat (s.foldl (fun n c => n * base + digitValue c) n))
      else none := by
  induction s generalizing n with
  | nil => exact (if_pos hn).symm
  | cons c s ih =>
    rw [List.foldlM_cons, List.foldl_cons, pushDigit?_ofNat hbase hn (hs c List.mem_cons_self)]
    by_cases hstep : n * base + digitValue c < 2 ^ 63
    · rw [if_pos hstep]
      exact ih hstep fun d hd => hs d (List.mem_cons_of_mem c hd)
    · have hle := le_foldl_value hpositive (n * base + digitValue c) s
      rw [if_neg hstep, if_neg (by omega)]
      rfl

/-- Read in 64 bits, digits overflow exactly if their number does not fit. -/
theorem value64?_eq {s : Text} (hs : ∀ c ∈ s, isDigit base c) :
    value64? base s = if value base s < 2 ^ 63 then some (Int64.ofNat (value base s)) else none :=
  foldlM_pushDigit? hpositive hbase (by decide) hs

end Checked

theorem toUInt32_ofInt (v : Int) : (Int64.ofInt v).toUInt64.toUInt32 = UInt32.ofInt v := by
  have hword : (Int64.ofInt v).toUInt64.toNat = (v % 2 ^ 64).toNat := BitVec.toNat_ofInt v
  rw [← UInt32.toNat_inj, UInt64.toNat_toUInt32, hword, UInt32.ofInt, UInt32.toNat_ofNat']
  omega

theorem ofInt_outside_iff {v : Int} (hlow : -2 ^ 63 ≤ v) (hhigh : v < 2 ^ 63) :
    Int64.ofInt v < -0x80000000 ∨ 0xffffffff < Int64.ofInt v ↔ ¬ (-0x80000000 ≤ v ∧ v < 0x100000000) := by
  have hleast : (-0x80000000 : Int64).toInt = -0x80000000 := by decide
  have hgreatest : (0xffffffff : Int64).toInt = 0xffffffff := by decide
  rw [Int64.lt_iff_toInt_lt, Int64.lt_iff_toInt_lt, Int64.toInt_ofInt_of_le hlow hhigh, hleast, hgreatest]
  omega

/-- The reading in 64 bits, with its negation, range check and truncation, is the one by unbounded integers. -/
theorem inRadix_eq {base : Nat} (hpositive : 0 < base) (hbase : base ≤ 16) (s : Text) {digits : Text}
    (hdigits : ∀ c ∈ digits, isDigit base c) :
    inRadix s digits base =
      match wordOfInt? (if (splitSign s).1 then -(value base digits : Int) else value base digits) with
      | some w => .ok w
      | none => .error (.outOfRange s) := by
  rw [inRadix, value64?_eq hpositive hbase hdigits]
  by_cases hlt : value base digits < 2 ^ 63
  · generalize hv : (if (splitSign s).1 then -(value base digits : Int) else value base digits) = v
    have hsigned : (if (splitSign s).1 then -Int64.ofNat (value base digits) else Int64.ofNat (value base digits)) =
        Int64.ofInt v := by
      rw [← hv]
      split
      · rw [Int64.ofInt_neg]
        rfl
      · rfl
    have houtside := ofInt_outside_iff (v := v) (by split at hv <;> omega) (by split at hv <;> omega)
    rw [if_pos hlt]
    dsimp only
    rw [hsigned, toUInt32_ofInt, wordOfInt?, if_congr houtside rfl rfl, ite_not]
    split <;> rfl
  · rw [if_neg hlt, wordOfInt?, if_neg (by split <;> omega)]

theorem integer_of_some {s : Text} {v : Int} (h : integerValue? s = some v) :
    integer s = match wordOfInt? v with
      | some w => .ok w
      | none => .error (.outOfRange s) := by
  obtain ⟨r, digits, hr⟩ := isInteger_iff.mp (by rw [isInteger_eq_isSome, h, Option.isSome_some])
  obtain ⟨-, hnumeral⟩ := digits?_eq_some_iff.mp hr
  rw [integerValue?_of_digits? hr, Option.some_inj] at h
  rw [integer, findSome?_digits? (fun r digits => inRadix s digits r.base) hr]
  dsimp only
  rw [inRadix_eq r.base_pos r.base_le s (of_isNumeral hnumeral).2, h]

theorem integer_of_none {s : Text} (h : integerValue? s = none) :
    integer s = match character s with
      | .ok w => .ok w
      | .error _ => .error (.integer s) := by
  have hnone : (Radix.all.findSome? fun r => (r.digits? s).map fun digits => inRadix s digits r.base) = none := by
    rw [← Option.not_isSome_iff_eq_none, isSome_findSome?_digits? fun r digits => inRadix s digits r.base,
      isInteger_eq_isSome, h]
    decide
  cases hcharacter : character s <;> simp only [integer, hnone, hcharacter]

def hexadecimal (w : Word) : Text := "0x" ++ Text.hex 1 w.toNat

theorem hexadecimal_eq (w : Word) : hexadecimal w = '0' :: 'x' :: Nat.toDigits 16 w.toNat := by
  have hpad : Text.hex 1 w.toNat = Nat.toDigits 16 w.toNat := by
    have hpositive : 0 < (Nat.toDigits 16 w.toNat).length := Nat.length_toDigits_pos
    rw [Text.hex, List.leftpad, Nat.sub_eq_zero_of_le hpositive]
    rfl
  rw [hexadecimal, hpad]
  rfl

theorem isAlphanum_of_mem_hexadecimal {w : Word} {c : Char} (h : c ∈ hexadecimal w) : c.isAlphanum := by
  rw [hexadecimal_eq, List.mem_cons, List.mem_cons] at h
  rcases h with rfl | rfl | h
  · decide
  · decide
  · exact isAlphanum_of_isDigit (isDigit_of_mem_toDigits (by decide) (by decide) w.toNat c h)

theorem splitSign_hexadecimal (w : Word) : splitSign (hexadecimal w) = (false, hexadecimal w) := by
  rw [hexadecimal_eq]
  rfl

theorem digits?_hexadecimal (w : Word) :
    Radix.hexadecimal.digits? (hexadecimal w) = some (Nat.toDigits 16 w.toNat) := by
  rw [digits?_eq_some_iff, splitSign_hexadecimal, hexadecimal_eq]
  exact ⟨rfl, isNumeral_toDigits (by decide) (by decide) w.toNat⟩

theorem integerValue?_hexadecimal (w : Word) : integerValue? (hexadecimal w) = some (w.toNat : Int) := by
  have hvalue : value 16 (Nat.toDigits 16 w.toNat) = w.toNat := value_toDigits (by decide) (by decide) w.toNat
  rw [integerValue?_of_digits? (digits?_hexadecimal w), splitSign_hexadecimal, Radix.base, hvalue]
  rfl

theorem wordOfInt?_toNat (w : Word) : wordOfInt? w.toNat = some w := by
  have hlt := w.toNat_lt
  have hmod : ((w.toNat : Int) % 2 ^ 32).toNat = w.toNat := by omega
  rw [wordOfInt?, if_pos (by omega), UInt32.ofInt, hmod, UInt32.ofNat_toNat]

theorem wordOfInt?_eq_some_iff {v : Int} {w : Word} :
    wordOfInt? v = some w ↔ (-0x80000000 ≤ v ∧ v ≤ 0xffffffff) ∧ w = UInt32.ofInt v := by
  rw [wordOfInt?, Option.ite_none_right_eq_some, Option.some_inj, eq_comm (a := w)]
  exact and_congr_left fun _ => and_congr Iff.rfl (by omega)

theorem integer_of_integerValue? {s : Text} {v : Int} {w : Word} (h : integerValue? s = some v)
    (hv : wordOfInt? v = some w) : integer s = .ok w := by
  rw [integer_of_some h, hv]

theorem exists_of_integer {s : Text} {w : Word} (hinteger : isInteger s) (h : integer s = .ok w) :
    ∃ v, integerValue? s = some v ∧ wordOfInt? v = some w := by
  rw [isInteger_eq_isSome] at hinteger
  obtain ⟨v, hv⟩ := Option.isSome_iff_exists.mp hinteger
  refine ⟨v, hv, ?_⟩
  rw [integer_of_some hv] at h
  split at h
  · next hword =>
    cases h
    exact hword
  · cases h

theorem integer_hexadecimal (w : Word) : integer (hexadecimal w) = .ok w :=
  integer_of_integerValue? (integerValue?_hexadecimal w) (wordOfInt?_toNat w)

theorem word_of_integer {s : Text} {w : Word} (h : integer s = .ok w) : word s = .ok w := by
  simp only [word, h]

theorem register_name (r : Register) : register r.name = .ok r := by
  have hall : ∀ r : Register, registerNumber? r.name = some r.val ∨
      registerNumber? r.name = none ∧ Register.ofName? r.name = some r := by
    decide +kernel
  rcases hall r with hnumber | ⟨hnumber, hname⟩
  · simp [register, hnumber]
  · simp [register, hnumber, hname]

theorem isRegister_name (r : Register) : isRegister r.name := by
  rw [isRegister, register_name]

theorem isAlphanum_of_toLower {c : Char} (h : c.toLower.isAlphanum) : c.isAlphanum := by
  rcases Text.toLower_cases c with hlower | hrange
  · rwa [hlower] at h
  · exact Text.isAlphanum_iff.mpr (.inr (.inl hrange))

theorem eq_lower_of_foldCase {s name : Text} (h : s.foldCase = some name) : name = s.lower := by
  rw [Text.foldCase, Option.ite_none_right_eq_some] at h
  exact (Option.some.inj h.2).symm

/-- A register with a name of its own is written as the name, apart from the case of its letters. -/
theorem lower_of_ofName? {s : Text} {r : Register} (h : Register.ofName? s = some r) :
    (r, s.lower) ∈ Register.named := by
  obtain ⟨name, hfold, hfound⟩ := Option.bind_eq_some_iff.mp h
  obtain ⟨entry, hfind, rfl⟩ := Option.map_eq_some_iff.mp hfound
  have hname := List.find?_some hfind
  rw [← eq_lower_of_foldCase hfold, ← eq_of_beq hname]
  exact List.mem_of_find?_eq_some hfind

/-- So is a rounding mode. -/
theorem lower_of_parse? {s : Text} {mode : RoundingMode} (h : RoundingMode.parse? s = some mode) :
    s.lower ∈ (Coded.all : List RoundingMode).map Coded.name := by
  obtain ⟨name, hfold, hfind⟩ := Option.bind_eq_some_iff.mp h
  rw [Coded.ofName?] at hfind
  have hname := List.find?_some hfind
  rw [← eq_lower_of_foldCase hfold, ← eq_of_beq hname]
  exact List.mem_map_of_mem (List.mem_of_find?_eq_some hfind)

/-- A register is a letter with a decimal number behind it, or a name of its own. -/
theorem register_cases {s : Text} {r : Register} (h : register s = .ok r) :
    (∃ c digits, s = c :: digits ∧ (c = 'r' ∨ c = 'R') ∧ isNumeral 10 digits) ∨ (r, s.lower) ∈ Register.named := by
  rw [register] at h
  split at h
  · next n hnumber =>
    cases s with
    | nil => cases hnumber
    | cons c digits =>
      rw [registerNumber?, numeral?] at hnumber
      split at hnumber
      · next hc =>
        split at hnumber
        · next hnumeral => exact .inl ⟨c, digits, rfl, hc, hnumeral⟩
        · cases hnumber
      · cases hnumber
  · split at h
    · next hname =>
      cases h
      exact .inr (lower_of_ofName? hname)
    · cases h

theorem of_register {s : Text} {r : Register} (h : register s = .ok r) : s ≠ [] ∧ ∀ c ∈ s, c.isAlphanum := by
  rcases register_cases h with ⟨c, digits, rfl, hc, hnumeral⟩ | hname
  · refine ⟨List.cons_ne_nil c digits, fun d hd => ?_⟩
    rcases List.mem_cons.mp hd with rfl | hd
    · rcases hc with rfl | rfl <;> decide
    · exact isAlphanum_of_isDigit ((of_isNumeral hnumeral).2 d hd)
  · have hall : ∀ entry ∈ Register.named, entry.2 ≠ [] ∧ entry.2.all Char.isAlphanum := by decide
    obtain ⟨hne, hletters⟩ := hall _ hname
    rw [List.all_eq_true] at hletters
    refine ⟨?_, fun c hc => isAlphanum_of_toLower (hletters _ (List.mem_map_of_mem hc))⟩
    rintro rfl
    exact hne rfl

/-- A register begins with one of three letters, in either case. -/
theorem head_of_isRegister {s : Text} (h : isRegister s) : ∃ c ∈ s.head?, c.toLower ∈ ['r', 's', 'p'] := by
  obtain ⟨r, hr⟩ : ∃ r, register s = .ok r := by
    unfold isRegister at h
    split at h
    · next r hr => exact ⟨r, hr⟩
    · cases h
  rcases register_cases hr with ⟨c, digits, rfl, hc, -⟩ | hname
  · exact ⟨c, rfl, by rcases hc with rfl | rfl <;> decide⟩
  · have hall : ∀ entry ∈ Register.named, entry.2.head?.any fun c => c ∈ ['r', 's', 'p'] := by decide
    obtain ⟨c, hc, hletter⟩ := (Option.any_eq_true _ _).mp (hall _ hname)
    rw [Text.lower, List.head?_map, Option.map_eq_some_iff] at hc
    obtain ⟨d, hd, rfl⟩ := hc
    exact ⟨d, hd, of_decide_eq_true hletter⟩

namespace FloatText

/-- The text of a number after its sign: a word, or digits around an optional point and an optional exponent. -/
theorem of_parse? {s : Text} {f : FloatText} (h : parse? s = some f) :
    (splitSign s).2.lower ∈ [("inf" : Text), "infinity", "nan"] ∨
      ∃ whole part rest e, fraction? (splitSign s).2 = some (whole, part, rest) ∧ exponent? rest = some e := by
  rw [parse?] at h
  generalize splitSign s = parts at h
  obtain ⟨negative, body⟩ := parts
  dsimp only at h ⊢
  split at h
  · next hword => exact .inl (by rcases hword with hword | hword <;> simp [hword])
  · split at h
    · next hword => exact .inl (by simp [hword])
    · obtain ⟨⟨whole, part, rest⟩, hfraction, hrest⟩ := Option.bind_eq_some_iff.mp h
      obtain ⟨e, hexponent, -⟩ := Option.map_eq_some_iff.mp hrest
      exact .inr ⟨whole, part, rest, e, hfraction, hexponent⟩

/-- The digits of a fraction, and the point if there is one. -/
theorem of_fraction? {s whole part rest : Text} (h : fraction? s = some (whole, part, rest)) :
    (∀ c ∈ whole ++ part, isDigit 10 c) ∧ ¬ (whole = [] ∧ part = []) ∧
      (s = whole ++ rest ∧ part = [] ∨ s = whole ++ '.' :: (part ++ rest)) := by
  have hdigits (t : Text) : ∀ c ∈ t.takeWhile (isDigit 10), isDigit 10 c :=
    fun c hc => List.all_eq_true.mp List.all_takeWhile c hc
  have hcut (t : Text) : t.takeWhile (isDigit 10) ++ t.dropWhile (isDigit 10) = t := List.takeWhile_append_dropWhile
  have hs := hcut s
  have hwhole := hdigits s
  rw [fraction?] at h
  generalize s.takeWhile (isDigit 10) = whole' at h hs hwhole
  generalize s.dropWhile (isDigit 10) = tail at h hs
  split at h
  · next t =>
    split at h
    · cases h
    next hne =>
    cases h
    refine ⟨?_, hne, .inr ?_⟩
    · intro c hc
      rcases List.mem_append.mp hc with hc | hc
      · exact hwhole c hc
      · exact hdigits t c hc
    · rw [hcut, hs]
  · split at h
    · cases h
    next hne =>
    cases h
    refine ⟨?_, hne, .inl ⟨hs.symm, rfl⟩⟩
    rw [List.append_nil]
    exact hwhole

theorem of_mem_exponent? {s : Text} {e : Int} (h : exponent? s = some e) {c : Char} (hc : c ∈ s) :
    c = '+' ∨ c = '-' ∨ c.isAlphanum := by
  cases s with
  | nil => cases hc
  | cons d s =>
    rw [exponent?] at h
    split at h
    · next hd =>
      rcases List.mem_cons.mp hc with rfl | hc
      · rcases hd with rfl | rfl <;> decide
      · have hmem := mem_splitSign hc
        generalize splitSign s = parts at h hmem
        obtain ⟨negative, digits⟩ := parts
        dsimp only at h hmem
        split at h
        · next hnumeral =>
          rcases hmem with hc | hc | hc
          · exact .inl hc
          · exact .inr (.inl hc)
          · exact .inr (.inr (isAlphanum_of_isDigit ((of_isNumeral hnumeral).2 c hc)))
        · cases h
    · cases h

end FloatText

theorem parse?_of_single {s : Text} {w : Word} (h : single s = .ok w) : ∃ f, FloatText.parse? s = some f := by
  rw [single] at h
  split at h
  · cases h
  · cases hf : FloatText.parse? s with
    | none =>
      rw [FloatText.read?, hf] at h
      cases h
    | some f => exact ⟨f, rfl⟩

theorem of_mem_single {s : Text} {w : Word} (h : single s = .ok w) {c : Char} (hc : c ∈ s) :
    c = '+' ∨ c = '-' ∨ c = '.' ∨ c.isAlphanum := by
  obtain ⟨f, hf⟩ := parse?_of_single h
  rcases mem_splitSign hc with hc | hc | hc
  · exact .inl hc
  · exact .inr (.inl hc)
  rcases FloatText.of_parse? hf with hword | ⟨whole, part, rest, e, hfraction, hexponent⟩
  · have hlower : ∀ word ∈ [("inf" : Text), "infinity", "nan"], word.all Char.isAlphanum := by decide
    have hmem : c.toLower ∈ Text.lower (splitSign s).2 := List.mem_map_of_mem hc
    exact .inr (.inr (.inr (isAlphanum_of_toLower (List.all_eq_true.mp (hlower _ hword) _ hmem))))
  · obtain ⟨hdigits, -, hs⟩ := FloatText.of_fraction? hfraction
    have hparts : c ∈ whole ++ part ∨ c = '.' ∨ c ∈ rest := by
      rcases hs with ⟨hs, -⟩ | hs
      · rw [hs] at hc
        rcases List.mem_append.mp hc with hc | hc
        · exact .inl (List.mem_append_left _ hc)
        · exact .inr (.inr hc)
      · simp only [hs, List.mem_append, List.mem_cons] at hc ⊢
        rcases hc with hc | hc | hc | hc
        · exact .inl (.inl hc)
        · exact .inr (.inl hc)
        · exact .inl (.inr hc)
        · exact .inr (.inr hc)
    rcases hparts with hc | rfl | hc
    · exact .inr (.inr (.inr (isAlphanum_of_isDigit (hdigits c hc))))
    · exact .inr (.inr (.inl rfl))
    · rcases FloatText.of_mem_exponent? hexponent hc with hc | hc | hc
      · exact .inl hc
      · exact .inr (.inl hc)
      · exact .inr (.inr (.inr hc))

theorem toLower_of_isDigit_ten {c : Char} (h : isDigit 10 c) : c.toLower ∉ ['r', 's', 'p'] := by
  have hrange := toNat_of_isDigit_ten h
  rcases Text.toLower_cases c with hlower | hupper
  · rw [hlower]
    intro hc
    have hall : ['r', 's', 'p'].all fun d => 57 < d.toNat := by decide
    have hlarge := of_decide_eq_true (List.all_eq_true.mp hall c hc)
    omega
  · omega

/-- A letter with which registers begin is no sign. -/
theorem splitSign_of_head {c : Char} {s : Text} (h : c.toLower ∈ ['r', 's', 'p']) :
    splitSign (c :: s) = (false, c :: s) := by
  have hminus : c ≠ '-' := by
    rintro rfl
    exact absurd h (by decide)
  have hplus : c ≠ '+' := by
    rintro rfl
    exact absurd h (by decide)
  rw [splitSign, if_neg hminus, if_neg hplus]

theorem isInteger_of_head {c : Char} {s : Text} (h : c.toLower ∈ ['r', 's', 'p']) : isInteger (c :: s) = false := by
  rw [Bool.eq_false_iff]
  intro hinteger
  obtain ⟨r, digits, hdigits⟩ := isInteger_iff.mp hinteger
  obtain ⟨d, hd, hdigit⟩ := head_of_digits? hdigits
  rw [splitSign_of_head h] at hd
  obtain rfl := Option.some.inj hd
  exact toLower_of_isDigit_ten hdigit h

theorem single_ne_of_head {c : Char} {s : Text} (h : c.toLower ∈ ['r', 's', 'p']) (w : Word) :
    single (c :: s) ≠ .ok w := by
  intro hsingle
  obtain ⟨f, hf⟩ := parse?_of_single hsingle
  rcases FloatText.of_parse? hf with hword | ⟨whole, part, rest, e, hfraction, -⟩
  · have hall : ∀ word ∈ [("inf" : Text), "infinity", "nan"], word.head?.all fun d => d ∉ ['r', 's', 'p'] := by decide
    rw [splitSign_of_head h] at hword
    have hletter : c.toLower ∉ ['r', 's', 'p'] := of_decide_eq_true (hall _ hword)
    exact hletter h
  · rw [splitSign_of_head h] at hfraction
    obtain ⟨hdigits, hne, hs⟩ := FloatText.of_fraction? hfraction
    cases whole with
    | cons d whole =>
      have hd : d = c := by
        rcases hs with ⟨hs, -⟩ | hs
        · exact (List.cons.inj hs).1.symm
        · exact (List.cons.inj hs).1.symm
      exact toLower_of_isDigit_ten (hdigits c (by simp [hd])) h
    | nil =>
      rcases hs with ⟨-, hpart⟩ | hs
      · exact hne ⟨rfl, hpart⟩
      · obtain ⟨rfl, -⟩ := List.cons.inj hs
        exact absurd h (by decide)

/-- No number is a register: they begin with different characters. -/
theorem isRegister_of_single {s : Text} {w : Word} (h : single s = .ok w) : isRegister s = false := by
  rw [Bool.eq_false_iff]
  intro hregister
  obtain ⟨c, hc, hlower⟩ := head_of_isRegister hregister
  obtain ⟨t, rfl⟩ : ∃ t, s = c :: t := List.head?_eq_some_iff.mp hc
  exact single_ne_of_head hlower w h

theorem isRegister_hexadecimal (w : Word) : isRegister (hexadecimal w) = false := by
  rw [Bool.eq_false_iff]
  intro hregister
  obtain ⟨c, hc, hlower⟩ := head_of_isRegister hregister
  rw [hexadecimal_eq] at hc
  obtain rfl := Option.some.inj hc
  exact absurd hlower (by decide)

end R64.Literal
