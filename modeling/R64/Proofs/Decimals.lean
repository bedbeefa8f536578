import R64.Proofs.Integers
import R64.Proofs.Rounding
/-!
Floating-point literals. The grammar gives a decimal number its value as a rational number, with any number of digits
and an exponent without bounds. Main statement: provided that reading rounds this exact value once, a literal is out of
range exactly if its value would become infinite, or zero although it is not zero, and otherwise it is read as the
nearest single-precision number with the sign that is written. The last digits of a large exponent are not read, which
cannot be noticed unless a number has more than sixty thousand digits itself.
-/
namespace R64.Literal

open Address (Sign)

def figures (digits : List (Fin 10)) : Text := digits.map fun d => d.val.digitChar

def number (digits : List (Fin 10)) : Nat := Nat.ofDigits 10 (digits.map Fin.val).reverse

structure Exponent where
  letter : Char
  sign : Sign
  digits : List (Fin 10)
  isLetter : letter = 'e' ∨ letter = 'E'
  nonempty : digits ≠ []

namespace Exponent

def text (e : Exponent) : Text := e.letter :: (e.sign.text ++ figures e.digits)

def value (e : Exponent) : Int := e.sign.signed (number e.digits)

def read (e : Exponent) : Int := e.sign.signed (FloatText.exponentValue (figures e.digits))

end Exponent

/-- A decimal number as it is written: an optional sign, at least one digit before or behind an optional point, and an
optional exponent. -/
structure DecimalNumber where
  sign : Sign
  whole : List (Fin 10)
  /-- The digits behind the point, if there is a point. -/
  part : Option (List (Fin 10))
  exponent : Option Exponent
  nonempty : whole ++ part.getD [] ≠ []

namespace DecimalNumber

variable (x : DecimalNumber)

def digits : List (Fin 10) := x.whole ++ x.part.getD []

def body : Text :=
  figures x.whole ++ (x.part.elim [] (fun digits => '.' :: figures digits) ++ x.exponent.elim [] Exponent.text)

def text : Text := x.sign.text ++ x.body

def fraction : Text := x.sign.text ++ (figures x.whole ++ x.part.elim [] fun digits => '.' :: figures digits)

def value : ℚ :=
  x.sign.signed (number x.digits) * 10 ^ (x.exponent.elim 0 Exponent.value - (x.part.getD []).length)

/-- The number as a decimal with the given exponent. -/
def decimal (exponent : Int) : Decimal :=
  ⟨decide (x.sign = .minus), figures x.digits, exponent - (x.part.getD []).length⟩

def asWritten : Decimal := x.decimal (x.exponent.elim 0 Exponent.value)

def asRead : Decimal := x.decimal (x.exponent.elim 0 Exponent.read)

/-- What is rounded is the exact value, also if digits of the exponent were not read. -/
def RoundsExactly : Prop := x.asRead.pattern = x.asWritten.pattern

end DecimalNumber

/-- Floating-point numbers: decimal numbers, and the words for what is infinite or no number, in either case and with an
optional sign. -/
def IsFloat (s : Text) : Prop :=
  (∃ x : DecimalNumber, x.text = s) ∨
    ∃ (sign : Sign) (word : Text), word.lower ∈ [("inf" : Text), "infinity", "nan"] ∧ sign.text ++ word = s

/-- Numbers that would be rounded to an infinity, or to zero although they are not zero. -/
def OutOfRange (q : ℚ) : Prop := 2 ^ 128 - 2 ^ 103 ≤ |q| ∨ q ≠ 0 ∧ |q| ≤ 2 ^ (-150 : ℤ)

theorem isDigit_of_mem_figures {digits : List (Fin 10)} : ∀ c ∈ figures digits, isDigit 10 c := by
  intro c hc
  obtain ⟨d, -, rfl⟩ := List.mem_map.mp hc
  exact isDigit_digitChar (by decide) d.isLt

theorem value_figures (digits : List (Fin 10)) : value 10 (figures digits) = number digits := by
  have hvalue (d : Fin 10) : digitValue d.val.digitChar = d.val := digitValue_digitChar (by omega)
  rw [value_eq_ofDigits, figures, List.map_map, number]
  congr 2
  exact List.map_congr_left fun d _ => hvalue d

theorem length_figures (digits : List (Fin 10)) : (figures digits).length = digits.length := List.length_map _

theorem figures_append (digits digits' : List (Fin 10)) :
    figures (digits ++ digits') = figures digits ++ figures digits' := List.map_append

theorem any_figures (digits : List (Fin 10)) :
    (figures digits).any (fun c => '1' ≤ c ∧ c ≤ '9') = !(figures digits).all (· == '0') := by
  have hdigit : ∀ d : Fin 10, decide ('1' ≤ d.val.digitChar ∧ d.val.digitChar ≤ '9') = !(d.val.digitChar == '0') := by
    decide
  rw [figures, List.any_map, List.all_map, List.not_all_eq_any_not]
  exact List.any_congr rfl hdigit

theorem toNat_lt_of_mem_sign {sign : Sign} {c : Char} (h : c ∈ sign.text) : c.toNat < 58 := by
  cases sign with
  | absent => cases h
  | plus | minus =>
    obtain rfl := List.mem_singleton.mp h
    decide

theorem exists_figures {s : Text} (h : ∀ c ∈ s, isDigit 10 c) : ∃ digits, figures digits = s := by
  induction s with
  | nil => exact ⟨[], rfl⟩
  | cons c s ih =>
    obtain ⟨digits, hdigits⟩ := ih fun d hd => h d (List.mem_cons_of_mem c hd)
    obtain ⟨hlt, hfigure⟩ := figure_digitValue (h c List.mem_cons_self)
    have hupper : ∀ d < 10, d.digitChar.toUpper = d.digitChar := by decide
    refine ⟨⟨digitValue c, hlt⟩ :: digits, ?_⟩
    rw [figures, List.map_cons, ← figures, hdigits]
    rcases hfigure with hc | hc
    · rw [← hc]
    · rw [← hupper _ hlt, ← hc]

/-- Digits end where the text behind them does not begin with one. -/
theorem span_figures (digits : List (Fin 10)) {rest : Text} (h : ∀ c ∈ rest.head?, isDigit 10 c = false) :
    (figures digits ++ rest).takeWhile (isDigit 10) = figures digits ∧
      (figures digits ++ rest).dropWhile (isDigit 10) = rest := by
  rw [List.takeWhile_append_of_pos isDigit_of_mem_figures, List.dropWhile_append_of_pos isDigit_of_mem_figures]
  cases rest with
  | nil => simp
  | cons c rest => simp [h c rfl]

/-- The first character of a number without its sign is a digit or the point. -/
def Leads (c : Char) : Prop := 46 ≤ c.toNat ∧ c.toNat ≤ 57

theorem leads_of_isDigit {c : Char} (h : isDigit 10 c) : Leads c := by
  have hrange := toNat_of_isDigit_ten h
  exact ⟨by omega, hrange.2⟩

theorem Leads.ne_sign {c : Char} (h : Leads c) : c ≠ '+' ∧ c ≠ '-' := by
  constructor <;>
  · rintro rfl
    exact absurd h.1 (by decide)

/-- No character up to the digits is a letter of a word. -/
theorem toLower_ne {c : Char} (h : c.toNat < 58) : c.toLower ≠ 'i' ∧ c.toLower ≠ 'n' := by
  have hall : ∀ n < 58, (Char.ofNat n).toLower ≠ 'i' ∧ (Char.ofNat n).toLower ≠ 'n' := by decide
  simpa only [Char.ofNat_toNat] using hall c.toNat h

theorem lower_cons_not_mem {c : Char} (h : c.toNat < 58) (s : Text) :
    Text.lower (c :: s) ∉ [("inf" : Text), "infinity", "nan"] := by
  obtain ⟨hi, hn⟩ := toLower_ne h
  simp [Text.lower, hi, hn]

namespace Exponent

theorem isDigit_head (e : Option Exponent) : ∀ c ∈ (e.elim [] text).head?, isDigit 10 c = false ∧ c ≠ '.' := by
  cases e with
  | none => simp
  | some e =>
    intro c hc
    obtain rfl : e.letter = c := Option.some_inj.mp hc
    rcases e.isLetter with h | h <;> rw [h] <;> decide

theorem toLower_ne_of_mem {e : Option Exponent} {c : Char} (h : c ∈ e.elim [] text) : c.toLower ≠ 'i' := by
  cases e with
  | none => cases h
  | some e =>
    rcases List.mem_cons.mp h with rfl | h
    · rcases e.isLetter with h | h <;> rw [h] <;> decide
    · rcases List.mem_append.mp h with h | h
      · exact (toLower_ne (toNat_lt_of_mem_sign h)).1
      · exact (toLower_ne (Nat.lt_succ_of_le (toNat_of_isDigit_ten (isDigit_of_mem_figures c h)).2)).1

theorem exponent?_text (e : Option Exponent) : FloatText.exponent? (e.elim [] text) = some (e.elim 0 read) := by
  cases e with
  | none => rfl
  | some e =>
    have hhead : ∀ c ∈ (figures e.digits).head?, c ≠ '+' ∧ c ≠ '-' := fun c hc =>
      (leads_of_isDigit (isDigit_of_mem_figures c (List.mem_of_mem_head? hc))).ne_sign
    have hnumeral : isNumeral 10 (figures e.digits) := by
      rw [isNumeral, Bool.and_eq_true, bne_iff_ne, List.all_eq_true]
      exact ⟨by simpa [figures] using e.nonempty, isDigit_of_mem_figures⟩
    change FloatText.exponent? (e.letter :: (e.sign.text ++ figures e.digits)) = some e.read
    rw [FloatText.exponent?, if_pos e.isLetter, e.sign.splitSign_append fun _ => hhead]
    dsimp only
    rw [if_pos hnumeral, read]
    cases e.sign <;> rfl

theorem exists_of_exponent? {s : Text} {n : Int} (h : FloatText.exponent? s = some n) :
    ∃ e : Option Exponent, e.elim [] text = s := by
  cases s with
  | nil => exact ⟨none, rfl⟩
  | cons c s =>
    rw [FloatText.exponent?] at h
    split at h
    · next hletter =>
      obtain ⟨sign, hs, -⟩ := exists_splitSign s
      generalize splitSign s = parts at h hs
      obtain ⟨negative, digits⟩ := parts
      dsimp only at h hs
      split at h
      · next hnumeral =>
        obtain ⟨hne, hdigits⟩ := of_isNumeral hnumeral
        obtain ⟨ds, rfl⟩ := exists_figures hdigits
        have hne : ds ≠ [] := by simpa [figures] using hne
        exact ⟨some ⟨c, sign, ds, hletter, hne⟩, by rw [hs]; rfl⟩
      · cases h
    · cases h

end Exponent

namespace DecimalNumber

variable (x : DecimalNumber)

theorem exists_head_body : ∃ c rest, x.body = c :: rest ∧ Leads c := by
  obtain ⟨sign, whole, part, exponent, hne⟩ := x
  cases whole with
  | cons d whole => exact ⟨_, _, rfl, leads_of_isDigit (isDigit_digitChar (by decide) d.isLt)⟩
  | nil =>
    cases part with
    | none => exact absurd rfl hne
    | some digits => exact ⟨'.', _, rfl, by decide, by decide⟩

theorem fraction?_body :
    FloatText.fraction? x.body =
      some (figures x.whole, figures (x.part.getD []), x.exponent.elim [] Exponent.text) := by
  have hne : ¬ (figures x.whole = [] ∧ figures (x.part.getD []) = []) := by
    have hne := x.nonempty
    simpa [figures] using hne
  have hexponent := Exponent.isDigit_head x.exponent
  rw [FloatText.fraction?, body]
  generalize x.exponent.elim [] Exponent.text = rest at hexponent ⊢
  cases hpart : x.part with
  | none =>
    rw [hpart] at hne
    obtain ⟨htake, hdrop⟩ := span_figures x.whole fun c hc => (hexponent c hc).1
    simp only [Option.elim_none, List.nil_append, htake, hdrop]
    split
    · exact absurd rfl (hexponent '.' rfl).2
    · exact if_neg hne
  | some digits =>
    rw [hpart] at hne
    have hpoint : ∀ c ∈ ('.' :: (figures digits ++ rest)).head?, isDigit 10 c = false := by
      simp only [List.head?_cons, Option.mem_some_iff, forall_eq']
      decide
    obtain ⟨htake, hdrop⟩ := span_figures x.whole hpoint
    obtain ⟨htake', hdrop'⟩ := span_figures digits fun c hc => (hexponent c hc).1
    simp only [Option.elim_some, List.cons_append, htake, hdrop, htake', hdrop']
    exact if_neg hne

theorem parse?_text : FloatText.parse? x.text = some (.finite x.asRead) := by
  obtain ⟨c, rest, hbody, hc⟩ := x.exists_head_body
  have hwords := lower_cons_not_mem (Nat.lt_succ_of_le hc.2) rest
  rw [← hbody] at hwords
  simp only [List.mem_cons, List.not_mem_nil, or_false, not_or] at hwords
  have hsplit : splitSign x.text = (decide (x.sign = .minus), x.body) := x.sign.splitSign_append fun _ d hd => by
    rw [hbody] at hd
    obtain rfl : c = d := Option.some_inj.mp hd
    exact hc.ne_sign
  rw [FloatText.parse?, hsplit]
  dsimp only
  rw [if_neg (by tauto), if_neg hwords.2.2, fraction?_body, Option.bind_some]
  dsimp only
  rw [Exponent.exponent?_text, Option.map_some, asRead, decimal, digits, figures_append, length_figures]

theorem text_eq : x.text = x.fraction ++ x.exponent.elim [] Exponent.text := by
  simp only [text, body, fraction, List.append_assoc]

theorem toNat_lt_of_mem_fraction {c : Char} (h : c ∈ x.fraction) : c.toNat < 58 := by
  have hfigures {digits : List (Fin 10)} (hc : c ∈ figures digits) : c.toNat < 58 :=
    Nat.lt_succ_of_le (toNat_of_isDigit_ten (isDigit_of_mem_figures c hc)).2
  rw [fraction, List.mem_append, List.mem_append] at h
  rcases h with hc | hc | hc
  · exact toNat_lt_of_mem_sign hc
  · exact hfigures hc
  · cases hpart : x.part with
    | none =>
      rw [hpart] at hc
      cases hc
    | some digits =>
      rw [hpart] at hc
      rcases List.mem_cons.mp hc with rfl | hc
      · decide
      · exact hfigures hc

/-- The text of a number does not hold the word for an infinity. -/
theorem not_occurs_inf : ¬ Text.occurs "inf" x.text.lower := by
  rw [Text.occurs_iff]
  intro h
  have hi : 'i' ∈ x.text.lower := h.subset List.mem_cons_self
  obtain ⟨c, hc, hlower⟩ := List.mem_map.mp hi
  rw [text_eq, List.mem_append] at hc
  rcases hc with hc | hc
  · exact (toLower_ne (x.toNat_lt_of_mem_fraction hc)).1 hlower
  · exact Exponent.toLower_ne_of_mem hc hlower

theorem takeWhile_text : x.text.takeWhile (fun c => c ≠ 'e' ∧ c ≠ 'E') = x.fraction := by
  have hfraction : ∀ c ∈ x.fraction, decide (c ≠ 'e' ∧ c ≠ 'E') := by
    intro c hc
    have hlt := x.toNat_lt_of_mem_fraction hc
    apply decide_eq_true
    constructor <;>
    · rintro rfl
      exact absurd hlt (by decide)
  rw [text_eq, List.takeWhile_append_of_pos hfraction]
  cases x.exponent with
  | none => exact List.append_nil _
  | some e => rcases e.isLetter with h | h <;> simp [Exponent.text, h]

/-- The digits before the exponent are those of the number. -/
theorem hasNonzeroMantissa_text : hasNonzeroMantissa x.text = !x.asWritten.isZero := by
  have hsign : x.sign.text.any (fun c => '1' ≤ c ∧ c ≤ '9') = false := by cases x.sign <;> decide
  rw [hasNonzeroMantissa, takeWhile_text, fraction, List.any_append, List.any_append, hsign, Bool.false_or,
    Decimal.isZero, asWritten, decimal, digits, figures_append, List.all_append, Bool.not_and, any_figures]
  cases x.part with
  | none => rfl
  | some digits =>
    rw [Option.elim_some, List.any_cons, any_figures]
    rfl

end DecimalNumber

/-- Whatever is read as a floating-point number is one. -/
theorem isFloat_of_parse? {s : Text} {f : FloatText} (h : FloatText.parse? s = some f) : IsFloat s := by
  obtain ⟨sign, hs, -⟩ := exists_splitSign s
  rcases FloatText.of_parse? h with hword | ⟨whole, part, rest, n, hfraction, hexponent⟩
  · exact .inr ⟨sign, _, hword, hs.symm⟩
  · obtain ⟨hdigits, hne, hbody⟩ := FloatText.of_fraction? hfraction
    obtain ⟨e, rfl⟩ := Exponent.exists_of_exponent? hexponent
    obtain ⟨whole, rfl⟩ := exists_figures fun c hc => hdigits c (List.mem_append_left part hc)
    obtain ⟨part, rfl⟩ := exists_figures fun c hc => hdigits c (List.mem_append_right (figures whole) hc)
    left
    rcases hbody with ⟨hbody, hpart⟩ | hbody
    · have hdigits : whole ++ (none : Option (List (Fin 10))).getD [] ≠ [] := by
        intro hnil
        obtain rfl : whole = [] := by simpa using hnil
        exact hne ⟨rfl, hpart⟩
      rw [hbody] at hs
      exact ⟨⟨sign, whole, none, e, hdigits⟩, hs.symm⟩
    · have hdigits : whole ++ (some part).getD [] ≠ [] := by simpa [figures] using hne
      rw [hbody] at hs
      exact ⟨⟨sign, whole, some part, e, hdigits⟩, hs.symm⟩

theorem value_cons_eq (c : Char) (s : Text) :
    value 10 (c :: s) = value 10 s + 10 ^ s.length * digitValue c := by
  rw [value_eq_ofDigits, value_eq_ofDigits, List.map_cons, List.reverse_cons, Nat.ofDigits_append, List.length_reverse,
    List.length_map, Nat.ofDigits_singleton]

theorem value_dropWhile_zero (s : Text) : value 10 (s.dropWhile (· == '0')) = value 10 s := by
  induction s with
  | nil => rfl
  | cons c s ih =>
    rw [List.dropWhile_cons]
    split
    · next hc =>
      obtain rfl : c = '0' := by simpa using hc
      rw [ih, value_cons_eq]
      rfl
    · rfl

theorem value_lt {s : Text} (h : ∀ c ∈ s, isDigit 10 c) : value 10 s < 10 ^ s.length := by
  have hlt := Nat.ofDigits_lt_base_pow_length (b := 10) (l := (s.map digitValue).reverse) (by decide) ?_
  · rwa [List.length_reverse, List.length_map, ← value_eq_ofDigits] at hlt
  · intro d hd
    obtain ⟨c, hc, rfl⟩ := List.mem_map.mp (List.mem_reverse.mp hd)
    exact (figure_digitValue (h c hc)).1

theorem le_value {c : Char} (s : Text) (h : isDigit 10 c) (hc : c ≠ '0') :
    10 ^ s.length ≤ value 10 (c :: s) := by
  have hpos : 0 < digitValue c := by
    refine Nat.pos_of_ne_zero fun hzero => hc ?_
    have hfigure := (figure_digitValue h).2
    rw [hzero] at hfigure
    exact hfigure.elim id id
  rw [value_cons_eq]
  exact (Nat.le_mul_of_pos_right _ hpos).trans (Nat.le_add_left _ _)

namespace Decimal

def toRat (d : Decimal) : ℚ := d.mantissa * 10 ^ d.exponent

variable {d : Decimal}

theorem toRat_of_isZero (h : d.isZero) : d.toRat = 0 := by
  have hdigits : d.digits = List.replicate d.digits.length '0' := by
    rw [isZero, List.all_eq_true] at h
    exact List.eq_replicate_iff.mpr ⟨rfl, fun c hc => by simpa using h c hc⟩
  rw [toRat, mantissa, hdigits, value_zeros, Nat.cast_zero, zero_mul]

section Bounds

variable (hdigits : ∀ c ∈ d.digits, isDigit 10 c) (h : d.isZero = false)

include hdigits h

/-- The first digit that is not zero decides between which powers of ten a number lies. -/
theorem toRat_bounds : (10 ^ (d.magnitude - 1) : ℚ) ≤ d.toRat ∧ d.toRat < 10 ^ d.magnitude := by
  have hsub : ∀ c ∈ d.digits.dropWhile (· == '0'), isDigit 10 c := fun c hc =>
    hdigits c ((List.dropWhile_sublist _).subset hc)
  have hhead : ∀ c ∈ (d.digits.dropWhile (· == '0')).head?, c ≠ '0' := by
    intro c hc
    have hnot := List.head?_dropWhile_not (· == '0') d.digits
    rw [hc] at hnot
    simpa using hnot
  have hne : d.digits.dropWhile (· == '0') ≠ [] := by
    rw [Ne, List.dropWhile_eq_nil_iff, ← List.all_eq_true]
    exact Bool.eq_false_iff.mp h
  rw [toRat, mantissa, ← value_dropWhile_zero, magnitude]
  generalize d.digits.dropWhile (· == '0') = s at hsub hhead hne ⊢
  cases s with
  | nil => exact absurd rfl hne
  | cons c s =>
    have hlower := le_value s (hsub c List.mem_cons_self) (hhead c rfl)
    have hupper := value_lt hsub
    have hpow : (0 : ℚ) < 10 ^ d.exponent := by positivity
    have hlength : d.exponent + ((c :: s).length : Nat) = d.exponent + s.length + 1 := by
      rw [List.length_cons]
      omega
    rw [hlength]
    constructor
    · rw [add_sub_cancel_right, zpow_add₀ (by norm_num), mul_comm, zpow_natCast]
      gcongr
      exact_mod_cast hlower
    · rw [add_assoc, zpow_add₀ (by norm_num), mul_comm]
      gcongr
      exact_mod_cast hupper

theorem toRat_pos : 0 < d.toRat := lt_of_lt_of_le (by positivity) (toRat_bounds hdigits h).1

end Bounds

theorem cast_powerOfTen (k : Nat) : (powerOfTen k : ℚ) = 10 ^ k := Nat.cast_pow 10 k

/-- Where powers of ten are computed, rounding is that of the exact quotient. -/
theorem exists_roundsTo (d : Decimal) :
    ∃ p, Single.RoundsTo (d.toRat * 2 ^ 149) p ∧
      (d.isZero = false → d.magnitude ≤ 40 → -45 ≤ d.magnitude → d.pattern = min Single.infinity p) := by
  cases hexponent : d.exponent with
  | ofNat k =>
    obtain ⟨p, hp, hround⟩ := Single.exists_round (d.mantissa * powerOfTen k) Nat.one_pos
    have hvalue : d.toRat = (d.mantissa * powerOfTen k : Nat) / (1 : Nat) := by
      rw [toRat, hexponent, Int.ofNat_eq_natCast, zpow_natCast, Nat.cast_mul, cast_powerOfTen, Nat.cast_one, div_one]
    refine ⟨p, by rwa [hvalue], fun hzero hupper hlower => ?_⟩
    rw [pattern, if_neg (by simp [hzero]), if_neg (by omega), if_neg (by omega), hexponent]
    exact hround
  | negSucc k =>
    have hpos : 0 < powerOfTen (k + 1) := Nat.pow_pos (by decide)
    obtain ⟨p, hp, hround⟩ := Single.exists_round d.mantissa hpos
    have hvalue : d.toRat = d.mantissa / (powerOfTen (k + 1) : Nat) := by
      rw [toRat, hexponent, zpow_negSucc, div_eq_mul_inv, cast_powerOfTen]
    refine ⟨p, by rwa [hvalue], fun hzero hupper hlower => ?_⟩
    rw [pattern, if_neg (by simp [hzero]), if_neg (by omega), if_neg (by omega), hexponent]
    exact hround

/-- Beyond the cut-offs the digits do not matter, so the pattern is always the one that the value is rounded to. -/
theorem exists_pattern (hdigits : ∀ c ∈ d.digits, isDigit 10 c) :
    ∃ p, Single.RoundsTo (d.toRat * 2 ^ 149) p ∧ d.pattern = min Single.infinity p := by
  obtain ⟨p, hp, hbetween⟩ := exists_roundsTo d
  refine ⟨p, hp, ?_⟩
  have hsmall (h : 2 * (d.toRat * 2 ^ 149) ≤ 1) : min Single.infinity p = 0 := by
    have hzero := mt hp.pos_iff.mp (not_lt_of_ge h)
    omega
  cases hzero : d.isZero with
  | true =>
    rw [pattern, if_pos hzero, hsmall (by rw [toRat_of_isZero hzero]; norm_num)]
  | false =>
    obtain ⟨hlower, hupper⟩ := toRat_bounds hdigits hzero
    have hpow {m n : ℤ} (h : m ≤ n) : (10 ^ m : ℚ) ≤ 10 ^ n := zpow_le_zpow_right₀ (by norm_num) h
    by_cases hlarge : 40 < d.magnitude
    · have hle : (10 ^ (40 : ℤ) : ℚ) ≤ d.toRat := (hpow (by omega)).trans hlower
      have hinfinity := hp.infinity_le_iff.mpr (by norm_num at hle ⊢; linarith)
      rw [pattern, if_neg (by simp [hzero]), if_pos hlarge, min_eq_left hinfinity]
    · by_cases hlow : d.magnitude < -45
      · have hlt : d.toRat < 10 ^ (-46 : ℤ) := hupper.trans_le (hpow (by omega))
        rw [pattern, if_neg (by simp [hzero]), if_neg hlarge, if_pos hlow, hsmall (by norm_num at hlt ⊢; linarith)]
      · exact hbetween hzero (by omega) (by omega)

theorem pattern_lt (d : Decimal) : d.pattern < Single.signWeight := by
  have hinfinity : Single.infinity < Single.signWeight := by decide
  rw [pattern]
  split
  · decide
  · split
    · exact hinfinity
    · split
      · decide
      · split <;> exact (Nat.min_le_left _ _).trans_lt hinfinity

section Range

variable (hdigits : ∀ c ∈ d.digits, isDigit 10 c) (negative : Bool)

theorem toRat_nonneg (d : Decimal) : 0 ≤ d.toRat := by
  rw [toRat]
  positivity

include hdigits

theorem isZero_eq_false_iff : d.isZero = false ↔ d.toRat ≠ 0 := by
  constructor
  · exact fun h => (toRat_pos hdigits h).ne'
  · exact fun h => Bool.eq_false_iff.mpr fun hzero => h (toRat_of_isZero hzero)

/-- The pattern tells whether a number is out of range; of a zero, the digits tell whether it was one before. -/
theorem outOfRange_iff :
    OutOfRange (Single.signFactor negative * d.toRat) ↔
      d.pattern = Single.infinity ∨ d.pattern = 0 ∧ d.isZero = false := by
  obtain ⟨p, hp, hpattern⟩ := exists_pattern hdigits
  have hinfinity : d.pattern = Single.infinity ↔ 2 ^ 128 - 2 ^ 103 ≤ d.toRat := by
    rw [hpattern, min_eq_left_iff, hp.infinity_le_iff, mul_le_mul_iff_left₀ (by positivity)]
  have hzero : d.pattern = 0 ↔ d.toRat ≤ 2 ^ (-150 : ℤ) := by
    have hmin : min Single.infinity p = 0 ↔ ¬ 0 < p := by
      rw [Single.infinity]
      omega
    rw [hpattern, hmin, hp.pos_iff, not_lt]
    constructor <;>
    · intro hle
      norm_num at hle ⊢
      linarith
  rw [OutOfRange, Single.abs_signFactor_mul, abs_of_nonneg d.toRat_nonneg,
    mul_ne_zero_iff_left (Single.signFactor_ne_zero negative), hinfinity, hzero, isZero_eq_false_iff hdigits, and_comm]

theorem nearest_pattern (h : d.pattern ≠ Single.infinity) :
    d.pattern < Single.infinity ∧
      Single.Nearest (Single.signFactor negative * d.toRat) (Single.signedWord negative d.pattern) := by
  obtain ⟨p, hp, hpattern⟩ := exists_pattern hdigits
  have hfinite : p < Single.infinity := by omega
  rw [hpattern, min_eq_right hfinite.le]
  exact ⟨hfinite, hp.nearest_signedWord d.toRat_nonneg hfinite negative⟩

end Range

end Decimal

/-- Digits of an exponent are left out only if the exponent is large without them. -/
theorem FloatText.exponentValue_cases (s : Text) :
    exponentValue s = Literal.value 10 s ∨
      exponentLimit ≤ exponentValue s ∧ 10 * exponentLimit ≤ Literal.value 10 s := by
  induction s using List.reverseRecOn with
  | nil => exact .inl rfl
  | append_singleton s c ih =>
    have hread : exponentValue (s ++ [c]) =
        if exponentValue s < exponentLimit then exponentValue s * 10 + digitValue c else exponentValue s := by
      rw [exponentValue, List.foldl_append]
      rfl
    rw [hread, value_concat]
    split <;> omega

namespace DecimalNumber

variable {x : DecimalNumber}

/-- With an exponent at the limit a number is beyond the cut-offs, unless it has many digits. -/
theorem pattern_decimal (hlength : x.digits.length ≤ 65000) (sign : Sign) {n : Nat}
    (hn : FloatText.exponentLimit ≤ n) :
    (x.decimal (sign.signed n)).pattern = if (x.decimal 0).isZero ∨ sign = .minus then 0 else Single.infinity := by
  have hpart : (x.part.getD []).length ≤ x.digits.length := by
    rw [digits, List.length_append]
    omega
  have hdrop : ((figures x.digits).dropWhile (· == '0')).length ≤ x.digits.length :=
    (List.dropWhile_sublist _).length_le.trans_eq (length_figures _)
  have hmagnitude : (x.decimal (sign.signed n)).magnitude =
      sign.signed n - (x.part.getD []).length + ((figures x.digits).dropWhile (· == '0')).length := rfl
  have hisZero : (x.decimal (sign.signed n)).isZero = (x.decimal 0).isZero := rfl
  rw [FloatText.exponentLimit] at hn
  rw [Decimal.pattern, hisZero, hmagnitude]
  by_cases hzero : (x.decimal 0).isZero
  · rw [if_pos hzero, if_pos (.inl hzero)]
  · rw [if_neg hzero]
    by_cases hsign : sign = .minus
    · have hsigned : sign.signed n = -n := by rw [hsign, Sign.signed]
      rw [if_neg (by omega), if_pos (by omega), if_pos (.inr hsign)]
    · have hsigned : sign.signed n = n := by cases sign <;> simp_all [Sign.signed]
      rw [if_pos (by omega), if_neg (by tauto)]

theorem roundsExactly_of_bounds
    (h : (∀ e ∈ x.exponent, number e.digits < 655360) ∨ x.digits.length ≤ 65000) : x.RoundsExactly := by
  rw [RoundsExactly, asRead, asWritten]
  cases hexponent : x.exponent with
  | none => rfl
  | some e =>
    rcases FloatText.exponentValue_cases (figures e.digits) with heq | ⟨hread, hvalue⟩
    · change (x.decimal e.read).pattern = (x.decimal e.value).pattern
      rw [Exponent.read, Exponent.value, heq, value_figures]
    · rw [value_figures, FloatText.exponentLimit] at hvalue
      have hlength := h.resolve_left fun hsmall => by
        have hlt := hsmall e hexponent
        omega
      change (x.decimal e.read).pattern = (x.decimal e.value).pattern
      rw [Exponent.read, Exponent.value, pattern_decimal hlength e.sign hread, pattern_decimal hlength e.sign]
      rw [FloatText.exponentLimit]
      omega

theorem value_eq (x : DecimalNumber) :
    x.value = Single.signFactor (decide (x.sign = .minus)) * x.asWritten.toRat := by
  rw [value, Decimal.toRat, Decimal.mantissa, ← mul_assoc]
  congr 1
  change _ = _ * ((Literal.value 10 (figures x.digits) : Nat) : ℚ)
  rw [value_figures]
  cases x.sign <;> simp [Sign.signed, Single.signFactor]

/-- What becomes of a number whose exact value is rounded. -/
theorem single_text (hinteger : isInteger x.text = false) (hexact : x.RoundsExactly) :
    single x.text =
      if x.asWritten.pattern = Single.infinity ∨ x.asWritten.pattern = 0 ∧ x.asWritten.isZero = false then
        .error (.outOfRange x.text)
      else .ok (Single.signedWord (decide (x.sign = .minus)) x.asWritten.pattern) := by
  have hne : x.text ≠ [] := by
    obtain ⟨c, rest, hbody, -⟩ := x.exists_head_body
    rw [text, hbody]
    simp
  have hread : FloatText.read? x.text =
      some (Single.signedWord (decide (x.sign = .minus)) x.asWritten.pattern) := by
    rw [FloatText.read?, x.parse?_text, Option.map_some, FloatText.toWord, hexact]
    rfl
  have hpattern := x.asWritten.pattern_lt
  generalize hw : Single.signedWord (decide (x.sign = .minus)) x.asWritten.pattern = w at hread ⊢
  have hoverflow : (Single.isInfinite w ∧ ¬ Text.occurs "inf" x.text.lower) ↔
      x.asWritten.pattern = Single.infinity := by
    rw [and_iff_left x.not_occurs_inf, ← hw, Single.isInfinite_signedWord _ hpattern]
  have hunderflow : (Single.isZero w ∧ hasNonzeroMantissa x.text) ↔
      x.asWritten.pattern = 0 ∧ x.asWritten.isZero = false := by
    rw [← hw, Single.isZero_signedWord _ hpattern, x.hasNonzeroMantissa_text, Bool.not_eq_true']
  rw [single, if_neg (by simp [hne, hinteger]), hread]
  simp only [hoverflow, hunderflow]
  by_cases hinfinity : x.asWritten.pattern = Single.infinity
  · rw [if_pos hinfinity, if_pos (.inl hinfinity)]
  · rw [if_neg hinfinity]
    simp only [hinfinity, false_or]

end DecimalNumber

section Words

variable (sign : Sign) {word : Text} (h : word.lower ∈ [("inf" : Text), "infinity", "nan"])

include h

theorem toNat_head_word : ∀ c ∈ word.head?, ¬ c.toNat < 58 := by
  intro c hc hlt
  obtain ⟨t, rfl⟩ := List.head?_eq_some_iff.mp hc
  exact lower_cons_not_mem hlt t h

theorem splitSign_word : splitSign (sign.text ++ word) = (decide (sign = .minus), word) :=
  sign.splitSign_append fun _ c hc => by
    constructor <;>
    · rintro rfl
      exact toNat_head_word h _ hc (by decide)

theorem isInteger_word : isInteger (sign.text ++ word) = false := by
  rw [Bool.eq_false_iff, Ne, isInteger_iff]
  rintro ⟨r, digits, hdigits⟩
  obtain ⟨c, hc, hdigit⟩ := head_of_digits? hdigits
  rw [splitSign_word sign h] at hc
  exact toNat_head_word h c hc (Nat.lt_succ_of_le (toNat_of_isDigit_ten hdigit).2)

/-- The words are never out of range: an infinity is written with the letters that are looked for. -/
theorem single_word :
    single (sign.text ++ word) =
      .ok (Single.signedWord (decide (sign = .minus))
        (if word.lower = ("nan" : Text) then Single.quietNaN else Single.infinity)) := by
  have hne : sign.text ++ word ≠ [] := by
    intro hnil
    rw [(List.append_eq_nil_iff.mp hnil).2] at h
    revert h
    decide
  have hnan : Single.quietNaN < Single.signWeight := by decide
  have hinfinity : Single.infinity < Single.signWeight := by decide
  rw [single, if_neg (by simp [hne, isInteger_word sign h]), FloatText.read?, FloatText.parse?, splitSign_word sign h]
  dsimp only
  by_cases hword : word.lower = ("nan" : Text)
  · rw [if_pos hword, if_neg (by rw [hword]; decide), if_pos hword, Option.map_some, FloatText.toWord]
    simp only [Single.isInfinite_signedWord _ hnan, Single.isZero_signedWord _ hnan]
    rw [if_neg fun h => absurd h.1 (by decide), if_neg fun h => absurd h.1 (by decide)]
  · simp only [List.mem_cons, List.not_mem_nil, or_false, hword] at h
    obtain ⟨t, ht⟩ : ∃ t, word.lower = ("inf" : Text) ++ t := by
      rcases h with h | h
      · exact ⟨[], h⟩
      · exact ⟨"inity", h⟩
    have hoccurs : Text.occurs "inf" (sign.text ++ word).lower := by
      rw [Text.occurs_iff, Text.lower, List.map_append, ← Text.lower, ← Text.lower, ht, ← List.append_assoc]
      exact List.infix_append _ _ t
    rw [if_pos h, if_neg hword, Option.map_some, FloatText.toWord]
    simp only [Single.isZero_signedWord _ hinfinity]
    rw [if_neg fun h => h.2 hoccurs, if_neg fun h => absurd h.1 (by decide)]

end Words

/-- A decimal number that is no integer is out of range or read as the nearest single-precision number. -/
theorem single_cases {x : DecimalNumber} (hinteger : isInteger x.text = false) (hexact : x.RoundsExactly) :
    OutOfRange x.value ∧ single x.text = .error (.outOfRange x.text) ∨
      ¬ OutOfRange x.value ∧ ∃ w, single x.text = .ok w ∧ Single.isNegative w = decide (x.sign = .minus) ∧
        Single.Nearest x.value w ∧ (Single.toRat w = 0 → x.value = 0) := by
  have hsingle := DecimalNumber.single_text hinteger hexact
  have hdigits : ∀ c ∈ x.asWritten.digits, isDigit 10 c := isDigit_of_mem_figures
  have hrange := Decimal.outOfRange_iff hdigits (decide (x.sign = .minus))
  rw [← x.value_eq] at hrange
  by_cases hout : OutOfRange x.value
  · exact .inl ⟨hout, hsingle.trans (if_pos (hrange.mp hout))⟩
  · have hin := mt hrange.mpr hout
    obtain ⟨hfinite, hnearest⟩ :=
      Decimal.nearest_pattern hdigits (decide (x.sign = .minus)) fun h => hin (.inl h)
    have hsign : x.asWritten.pattern < Single.signWeight := hfinite.trans (by decide)
    rw [← x.value_eq] at hnearest
    rw [if_neg hin] at hsingle
    refine .inr ⟨hout, _, hsingle, Single.isNegative_signedWord _ hsign, hnearest, ?_⟩
    rw [Single.toRat_signedWord_eq_zero_iff _ hsign, x.value_eq]
    intro hzero
    by_contra hne
    exact hin (.inr ⟨hzero, (Decimal.isZero_eq_false_iff hdigits).mpr (right_ne_zero_of_mul hne)⟩)

/-- Reading a text as a single-precision number. What is no floating-point number, and what is an integer, is refused as
such. A decimal number whose exact value is rounded is out of range exactly if its value is. Otherwise it is read as the
nearest number, in a tie the even one, with the sign that is written, and only zero is read as zero. The words for what
is infinite or no number are never out of range. Up to 65000 digits, or with an exponent below 655360, it is the exact
value that is rounded. -/
theorem single_correctlyRounded (s : Text) :
    ((∃ v, Denotes s v) ∨ ¬ IsFloat s → single s = .error (.single s)) ∧
      (∀ x : DecimalNumber, x.text = s → (∀ v, ¬ Denotes s v) → x.RoundsExactly →
        (single s = .error (.outOfRange s) ↔ OutOfRange x.value) ∧
          (¬ OutOfRange x.value →
            ∃ w, single s = .ok w ∧ (Single.isNegative w ↔ x.sign = .minus) ∧ Single.Nearest x.value w ∧
              (Single.toRat w = 0 → x.value = 0))) ∧
      (∀ (sign : Sign) (word : Text), sign.text ++ word = s → word.lower ∈ [("inf" : Text), "infinity", "nan"] →
        single s = .ok (Single.signedWord (decide (sign = .minus))
          (if word.lower = ("nan" : Text) then Single.quietNaN else Single.infinity))) ∧
      ∀ x : DecimalNumber, (∀ e ∈ x.exponent, number e.digits < 655360) ∨ x.digits.length ≤ 65000 →
        x.RoundsExactly := by
  refine ⟨?_, ?_, ?_, fun x => DecimalNumber.roundsExactly_of_bounds⟩
  · rintro (hinteger | hfloat)
    · rw [single, if_pos (.inr (isInteger_iff_denotes.mpr hinteger))]
    · have hparse : FloatText.parse? s = none :=
        Option.eq_none_iff_forall_ne_some.mpr fun f hf => hfloat (isFloat_of_parse? hf)
      rw [single, FloatText.read?, hparse]
      exact ite_self _
  · rintro x rfl hdenotes hexact
    have hinteger : isInteger x.text = false := by
      rw [Bool.eq_false_iff, Ne, isInteger_iff_denotes]
      exact not_exists.mpr hdenotes
    rcases single_cases hinteger hexact with ⟨hout, herror⟩ | ⟨hin, w, hok, hsign, hnearest, hzero⟩
    · exact ⟨iff_of_true herror hout, absurd hout⟩
    · refine ⟨iff_of_false (by simp [hok]) hin, fun _ => ⟨w, hok, ?_, hnearest, hzero⟩⟩
      rw [hsign, decide_eq_true_iff]
  · rintro sign word rfl hword
    exact single_word sign hword

/-- Below the least positive number, and nearer to it than to zero. -/
theorem single_correctlyRounded_subnormal :
    ∃ x : DecimalNumber, x.text = ("-1e-45" : Text) ∧ (∀ v, ¬ Denotes "-1e-45" v) ∧ x.RoundsExactly ∧
      x.value = -(10 ^ (-45 : ℤ)) ∧ single "-1e-45" = .ok 0x80000001 ∧ Single.Nearest x.value 0x80000001 := by
  let x : DecimalNumber := ⟨.minus, [1], none, some ⟨'e', .minus, [4, 5], .inl rfl, by decide⟩, by decide⟩
  have hinteger : ∀ v, ¬ Denotes "-1e-45" v := by
    intro v hv
    exact absurd (isInteger_iff_denotes.mpr ⟨v, hv⟩) (by decide)
  have hexact : x.RoundsExactly := (single_correctlyRounded []).2.2.2 x (.inr (by decide))
  have hvalue : x.value = -(10 ^ (-45 : ℤ)) := by
    have hnumber : x.sign.signed (number x.digits) = -1 := rfl
    have hexponent : x.exponent.elim 0 Exponent.value - ((x.part.getD []).length : ℤ) = -45 := rfl
    rw [DecimalNumber.value, hnumber, hexponent]
    norm_num
  have hrange : ¬ OutOfRange x.value := by
    rw [OutOfRange, hvalue, abs_neg]
    norm_num
  obtain ⟨w, hok, -, hnearest, -⟩ := ((single_correctlyRounded "-1e-45").2.1 x rfl hinteger hexact).2 hrange
  have hsingle : single "-1e-45" = .ok 0x80000001 := by decide +kernel
  obtain rfl : 0x80000001 = w := Except.ok.inj (hsingle.symm.trans hok)
  exact ⟨x, rfl, hinteger, hexact, hvalue, hsingle, hnearest⟩

end R64.Literal
