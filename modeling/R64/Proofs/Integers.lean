import Mathlib.Data.Nat.Digits.Defs
import R64.Proofs.Addresses
/-!
Integer literals. The grammar gives a literal its value as a number without bounds: the sum of its digits, each times
the power of the base that belongs to its place. Main statement: a literal is read as the word that is congruent to its
value, and is out of range exactly if the value has neither a signed nor an unsigned representation in 32 bits, however
many digits it has. What is no literal is a character or an error.
-/
namespace R64.Literal

open Address (Sign Term isWord_numeral)

/-- The characters for a digit; a letter is written in either case. -/
def Figure (d : Nat) (c : Char) : Prop := c = d.digitChar ∨ c = d.digitChar.toUpper

/-- Integer literals with their values: an optional sign, the marker of a notation, and one or more digits with the
highest in front. -/
inductive Denotes : Text → Int → Prop
  | intro {sign : Sign} {radix : Radix} {digits : List Nat} {figures : Text} :
    digits ≠ [] → (∀ d ∈ digits, d < radix.base) → List.Forall₂ Figure digits figures →
    Denotes (sign.text ++ (radix.marker ++ figures)) (sign.signed (Nat.ofDigits radix.base digits.reverse))

/-- A character or an escape between single quotes. -/
inductive IsCharacter : Text → Char → Prop
  | plain {c : Char} : c ≠ '\\' → IsCharacter ['\'', c, '\''] c
  | escaped {e c : Char} : Text.unescape e = some c → IsCharacter ['\'', '\\', e, '\''] c

/-- A number with a signed or an unsigned representation in 32 bits. -/
def Representable (v : Int) : Prop := -0x80000000 ≤ v ∧ v ≤ 0xffffffff

theorem digit?_of_figure {d : Nat} (hd : d < 16) {c : Char} (h : Figure d c) : digit? c = some d := by
  have hall : ∀ d < 16, digit? d.digitChar = some d ∧ digit? d.digitChar.toUpper = some d := by decide
  rcases h with rfl | rfl
  · exact (hall d hd).1
  · exact (hall d hd).2

theorem figure_digitValue {base : Nat} {c : Char} (h : isDigit base c) :
    digitValue c < base ∧ Figure (digitValue c) c := by
  have hall : ∀ n < 103, (digit? (Char.ofNat n)).all fun d =>
      Char.ofNat n = d.digitChar || Char.ofNat n = d.digitChar.toUpper := by
    decide
  obtain ⟨d, hdigit, hd⟩ := exists_of_isDigit h
  have hfigure := hall c.toNat (lt_of_isDigit h)
  rw [Char.ofNat_toNat, hdigit] at hfigure
  rw [digitValue, hdigit]
  exact ⟨hd, by simpa [Figure] using hfigure⟩

/-- Horner's scheme gives the sum of the weighted digits. -/
theorem value_eq_ofDigits (base : Nat) (s : Text) : value base s = Nat.ofDigits base (s.map digitValue).reverse := by
  rw [Nat.ofDigits_eq_foldr, List.foldr_reverse, List.foldl_map, value]
  congr 1
  funext n c
  rw [Nat.mul_comm, Nat.add_comm]
  rfl

section Numerals

variable {base : Nat} {s : Text}

theorem of_figures (hbase : base ≤ 16) {digits : List Nat} (hdigits : ∀ d ∈ digits, d < base)
    (h : List.Forall₂ Figure digits s) : s.map digitValue = digits ∧ ∀ c ∈ s, isDigit base c := by
  induction h with
  | nil => exact ⟨rfl, by simp⟩
  | @cons d c digits s hc _ ih =>
    have hd := hdigits d List.mem_cons_self
    have hdigit := digit?_of_figure (by omega) hc
    obtain ⟨hmap, hall⟩ := ih fun e he => hdigits e (List.mem_cons_of_mem d he)
    refine ⟨?_, ?_⟩
    · rw [List.map_cons, hmap, digitValue, hdigit, Option.getD_some]
    · intro e he
      rcases List.mem_cons.mp he with rfl | he
      · simp [isDigit, hdigit, hd]
      · exact hall e he

theorem figures_of_isNumeral (h : isNumeral base s) :
    s.map digitValue ≠ [] ∧ (∀ d ∈ s.map digitValue, d < base) ∧ List.Forall₂ Figure (s.map digitValue) s := by
  obtain ⟨hne, hdigits⟩ := of_isNumeral h
  refine ⟨by simpa using hne, ?_, ?_⟩
  · intro d hd
    obtain ⟨c, hc, rfl⟩ := List.mem_map.mp hd
    exact (figure_digitValue (hdigits c hc)).1
  · rw [List.forall₂_map_left_iff, List.forall₂_same]
    exact fun c hc => (figure_digitValue (hdigits c hc)).2

theorem isNumeral_of_figures (hbase : base ≤ 16) {digits : List Nat} (hne : digits ≠ [])
    (hdigits : ∀ d ∈ digits, d < base) (h : List.Forall₂ Figure digits s) :
    isNumeral base s ∧ value base s = Nat.ofDigits base digits.reverse := by
  obtain ⟨hmap, hall⟩ := of_figures hbase hdigits h
  refine ⟨?_, by rw [value_eq_ofDigits, hmap]⟩
  rw [isNumeral, Bool.and_eq_true, bne_iff_ne, List.all_eq_true]
  refine ⟨?_, hall⟩
  rintro rfl
  exact hne hmap.symm

end Numerals

/-- A sign that is split off can be put back. -/
theorem exists_splitSign (s : Text) :
    ∃ sign : Sign, s = sign.text ++ (splitSign s).2 ∧
      ∀ n : Nat, (if (splitSign s).1 then -(n : Int) else n) = sign.signed n := by
  cases s with
  | nil => exact ⟨.absent, rfl, fun _ => rfl⟩
  | cons c s =>
    rw [splitSign]
    split
    · next hc => exact ⟨.minus, by rw [hc]; rfl, fun _ => rfl⟩
    · split
      · next hc => exact ⟨.plus, by rw [hc]; rfl, fun _ => rfl⟩
      · exact ⟨.absent, rfl, fun _ => rfl⟩

/-- The value that the grammar gives to a literal is the one that is computed; in particular there is only one. -/
theorem denotes_iff {s : Text} {v : Int} : Denotes s v ↔ integerValue? s = some v := by
  constructor
  · rintro ⟨hne, hdigits, hfigures⟩
    rename_i sign radix digits figures
    obtain ⟨hnumeral, hvalue⟩ := isNumeral_of_figures radix.base_le hne hdigits hfigures
    have hproper : Term.Proper ⟨sign, radix.marker ++ figures⟩ := (isWord_numeral hnumeral).proper
    rw [← hvalue]
    exact Term.integerValue?_text hproper rfl hnumeral
  · intro h
    obtain ⟨radix, figures, hfigures⟩ := isInteger_iff.mp (by rw [isInteger_eq_isSome, h, Option.isSome_some])
    obtain ⟨hbody, hnumeral⟩ := digits?_eq_some_iff.mp hfigures
    obtain ⟨sign, hs, hsigned⟩ := exists_splitSign s
    rw [integerValue?_of_digits? hfigures, hsigned, Option.some_inj, value_eq_ofDigits] at h
    obtain ⟨hne, hdigits, hforall⟩ := figures_of_isNumeral hnumeral
    rw [hs, hbody, ← h]
    exact .intro hne hdigits hforall

theorem isInteger_iff_denotes {s : Text} : isInteger s ↔ ∃ v, Denotes s v := by
  rw [isInteger_eq_isSome, Option.isSome_iff_exists]
  exact exists_congr fun v => denotes_iff.symm

theorem wordOfInt?_eq_some_iff_emod {v : Int} {w : Word} :
    wordOfInt? v = some w ↔ Representable v ∧ (w.toNat : Int) = v % 0x100000000 := by
  rw [wordOfInt?_eq_some_iff]
  refine and_congr_right fun _ => ?_
  rw [← UInt32.toNat_inj, UInt32.ofInt, UInt32.toNat_ofNat']
  omega

theorem character_eq_ok_iff {s : Text} {w : Word} : character s = .ok w ↔ ∃ c, IsCharacter s c ∧ w = c.val := by
  constructor
  · intro h
    rw [character] at h
    split at h
    · next c hread =>
      obtain ⟨body, hbetween, hbody⟩ := Option.bind_eq_some_iff.mp hread
      obtain rfl := Text.between?_eq_some_iff.mp hbetween
      refine ⟨c, ?_, (Except.ok.inj h).symm⟩
      split at hbody
      · split at hbody
        · cases hbody
        · next hc =>
          cases hbody
          exact .plain hc
      · split at hbody
        · next hc =>
          rw [hc]
          exact .escaped hbody
        · cases hbody
      · cases hbody
    · cases h
  · rintro ⟨c, hc, rfl⟩
    cases hc with
    | plain hc => simp [character, Text.between?, Text.dropLead?, Text.dropTrail?, hc]
    | escaped hc => simp [character, Text.between?, Text.dropLead?, Text.dropTrail?, hc]

/-- A quote is no part of an integer. -/
theorem IsCharacter.not_denotes {s : Text} {c : Char} (h : IsCharacter s c) (v : Int) : ¬ Denotes s v := by
  intro hv
  have hinteger : isInteger s := isInteger_iff_denotes.mpr ⟨v, hv⟩
  have hquote : '\'' ∈ s := by cases h <;> exact List.mem_cons_self
  have hmem := of_mem_isInteger hinteger hquote
  revert hmem
  decide

theorem integer_of_denotes {s : Text} {v : Int} (h : Denotes s v) :
    integer s = match wordOfInt? v with
      | some w => .ok w
      | none => .error (.outOfRange s) :=
  integer_of_some (denotes_iff.mp h)

theorem integer_of_not_denotes {s : Text} (h : ∀ v, ¬ Denotes s v) :
    integer s = match character s with
      | .ok w => .ok w
      | .error _ => .error (.integer s) := by
  apply integer_of_none
  rw [Option.eq_none_iff_forall_ne_some]
  exact fun v hv => h v (denotes_iff.mpr hv)

section Integer

variable {s : Text}

theorem integer_eq_ok_iff {w : Word} : integer s = .ok w ↔
    (∃ v, Denotes s v ∧ Representable v ∧ (w.toNat : Int) = v % 0x100000000) ∨
      ∃ c, IsCharacter s c ∧ w = c.val := by
  constructor
  · intro h
    by_cases hdenotes : ∃ v, Denotes s v
    · obtain ⟨v, hv⟩ := hdenotes
      obtain ⟨u, hu, hword⟩ := exists_of_integer (isInteger_iff_denotes.mpr ⟨v, hv⟩) h
      exact .inl ⟨u, denotes_iff.mpr hu, wordOfInt?_eq_some_iff_emod.mp hword⟩
    · rw [integer_of_not_denotes (not_exists.mp hdenotes)] at h
      split at h
      · next hread =>
        cases h
        exact .inr (character_eq_ok_iff.mp hread)
      · cases h
  · rintro (⟨v, hv, hrange⟩ | ⟨c, hc, rfl⟩)
    · rw [integer_of_denotes hv, wordOfInt?_eq_some_iff_emod.mpr hrange]
    · rw [integer_of_not_denotes hc.not_denotes, character_eq_ok_iff.mpr ⟨c, hc, rfl⟩]

theorem integer_eq_outOfRange_iff : integer s = .error (.outOfRange s) ↔ ∃ v, Denotes s v ∧ ¬ Representable v := by
  constructor
  · intro h
    by_cases hdenotes : ∃ v, Denotes s v
    · obtain ⟨v, hv⟩ := hdenotes
      refine ⟨v, hv, fun hrange => ?_⟩
      rw [integer_of_denotes hv, wordOfInt?_eq_some_iff.mpr ⟨hrange, rfl⟩] at h
      cases h
    · rw [integer_of_not_denotes (not_exists.mp hdenotes)] at h
      split at h <;> cases h
  · rintro ⟨v, hv, hrange⟩
    have hnone : wordOfInt? v = none := by
      rw [Option.eq_none_iff_forall_ne_some]
      exact fun w hw => hrange (wordOfInt?_eq_some_iff.mp hw).1
    rw [integer_of_denotes hv, hnone]

theorem integer_eq_integer_iff :
    integer s = .error (.integer s) ↔ (∀ v, ¬ Denotes s v) ∧ ∀ c, ¬ IsCharacter s c := by
  constructor
  · intro h
    have hdenotes (v : Int) : ¬ Denotes s v := by
      intro hv
      rw [integer_of_denotes hv] at h
      split at h <;> cases h
    refine ⟨hdenotes, fun c hc => ?_⟩
    rw [integer_of_not_denotes hdenotes, character_eq_ok_iff.mpr ⟨c, hc, rfl⟩] at h
    cases h
  · rintro ⟨hdenotes, hcharacter⟩
    rw [integer_of_not_denotes hdenotes]
    split
    · next w hread =>
      obtain ⟨c, hc, -⟩ := character_eq_ok_iff.mp hread
      exact absurd hc (hcharacter c)
    · rfl

end Integer

/-- What a text is read as when an integer is wanted: the word congruent to the value of an integer literal, or the code
point of a character. A literal without representation is out of range, and everything else is no integer. The literals
are the texts that are classified as integers, which are therefore never refused for their form. -/
theorem integer_meaning (s : Text) :
    (∀ w, integer s = .ok w ↔
      (∃ v, Denotes s v ∧ Representable v ∧ (w.toNat : Int) = v % 0x100000000) ∨ ∃ c, IsCharacter s c ∧ w = c.val) ∧
    (integer s = .error (.outOfRange s) ↔ ∃ v, Denotes s v ∧ ¬ Representable v) ∧
    (integer s = .error (.integer s) ↔ (∀ v, ¬ Denotes s v) ∧ ∀ c, ¬ IsCharacter s c) ∧
    (isInteger s ↔ ∃ v, Denotes s v) ∧
    ∀ t, isInteger s → integer s ≠ .error (.integer t) := by
  refine ⟨fun w => integer_eq_ok_iff, integer_eq_outOfRange_iff, integer_eq_integer_iff, isInteger_iff_denotes, ?_⟩
  intro t hinteger h
  obtain ⟨v, hv⟩ := isInteger_iff_denotes.mp hinteger
  rw [integer_of_denotes hv] at h
  split at h <;> cases h

end R64.Literal
