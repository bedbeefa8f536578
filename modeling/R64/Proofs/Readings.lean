import Mathlib.Logic.Basic
import R64.Proofs.Integers
import R64.Proofs.Regions
/-!
Operands that can be read in several ways. Registers, integers, characters, floating-point numbers and strings are told
apart by their first character and by whether they are integer literals. Main statement: a text is at most one of them,
and a rounding mode is neither a register nor a floating-point number; therefore, wherever one reading is tried after
another, the order makes no difference to what is accepted and as which value.
-/
namespace R64.Literal

inductive Family where
  | integer | string | character | name | other
  deriving DecidableEq

/-- The family of a text. The names are those of registers and rounding modes. -/
def family (s : Text) : Family :=
  if isInteger s then .integer
  else match s.head? with
    | none => .other
    | some c =>
      if c = '"' then .string
      else if c = '\'' then .character
      else if c.toLower ∈ ['r', 's', 'p'] then .name
      else .other

theorem family_name {c : Char} {s : Text} (h : c.toLower ∈ ['r', 's', 'p']) : family (c :: s) = .name := by
  have hdouble : c ≠ '"' := by
    rintro rfl
    exact absurd h (by decide)
  have hsingle : c ≠ '\'' := by
    rintro rfl
    exact absurd h (by decide)
  rw [family, isInteger_of_head h]
  simp only [Bool.false_eq_true, if_false, List.head?_cons, if_neg hdouble, if_neg hsingle, if_pos h]

theorem isOk_iff {α : Type} {e : Except LiteralError α} : e.isOk ↔ ∃ a, e = .ok a := by
  cases e <;> simp [Except.isOk, Except.toBool]

section Families

variable {s : Text}

theorem isOk_register : (register s).isOk = isRegister s := by
  unfold isRegister
  split <;> simp [*, Except.isOk, Except.toBool]

theorem family_of_register (h : (register s).isOk) : family s ∈ [Family.name] := by
  rw [isOk_register] at h
  obtain ⟨c, hc, hletter⟩ := head_of_isRegister h
  obtain ⟨t, rfl⟩ : ∃ t, s = c :: t := List.head?_eq_some_iff.mp hc
  exact List.mem_singleton.mpr (family_name hletter)

theorem family_of_integer (h : (integer s).isOk) : family s ∈ [Family.integer, .character] := by
  obtain ⟨w, hw⟩ := isOk_iff.mp h
  rcases integer_eq_ok_iff.mp hw with ⟨v, hv, -⟩ | ⟨c, hc, -⟩
  · have hinteger : isInteger s := isInteger_iff_denotes.mpr ⟨v, hv⟩
    rw [family, if_pos hinteger]
    decide
  · have hinteger : isInteger s = false := by
      rw [Bool.eq_false_iff, Ne, isInteger_iff_denotes]
      exact fun ⟨v, hv⟩ => hc.not_denotes v hv
    rw [family, hinteger]
    cases hc <;> exact List.mem_cons_of_mem _ List.mem_cons_self

theorem isInteger_of_single {w : Word} (h : single s = .ok w) : isInteger s = false := by
  rw [Bool.eq_false_iff]
  intro hinteger
  rw [single, if_pos (.inr hinteger)] at h
  cases h

theorem family_of_single (h : (single s).isOk) : family s ∈ [Family.other] := by
  obtain ⟨w, hw⟩ := isOk_iff.mp h
  rw [family, isInteger_of_single hw]
  cases s with
  | nil => exact List.mem_cons_self
  | cons c s =>
    have hmem := of_mem_single hw List.mem_cons_self
    have hdouble : c ≠ '"' := by
      rintro rfl
      revert hmem
      decide
    have hsingle : c ≠ '\'' := by
      rintro rfl
      revert hmem
      decide
    have hletter : c.toLower ∉ ['r', 's', 'p'] := fun hletter => single_ne_of_head hletter w hw
    simp only [Bool.false_eq_true, if_false, List.head?_cons, if_neg hdouble, if_neg hsingle, if_neg hletter]
    exact List.mem_cons_self

theorem family_of_string (h : (string s).isOk) : family s ∈ [Family.string] := by
  obtain ⟨words, hwords⟩ := isOk_iff.mp h
  obtain ⟨body, text, rfl, -⟩ := exists_of_string hwords
  have hinteger : isInteger (enclosed '"' body) = false := by
    rw [isInteger_eq_isSome, integerValue?_enclosed rfl, Option.isSome_none]
  rw [family, hinteger]
  exact List.mem_cons_self

theorem family_of_parse? {mode : RoundingMode} (h : RoundingMode.parse? s = some mode) : family s = .name := by
  have hall : ∀ name ∈ (Coded.all : List RoundingMode).map Coded.name,
      name.head?.any fun c => c ∈ ['r', 's', 'p'] := by
    decide
  obtain ⟨c, hc, hletter⟩ := (Option.any_eq_true _ _).mp (hall _ (lower_of_parse? h))
  rw [Text.lower, List.head?_map, Option.map_eq_some_iff] at hc
  obtain ⟨d, hd, rfl⟩ := hc
  obtain ⟨t, rfl⟩ : ∃ t, s = d :: t := List.head?_eq_some_iff.mp hd
  exact family_name (of_decide_eq_true hletter)

/-- A rounding mode is given by its name or by its number. -/
theorem roundingMode_cases (h : (roundingMode s).isOk) :
    (∃ mode, RoundingMode.parse? s = some mode) ∨ (integer s).isOk := by
  unfold roundingMode at h
  split at h
  · next mode hmode => exact .inl ⟨mode, hmode⟩
  · split at h
    · next w hw => exact .inr (isOk_iff.mpr ⟨w, hw⟩)
    · cases h

theorem family_of_roundingMode (h : (roundingMode s).isOk) : family s ∈ [Family.name, .integer, .character] := by
  rcases roundingMode_cases h with ⟨mode, hmode⟩ | hinteger
  · rw [family_of_parse? hmode]
    exact List.mem_cons_self
  · exact List.mem_cons_of_mem _ (family_of_integer hinteger)

/-- Modes and registers are names, but behind its letter a register has a digit and a mode has none. -/
theorem isRegister_of_parse? {mode : RoundingMode} (h : RoundingMode.parse? s = some mode) : isRegister s = false := by
  rw [Bool.eq_false_iff, ← isOk_register]
  intro hregister
  obtain ⟨r, hr⟩ := isOk_iff.mp hregister
  have hmode := lower_of_parse? h
  rcases register_cases hr with ⟨c, digits, rfl, -, hnumeral⟩ | hname
  · have hall : ∀ name ∈ (Coded.all : List RoundingMode).map Coded.name, name.tail.head?.any fun d => 57 < d.toNat := by
      decide
    obtain ⟨hne, hdigits⟩ := of_isNumeral hnumeral
    obtain ⟨d, digits, rfl⟩ := List.exists_cons_of_ne_nil hne
    have hlarge : 57 < d.toLower.toNat := by simpa [Text.lower] using hall _ hmode
    have hrange := toNat_of_isDigit_ten (hdigits d List.mem_cons_self)
    rcases Text.toLower_cases d with hlower | hupper
    · rw [hlower] at hlarge
      omega
    · omega
  · have hall : ∀ entry ∈ Register.named, entry.2 ∉ (Coded.all : List RoundingMode).map Coded.name := by decide
    exact hall _ hname hmode

/-- Texts of different families are different texts. -/
theorem not_and_of_families {p q : Prop} {fs gs : List Family} (hp : p → family s ∈ fs) (hq : q → family s ∈ gs)
    (h : ∀ f ∈ fs, f ∉ gs) : ¬ (p ∧ q) := fun both => h _ (hp both.1) (hq both.2)

end Families

section Disjoint

variable (s : Text)

theorem not_register_and_integer : ¬ ((register s).isOk ∧ (integer s).isOk) :=
  not_and_of_families family_of_register family_of_integer (by decide)

theorem not_register_and_single : ¬ ((register s).isOk ∧ (single s).isOk) :=
  not_and_of_families family_of_register family_of_single (by decide)

theorem not_integer_and_single : ¬ ((integer s).isOk ∧ (single s).isOk) :=
  not_and_of_families family_of_integer family_of_single (by decide)

theorem not_roundingMode_and_single : ¬ ((roundingMode s).isOk ∧ (single s).isOk) :=
  not_and_of_families family_of_roundingMode family_of_single (by decide)

theorem not_register_and_roundingMode : ¬ ((register s).isOk ∧ (roundingMode s).isOk) := by
  rintro ⟨hregister, hmode⟩
  rcases roundingMode_cases hmode with ⟨mode, hparse⟩ | hinteger
  · rw [isOk_register, isRegister_of_parse? hparse] at hregister
    cases hregister
  · exact not_register_and_integer s ⟨hregister, hinteger⟩

theorem count_isOk_le_one :
    [(register s).isOk, (integer s).isOk, (single s).isOk, (string s).isOk].count true ≤ 1 := by
  have hall : ∀ r i f t : Bool, ¬ (r ∧ i) → ¬ (r ∧ f) → ¬ (r ∧ t) → ¬ (i ∧ f) → ¬ (i ∧ t) → ¬ (f ∧ t) →
      [r, i, f, t].count true ≤ 1 := by
    decide
  exact hall _ _ _ _ (not_register_and_integer s) (not_register_and_single s)
    (not_and_of_families family_of_register family_of_string (by decide)) (not_integer_and_single s)
    (not_and_of_families family_of_integer family_of_string (by decide))
    (not_and_of_families family_of_single family_of_string (by decide))

end Disjoint

theorem xor_iff_or {a b : Prop} (h : ¬ (a ∧ b)) : Xor a b ↔ a ∨ b := by
  rw [xor_iff_or_and_not_and, and_iff_left h]

section Choices

variable {s : Text}

/-- A number is no integer for its form, not for its size. -/
theorem integer_of_single {w : Word} (h : single s = .ok w) : integer s = .error (.integer s) := by
  refine integer_eq_integer_iff.mpr ⟨fun v hv => ?_, fun c hc => ?_⟩
  · have hinteger : isInteger s := isInteger_iff_denotes.mpr ⟨v, hv⟩
    rw [isInteger_of_single h] at hinteger
    cases hinteger
  · have hcharacter : integer s = .ok c.val := integer_eq_ok_iff.mpr (.inr ⟨c, hc, rfl⟩)
    exact not_integer_and_single s ⟨isOk_iff.mpr ⟨_, hcharacter⟩, isOk_iff.mpr ⟨w, h⟩⟩

theorem word_eq_ok_iff {w : Word} : word s = .ok w ↔ integer s = .ok w ∨ single s = .ok w := by
  constructor
  · intro h
    unfold word at h
    split at h
    · next hw =>
      cases h
      exact .inl hw
    · cases h
    · split at h
      · next hw =>
        cases h
        exact .inr hw
      · cases h
      · cases h
  · rintro (h | h)
    · exact word_of_integer h
    · simp only [word, integer_of_single h, h]

theorem not_word_and_string (s : Text) : ¬ ((word s).isOk ∧ (string s).isOk) := by
  rintro ⟨hword, hstring⟩
  obtain ⟨w, hw⟩ := isOk_iff.mp hword
  rcases word_eq_ok_iff.mp hw with h | h
  · exact not_and_of_families family_of_integer family_of_string (by decide) ⟨isOk_iff.mpr ⟨w, h⟩, hstring⟩
  · exact not_and_of_families family_of_single family_of_string (by decide) ⟨isOk_iff.mpr ⟨w, h⟩, hstring⟩

theorem data_eq_ok_iff {words : List Word} :
    data s = .ok words ↔ (∃ w, word s = .ok w ∧ words = [w]) ∨ string s = .ok words := by
  unfold data
  cases hword : word s with
  | ok w =>
    have hstring : ¬ string s = .ok words := by
      intro h
      exact not_word_and_string s ⟨isOk_iff.mpr ⟨w, hword⟩, isOk_iff.mpr ⟨words, h⟩⟩
    simp [hstring, eq_comm]
  | error e => cases hstring : string s <;> simp

theorem isOk_data_iff : (data s).isOk ↔ (word s).isOk ∨ (string s).isOk := by
  simp only [isOk_iff, data_eq_ok_iff]
  constructor
  · rintro ⟨words, ⟨w, hw, -⟩ | hstring⟩
    · exact .inl ⟨w, hw⟩
    · exact .inr ⟨words, hstring⟩
  · rintro (⟨w, hw⟩ | ⟨words, hstring⟩)
    · exact ⟨[w], .inl ⟨w, hw, rfl⟩⟩
    · exact ⟨words, .inr hstring⟩

/-- What is out of range is an integer literal, and so nothing else. -/
theorem family_of_outOfRange {t : Text} (h : integer s = .error (.outOfRange t)) : family s ∈ [Family.integer] := by
  have hinteger : isInteger s := by
    rw [isInteger_iff_denotes]
    by_contra hnone
    rw [integer_of_not_denotes (not_exists.mp hnone)] at h
    split at h <;> cases h
  rw [family, if_pos hinteger]
  exact List.mem_cons_self

/-- An operand that is a register or else an immediate is accepted as whichever of the two it is. -/
theorem secondSource_eq_iff {literal : Text → Except LiteralError Word}
    (hdisjoint : ¬ ((register s).isOk ∧ (literal s).isOk)) {i j : Instruction} :
    Operand.secondSource literal s i = ⟨some j, []⟩ ↔
      (∃ r, register s = .ok r ∧ j = { i with srcB := r }) ∨
        ∃ w, literal s = .ok w ∧ j = { i with trailer := .word w } := by
  unfold Operand.secondSource Operand.register
  cases hregister : register s with
  | ok r =>
    have hliteral (w : Word) : literal s ≠ .ok w := by
      intro hw
      exact hdisjoint ⟨isOk_iff.mpr ⟨r, hregister⟩, isOk_iff.mpr ⟨w, hw⟩⟩
    simp [isRegister, hregister, Reading.accept, bind, pure, hliteral, eq_comm]
  | error e =>
    cases hliteral : literal s <;> simp [isRegister, hregister, Reading.accept, bind, pure, eq_comm]

/-- So is an operand that is a destination or else a rounding mode. -/
theorem destinationOrRounding_eq_iff {srcA dst : Register} {func func' : UInt8} :
    Operand.destinationOrRounding srcA func s = ⟨(dst, func'), []⟩ ↔
      (register s = .ok dst ∧ func' = func) ∨
        ∃ mode, roundingMode s = .ok mode ∧ dst = srcA ∧ func' = RoundingMode.apply func (Coded.code mode) := by
  unfold Operand.destinationOrRounding Operand.rounding Operand.register
  cases hregister : register s with
  | ok r =>
    have hmode (mode : RoundingMode) : roundingMode s ≠ .ok mode := by
      intro hmode
      exact not_register_and_roundingMode s ⟨isOk_iff.mpr ⟨r, hregister⟩, isOk_iff.mpr ⟨mode, hmode⟩⟩
    simp [isRegister, hregister, Reading.accept, bind, pure, hmode, eq_comm]
  | error e =>
    cases hmode : roundingMode s <;> simp [isRegister, hregister, Reading.accept, bind, pure, eq_comm]

end Choices

/-- The readings of a text do not compete: what is accepted as one thing is nothing else, so that each choice between
two readings takes the one that there is. -/
structure Uncontested (s : Text) : Prop where
  reading : [(register s).isOk, (integer s).isOk, (single s).isOk, (string s).isOk].count true ≤ 1
  mode : ¬ ((roundingMode s).isOk ∧ ((register s).isOk ∨ (single s).isOk))
  secondSource : ∀ literal, literal = integer ∨ literal = single → ∀ i j : Instruction,
    Operand.secondSource literal s i = ⟨some j, []⟩ ↔
      Xor (∃ r, register s = .ok r ∧ j = { i with srcB := r })
        (∃ w, literal s = .ok w ∧ j = { i with trailer := .word w })
  destination : ∀ (srcA dst : Register) (func func' : UInt8),
    Operand.destinationOrRounding srcA func s = ⟨(dst, func'), []⟩ ↔
      Xor (register s = .ok dst ∧ func' = func)
        (∃ mode, roundingMode s = .ok mode ∧ dst = srcA ∧ func' = RoundingMode.apply func (Coded.code mode))
  asWord : ∀ w, word s = .ok w ↔ Xor (integer s = .ok w) (single s = .ok w)
  asData : ∀ words, data s = .ok words ↔ Xor (∃ w, word s = .ok w ∧ words = [w]) (string s = .ok words)
  isData : (data s).isOk ↔ Xor ((word s).isOk = true) ((string s).isOk = true)
  outOfRange : ∀ t, integer s = .error (.outOfRange t) →
    ¬ ((single s).isOk ∨ (word s).isOk ∨ (data s).isOk ∨ (string s).isOk)

/-- Every text has at most one reading. -/
theorem uncontested (s : Text) : Uncontested s where
  reading := count_isOk_le_one s
  mode := by
    rintro ⟨hmode, hregister | hsingle⟩
    · exact not_register_and_roundingMode s ⟨hregister, hmode⟩
    · exact not_roundingMode_and_single s ⟨hmode, hsingle⟩
  secondSource literal hliteral i j := by
    have hdisjoint : ¬ ((register s).isOk ∧ (literal s).isOk) := by
      rcases hliteral with rfl | rfl
      · exact not_register_and_integer s
      · exact not_register_and_single s
    rw [secondSource_eq_iff hdisjoint, xor_iff_or]
    rintro ⟨⟨r, hr, -⟩, w, hw, -⟩
    exact hdisjoint ⟨isOk_iff.mpr ⟨r, hr⟩, isOk_iff.mpr ⟨w, hw⟩⟩
  destination srcA dst func func' := by
    rw [destinationOrRounding_eq_iff, xor_iff_or]
    rintro ⟨⟨hr, -⟩, mode, hmode, -⟩
    exact not_register_and_roundingMode s ⟨isOk_iff.mpr ⟨dst, hr⟩, isOk_iff.mpr ⟨mode, hmode⟩⟩
  asWord w := by
    rw [word_eq_ok_iff, xor_iff_or]
    rintro ⟨hinteger, hsingle⟩
    exact not_integer_and_single s ⟨isOk_iff.mpr ⟨w, hinteger⟩, isOk_iff.mpr ⟨w, hsingle⟩⟩
  asData words := by
    rw [data_eq_ok_iff, xor_iff_or]
    rintro ⟨⟨w, hw, -⟩, hstring⟩
    exact not_word_and_string s ⟨isOk_iff.mpr ⟨w, hw⟩, isOk_iff.mpr ⟨words, hstring⟩⟩
  isData := by rw [isOk_data_iff, xor_iff_or (not_word_and_string s)]
  outOfRange t h := by
    have hsingle : ¬ (single s).isOk := fun hok =>
      not_and_of_families family_of_outOfRange family_of_single (by decide) ⟨h, hok⟩
    have hstring : ¬ (string s).isOk := fun hok =>
      not_and_of_families family_of_outOfRange family_of_string (by decide) ⟨h, hok⟩
    have hword : ¬ (word s).isOk := by
      rw [isOk_iff]
      rintro ⟨w, hw⟩
      rcases word_eq_ok_iff.mp hw with hinteger | hfloat
      · rw [h] at hinteger
        cases hinteger
      · exact hsingle (isOk_iff.mpr ⟨w, hfloat⟩)
    have hdata : ¬ (data s).isOk := by
      rw [isOk_data_iff, not_or]
      exact ⟨hword, hstring⟩
    simp only [not_or]
    exact ⟨hsingle, hword, hdata, hstring⟩

end R64.Literal
