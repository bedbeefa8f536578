import Mathlib.Data.List.Forall2
import Mathlib.Data.List.TakeWhile
import R64.Instruction.Operand
import R64.Proofs.Literals
/-!
Address operands. The grammar of an operand is given in two steps: how terms with their signs are laid out in brackets,
and what a term denotes. Main statement: an operand is read without a fault exactly if the grammar gives it a meaning,
and then as the register and the offset of that meaning, in whichever order they are written.
-/
namespace R64

namespace Address

open Text

def bracketed (s : Text) : Text := "[" ++ s ++ "]"

theorem between?_bracketed (s : Text) : between? '[' ']' (bracketed s) = some s := between?_cons_concat '[' ']' s

theorem inert_bracketed {s : Text} (h : ∀ c ∈ s, Token.isInert c) : Token.Inert (bracketed s) where
  nonempty := by simp [bracketed]
  tight := by
    constructor
    · rw [bracketed, List.append_assoc, List.head?_append_of_ne_nil _ (by decide)]
      rintro c hc
      obtain rfl := Option.some.inj hc
      decide
    · rw [bracketed, List.getLast?_append_of_ne_nil _ (by decide)]
      rintro c hc
      obtain rfl := Option.some.inj hc
      decide
  inert := by
    simp only [bracketed, List.mem_append]
    rintro c ((hc | hc) | hc)
    · obtain rfl := List.mem_singleton.mp hc
      decide
    · exact h c hc
    · obtain rfl := List.mem_singleton.mp hc
      decide

inductive Sign where
  | absent | plus | minus
  deriving DecidableEq

namespace Sign

def text : Sign → Text
  | .absent => []
  | .plus => ['+']
  | .minus => ['-']

def signed : Sign → Nat → Int
  | .minus, n => -n
  | _, n => n

end Sign

/-- A term as it is written: a word with its sign. -/
structure Term where
  sign : Sign
  word : Text
  deriving DecidableEq

namespace Term

def text (t : Term) : Text := t.sign.text ++ t.word

/-- The term with blanks between the sign and the word. -/
def spread (gap : Text) (t : Term) : Text := t.sign.text ++ gap ++ t.word

end Term

def Blanks (s : Text) : Prop := ∀ c ∈ s, isBlank c

instance (s : Text) : Decidable (Blanks s) := decidable_of_iff (s.all isBlank) List.all_eq_true

/-- One or two terms in brackets, with blanks wherever there may be some. The second term has a sign. -/
inductive Layout : Text → List Term → Prop
  | single {start gap stop : Text} {t : Term} :
    Blanks start → Blanks gap → Blanks stop → Layout (bracketed (start ++ t.spread gap ++ stop)) [t]
  | pair {start gap middle gap' stop : Text} {t t' : Term} :
    Blanks start → Blanks gap → Blanks middle → Blanks gap' → Blanks stop → t'.sign ≠ .absent →
    Layout (bracketed (start ++ t.spread gap ++ (middle ++ t'.spread gap') ++ stop)) [t, t']

/-- What a term contributes to an address. -/
inductive Part where
  | base (r : Register)
  | offset (v : Int)
  deriving DecidableEq

namespace Part

def register? : Part → Option Register
  | .base r => some r
  | .offset _ => none

def value? : Part → Option Int
  | .base _ => none
  | .offset v => some v

end Part

/-- A base is a register without a minus sign. An offset is an unsigned numeral in one of the three notations that has,
together with its sign, a signed or an unsigned representation in 32 bits. -/
inductive Denotes : Term → Part → Prop
  | base {sign : Sign} {word : Text} {r : Register} :
    sign ≠ .minus → Literal.register word = .ok r → Denotes ⟨sign, word⟩ (.base r)
  | offset {sign : Sign} {radix : Literal.Radix} {digits : Text} {v : Int} :
    Literal.isNumeral radix.base digits → v = sign.signed (Literal.value radix.base digits) →
    -0x80000000 ≤ v → v ≤ 0xffffffff → Denotes ⟨sign, radix.marker ++ digits⟩ (.offset v)

/-- The meaning of an operand: the parts that its terms denote, at most one base and at most one offset. -/
structure Means (s : Text) (parts : List Part) : Prop where
  terms : ∃ ts, Layout s ts ∧ List.Forall₂ Denotes ts parts
  bases : (parts.filterMap Part.register?).length ≤ 1
  offsets : (parts.filterMap Part.value?).length ≤ 1

theorem of_endsFirst {c : Char} (h : endsFirst c = false) : isBlank c = false ∧ c ≠ '+' ∧ c ≠ '-' := by
  simpa [endsFirst, and_assoc] using h

theorem endsFirst_of_isAlphanum {c : Char} (h : c.isAlphanum) : endsFirst c = false := by
  have hplus : c ≠ '+' := by
    rintro rfl
    exact absurd h (by decide)
  have hminus : c ≠ '-' := by
    rintro rfl
    exact absurd h (by decide)
  simp [endsFirst, isBlank_of_isAlphanum h, hplus, hminus]

structure IsWord (s : Text) : Prop where
  nonempty : s ≠ []
  inner : ∀ c ∈ s, c.isAlphanum

section Words

variable {w : Text} (h : IsWord w)

include h

theorem IsWord.endsFirst : ∀ c ∈ w, endsFirst c = false := fun c hc => endsFirst_of_isAlphanum (h.inner c hc)

theorem IsWord.isBlank : ∀ c ∈ w, Text.isBlank c = false := fun c hc => isBlank_of_isAlphanum (h.inner c hc)

theorem IsWord.last (s : Text) : ∀ c ∈ (s ++ w).getLast?, Text.isBlank c = false := by
  rw [List.getLast?_append_of_ne_nil _ h.nonempty]
  exact fun c hc => h.isBlank c (List.mem_of_getLast? hc)

theorem IsWord.head (s : Text) :
    ∀ c ∈ (w ++ s).head?, Text.isBlank c = false ∧ c ≠ '+' ∧ c ≠ '-' := by
  rw [List.head?_append_of_ne_nil _ h.nonempty]
  exact fun c hc => of_endsFirst (h.endsFirst c (List.mem_of_head? hc))

end Words

theorem Sign.exists_of_ne_absent {sign : Sign} (h : sign ≠ .absent) :
    ∃ c, (c = '+' ∨ c = '-') ∧ isBlank c = false ∧ sign.text = [c] := by
  cases sign with
  | absent => exact absurd rfl h
  | plus => exact ⟨'+', .inl rfl, by decide, rfl⟩
  | minus => exact ⟨'-', .inr rfl, by decide, rfl⟩

theorem Sign.exists_text {c : Char} (h : c = '+' ∨ c = '-') : ∃ sign : Sign, sign.text = [c] := by
  rcases h with rfl | rfl
  · exact ⟨.plus, rfl⟩
  · exact ⟨.minus, rfl⟩

/-- A sign and the blanks around it are split off in front of what begins with neither. -/
theorem splitSign_trimStart {start gap rest : Text} (hstart : Blanks start) (hgap : Blanks gap) (sign : Sign)
    (hrest : ∀ c ∈ rest.head?, isBlank c = false ∧ c ≠ '+' ∧ c ≠ '-') :
    splitSign (trimStart (start ++ (sign.text ++ gap ++ rest))) = (sign.text, rest) := by
  have hafter : trimStart (gap ++ rest) = rest := by
    rw [trimStart_append_of_blank hgap, trimStart_of_head fun c hc => (hrest c hc).1]
  rw [trimStart_append_of_blank hstart, List.append_assoc]
  by_cases hsign : sign = .absent
  · subst hsign
    rw [Sign.text, List.nil_append, hafter]
    cases rest with
    | nil => rfl
    | cons c rest =>
      obtain ⟨-, hplus, hminus⟩ := hrest c rfl
      rw [splitSign, if_neg (by simp [hplus, hminus])]
  · obtain ⟨c, hc, hblank, htext⟩ := Sign.exists_of_ne_absent hsign
    rw [htext, List.singleton_append, trimStart_of_head (by simp [hblank]), splitSign, if_pos hc, hafter]

/-- Whatever a text begins with, splitting off its sign takes nothing away but blanks. -/
theorem exists_sign (s : Text) : ∃ (start gap rest : Text) (sign : Sign), Blanks start ∧ Blanks gap ∧
    s = start ++ (sign.text ++ gap ++ rest) ∧ splitSign (trimStart s) = (sign.text, rest) := by
  obtain ⟨start, hstart, hs⟩ := exists_trimStart s
  have hnone : Blanks [] := by decide
  generalize trimStart s = body at hs ⊢
  subst hs
  cases body with
  | nil => exact ⟨start, [], [], .absent, hstart, hnone, rfl, rfl⟩
  | cons c body =>
    rw [splitSign]
    split
    · next hc =>
      obtain ⟨sign, htext⟩ := Sign.exists_text hc
      obtain ⟨gap, hgap, hbody⟩ := exists_trimStart body
      refine ⟨start, gap, trimStart body, sign, hstart, hgap, ?_, by rw [htext]⟩
      rw [htext, List.append_assoc, ← hbody, List.singleton_append]
    · exact ⟨start, [], c :: body, .absent, hstart, hnone, rfl, rfl⟩

theorem takeWhile_word {w rest : Text} {p : Char → Bool} (hw : ∀ c ∈ w, p c) (hrest : ∀ c ∈ rest.head?, p c = false) :
    (w ++ rest).takeWhile p = w ∧ (w ++ rest).dropWhile p = rest := by
  rw [List.takeWhile_append_of_pos hw, List.dropWhile_append_of_pos hw]
  cases rest with
  | nil => exact ⟨List.append_nil w, rfl⟩
  | cons c rest => simp [hrest c rfl]

/-- The first term is entered, and what follows it is left to the second. -/
theorem parse?_first {start gap rest stop : Text} {t : Term} (ht : IsWord t.word) (hstart : Blanks start)
    (hgap : Blanks gap) (hstop : Blanks stop) (hrest : ∀ c ∈ rest.head?, endsFirst c)
    (hlast : ∀ c ∈ rest.getLast?, isBlank c = false) :
    parse? (bracketed (start ++ t.spread gap ++ rest ++ stop)) =
      (enter? ⟨none, none⟩ t.text).bind fun a =>
        if trimStart rest = [] then some a else a.second? (trimStart rest) := by
  have hinner : start ++ t.spread gap ++ rest = start ++ (t.sign.text ++ gap ++ (t.word ++ rest)) := by
    simp only [Term.spread, List.append_assoc]
  have htrim : trimEnd (start ++ t.spread gap ++ rest) = start ++ t.spread gap ++ rest := by
    apply trimEnd_of_last
    cases hnil : rest with
    | nil =>
      rw [Term.spread, List.append_nil, ← List.append_assoc]
      exact ht.last _
    | cons c r =>
      rw [List.getLast?_append_of_ne_nil _ (List.cons_ne_nil c r), ← hnil]
      exact hlast
  obtain ⟨htake, hdrop⟩ := @takeWhile_word t.word rest (fun c => !endsFirst c)
    (fun c hc => by rw [ht.endsFirst c hc, Bool.not_false]) (fun c hc => by rw [hrest c hc, Bool.not_true])
  rw [parse?, between?_bracketed, Option.bind_some, trim, ← trimStart_trimEnd, trimEnd_append_of_blank _ hstop, htrim,
    hinner, splitSign_trimStart hstart hgap t.sign (ht.head rest)]
  dsimp only
  rw [if_neg (by simp [ht.nonempty]), htake, hdrop, Term.text]

section Second

variable {t : Term} (hsign : t.sign ≠ .absent) {middle : Text} (hmiddle : Blanks middle)

include hsign hmiddle

/-- The sign of the second term, or a blank before it, ends the first. -/
theorem head_spread (gap : Text) : ∀ c ∈ (middle ++ t.spread gap).head?, endsFirst c := by
  cases middle with
  | nil =>
    obtain ⟨c, hc, -, htext⟩ := Sign.exists_of_ne_absent hsign
    rw [List.nil_append, Term.spread, htext]
    rintro d hd
    obtain rfl := Option.some.inj hd
    rcases hc with rfl | rfl <;> decide
  | cons b middle =>
    rintro d hd
    obtain rfl := Option.some.inj hd
    simp [endsFirst, hmiddle b List.mem_cons_self]

theorem trimStart_spread_ne_nil (gap : Text) : trimStart (middle ++ t.spread gap) ≠ [] := by
  obtain ⟨c, -, hblank, htext⟩ := Sign.exists_of_ne_absent hsign
  rw [trimStart_append_of_blank hmiddle, Term.spread, htext, List.append_assoc, List.singleton_append,
    trimStart_of_head (by simp [hblank])]
  exact List.cons_ne_nil _ _

theorem second?_term (a : Address) (ht : IsWord t.word) {gap : Text} (hgap : Blanks gap) :
    a.second? (trimStart (middle ++ t.spread gap)) = a.enter? t.text := by
  have hsplit := splitSign_trimStart hmiddle hgap t.sign (ht.head [])
  obtain ⟨htake, hdrop⟩ := @takeWhile_word t.word [] (fun c => !isBlank c)
    (fun c hc => by rw [ht.isBlank c hc, Bool.not_false]) (by simp)
  rw [List.append_nil] at hsplit htake hdrop
  obtain ⟨c, -, -, htext⟩ := Sign.exists_of_ne_absent hsign
  rw [second?, Term.spread, hsplit]
  simp [htext, ht.nonempty, htake, hdrop, trimStart, Term.text]

end Second

/-- Terms that are laid out in brackets are entered one after another. -/
theorem parse?_of_layout {s : Text} {ts : List Term} (h : Layout s ts) (hts : ∀ t ∈ ts, IsWord t.word) :
    parse? s = ts.foldlM (fun a t => a.enter? t.text) ⟨none, none⟩ := by
  cases h with
  | @single start gap stop t hstart hgap hstop =>
    have hparse := @parse?_first start gap [] stop t (hts t List.mem_cons_self) hstart hgap hstop (by simp) (by simp)
    rw [List.append_nil] at hparse
    simpa [trimStart] using hparse
  | @pair start gap middle gap' stop t t' hstart hgap hmiddle hgap' hstop hsign =>
    have ht' := hts t' (List.mem_cons_of_mem t List.mem_cons_self)
    have hlast : ∀ d ∈ (middle ++ t'.spread gap').getLast?, isBlank d = false := by
      rw [Term.spread, ← List.append_assoc]
      exact ht'.last _
    rw [parse?_first (hts t List.mem_cons_self) hstart hgap hstop (head_spread hsign hmiddle gap') hlast]
    simp only [if_neg (trimStart_spread_ne_nil hsign hmiddle gap'), second?_term hsign hmiddle _ ht' hgap',
      List.foldlM_cons, List.foldlM_nil, bind_pure]
    rfl

theorem blanks_of_trimStart {s : Text} (h : trimStart s = []) : Blanks s := List.dropWhile_eq_nil_iff.mp h

theorem Blanks.append {s t : Text} (hs : Blanks s) (ht : Blanks t) : Blanks (s ++ t) :=
  fun c hc => (List.mem_append.mp hc).elim (hs c) (ht c)

theorem exists_of_second? {a b : Address} {s : Text} (h : a.second? (trimStart s) = some b) :
    ∃ (middle gap stop : Text) (t : Term), Blanks middle ∧ Blanks gap ∧ Blanks stop ∧ t.sign ≠ .absent ∧
      s = middle ++ t.spread gap ++ stop ∧ a.enter? t.text = some b := by
  obtain ⟨middle, gap, rest, sign, hmiddle, hgap, hs, hsplit⟩ := exists_sign s
  rw [second?, hsplit] at h
  dsimp only at h
  split at h
  · cases h
  next hempty =>
  split at h
  · cases h
  next hstop =>
  have hrest := @List.takeWhile_append_dropWhile _ (fun c => !isBlank c) rest
  generalize rest.takeWhile (fun c => !isBlank c) = word at h hrest
  generalize rest.dropWhile (fun c => !isBlank c) = stop at hstop hrest
  refine ⟨middle, gap, stop, ⟨sign, word⟩, hmiddle, hgap, blanks_of_trimStart (not_not.mp hstop), ?_, ?_, h⟩
  · rintro (rfl : sign = .absent)
    exact hempty (.inl rfl)
  · simp only [hs, ← hrest, Term.spread, List.append_assoc]

/-- A word that stands without a sign holds none. -/
def Term.Proper (t : Term) : Prop := t.sign = .absent → ∀ c ∈ t.word, c ≠ '+' ∧ c ≠ '-'

/-- Every operand that can be parsed is laid out in terms, and these have been entered. -/
theorem exists_layout {s : Text} {a : Address} (h : parse? s = some a) :
    ∃ ts, Layout s ts ∧ (∀ t ∈ ts, t.Proper) ∧ ts.foldlM (fun a t => a.enter? t.text) ⟨none, none⟩ = some a := by
  obtain ⟨inner, hinner, h⟩ := Option.bind_eq_some_iff.mp h
  have hs : s = bracketed inner := between?_eq_some_iff.mp hinner
  obtain ⟨stop, hstop, hstops⟩ := exists_trimEnd inner
  obtain ⟨start, gap, rest, sign, hstart, hgap, hrest, hsplit⟩ := exists_sign (trimEnd inner)
  rw [trim, ← trimStart_trimEnd, hsplit] at h
  dsimp only at h
  split at h
  · cases h
  obtain ⟨b, hfirst, h⟩ := Option.bind_eq_some_iff.mp h
  have hcut := @List.takeWhile_append_dropWhile _ (fun c => !endsFirst c) rest
  have hword : ∀ c ∈ rest.takeWhile (fun c => !endsFirst c), c ≠ '+' ∧ c ≠ '-' := fun c hc =>
    (of_endsFirst (by simpa using List.all_eq_true.mp List.all_takeWhile c hc)).2
  generalize rest.takeWhile (fun c => !endsFirst c) = word at hfirst hcut hword
  generalize rest.dropWhile (fun c => !endsFirst c) = tail at h hcut
  have hproper : Term.Proper ⟨sign, word⟩ := fun _ => hword
  split at h
  · next htail =>
    cases h
    refine ⟨[⟨sign, word⟩], ?_, by simpa using hproper, by simp [List.foldlM_cons, Term.text, hfirst]⟩
    have hlayout := @Layout.single start gap (tail ++ stop) ⟨sign, word⟩ hstart hgap
      ((blanks_of_trimStart htail).append hstop)
    rw [hs, hstops, hrest, ← hcut]
    simpa only [Term.spread, List.append_assoc] using hlayout
  · obtain ⟨middle, gap', stop', t, hmiddle, hgap', hstop', hsign, htail, hsecond⟩ := exists_of_second? h
    refine ⟨[⟨sign, word⟩, t], ?_, ?_, ?_⟩
    · have hlayout := @Layout.pair start gap middle gap' (stop' ++ stop) ⟨sign, word⟩ t hstart hgap hmiddle hgap'
        (hstop'.append hstop) hsign
      rw [hs, hstops, hrest, ← hcut, htail]
      simpa only [Term.spread, List.append_assoc] using hlayout
    · have hsecond : t.Proper := fun habsent => absurd habsent hsign
      simpa using ⟨hproper, hsecond⟩
    · simp only [List.foldlM_cons, List.foldlM_nil, bind_pure, Term.text, hfirst]
      exact hsecond

/-- A term becomes the offset or the base, according to whether it is an integer literal. -/
theorem enter?_cases {a b : Address} {term : Text} (h : a.enter? term = some b) :
    (Literal.isInteger term ∧ a.offset = none ∧ b = { a with offset := some term }) ∨
      (a.base = none ∧ b = { a with base := some ((dropLead? '+' term).getD term) }) := by
  unfold enter? at h
  split at h
  · next hint =>
    split at h
    · cases h
    · next hoffset =>
      cases h
      exact .inl ⟨hint, by simpa using hoffset, rfl⟩
  · split at h
    · cases h
    · next hbase =>
      cases h
      exact .inr ⟨by simpa using hbase, rfl⟩

theorem bracketed_injective {s t : Text} (h : bracketed s = bracketed t) : s = t := by
  have hbetween := congrArg (between? '[' ']') h
  rw [between?_bracketed, between?_bracketed] at hbetween
  exact Option.some.inj hbetween

/-- An offset alone is one integer literal; besides its characters there are only blanks in the brackets. -/
theorem of_parse?_offset {s offset : Text} (h : parse? (bracketed s) = some ⟨none, some offset⟩) {c : Char}
    (hc : c ∈ s) : isBlank c ∨ c = '+' ∨ c = '-' ∨ c.isAlphanum := by
  obtain ⟨ts, hlayout, -, hfold⟩ := exists_layout h
  generalize hs : bracketed s = operand at hlayout
  cases hlayout with
  | @single start gap stop t hstart hgap hstop =>
    obtain rfl := bracketed_injective hs
    simp only [List.foldlM_cons, List.foldlM_nil, bind_pure] at hfold
    rcases enter?_cases hfold with ⟨hint, -, -⟩ | ⟨-, heq⟩
    · simp only [Term.spread, List.mem_append] at hc
      rcases hc with (hc | (hc | hc) | hc) | hc
      · exact .inl (hstart c hc)
      · exact .inr (Literal.of_mem_isInteger hint (List.mem_append_left _ hc))
      · exact .inl (hgap c hc)
      · exact .inr (Literal.of_mem_isInteger hint (List.mem_append_right _ hc))
      · exact .inl (hstop c hc)
    · cases heq
  | @pair start gap middle gap' stop t t' =>
    simp only [List.foldlM_cons, List.foldlM_nil, bind_pure] at hfold
    obtain ⟨a, hfirst, hsecond⟩ := Option.bind_eq_some_iff.mp hfold
    rcases enter?_cases hsecond with ⟨-, hoffset, heq⟩ | ⟨-, heq⟩
    · rcases enter?_cases hfirst with ⟨-, -, rfl⟩ | ⟨-, rfl⟩
      · cases hoffset
      · cases heq
    · cases heq

theorem IsWord.proper {t : Term} (h : IsWord t.word) : t.Proper :=
  fun _ c hc => (of_endsFirst (h.endsFirst c hc)).2

theorem isWord_numeral {radix : Literal.Radix} {digits : Text} (h : Literal.isNumeral radix.base digits) :
    IsWord (radix.marker ++ digits) := by
  obtain ⟨hne, hdigits⟩ := Literal.of_isNumeral h
  refine ⟨by simp [hne], fun c hc => ?_⟩
  rcases List.mem_append.mp hc with hc | hc
  · exact Literal.isAlphanum_of_mem_marker radix c hc
  · exact Literal.isAlphanum_of_isDigit (hdigits c hc)

theorem Denotes.isWord {t : Term} {p : Part} (h : Denotes t p) : IsWord t.word := by
  cases h with
  | base hsign hregister =>
    obtain ⟨hne, hletters⟩ := Literal.of_register hregister
    exact ⟨hne, hletters⟩
  | offset hnumeral => exact isWord_numeral hnumeral

/-- A sign is split off a text that does not begin with another one. -/
theorem Sign.splitSign_append (sign : Sign) {body : Text}
    (h : sign = .absent → ∀ c ∈ body.head?, c ≠ '+' ∧ c ≠ '-') :
    Literal.splitSign (sign.text ++ body) = (decide (sign = .minus), body) := by
  cases sign with
  | absent =>
    cases body with
    | nil => rfl
    | cons c body =>
      obtain ⟨hplus, hminus⟩ := h rfl c rfl
      change Literal.splitSign (c :: body) = _
      rw [Literal.splitSign, if_neg hminus, if_neg hplus]
      rfl
  | plus => rfl
  | minus => rfl

namespace Term

variable {t : Term} (ht : t.Proper)

include ht

theorem splitSign_text : Literal.splitSign t.text = (decide (t.sign = .minus), t.word) :=
  t.sign.splitSign_append fun habsent c hc => ht habsent c (List.mem_of_mem_head? hc)

theorem dropLead?_text (hsign : t.sign ≠ .minus) : (dropLead? '+' t.text).getD t.text = t.word := by
  obtain ⟨sign, word⟩ := t
  cases sign with
  | absent =>
    cases word with
    | nil => rfl
    | cons c word =>
      change (dropLead? '+' (c :: word)).getD (c :: word) = _
      rw [dropLead?, if_neg (ht rfl c List.mem_cons_self).1]
      rfl
  | plus => rfl
  | minus => exact absurd rfl hsign

theorem isInteger_text_iff : Literal.isInteger t.text ↔ ∃ (radix : Literal.Radix) (digits : Text),
    t.word = radix.marker ++ digits ∧ Literal.isNumeral radix.base digits := by
  simp only [Literal.isInteger_iff, Literal.digits?_eq_some_iff, splitSign_text ht]

/-- A register is no integer, with whichever sign: they begin with different characters. -/
theorem isInteger_text_of_register {r : Register} (hregister : Literal.register t.word = .ok r) :
    Literal.isInteger t.text = false := by
  rw [Bool.eq_false_iff]
  intro hint
  obtain ⟨radix, digits, hdigits⟩ := Literal.isInteger_iff.mp hint
  obtain ⟨c, hc, hdigit⟩ := Literal.head_of_digits? hdigits
  obtain ⟨d, hd, hletter⟩ := Literal.head_of_isRegister (s := t.word) (by rw [Literal.isRegister, hregister])
  rw [splitSign_text ht] at hc
  obtain rfl := Option.mem_unique hc hd
  exact Literal.toLower_of_isDigit_ten hdigit hletter

theorem integerValue?_text {radix : Literal.Radix} {digits : Text} (hword : t.word = radix.marker ++ digits)
    (hnumeral : Literal.isNumeral radix.base digits) :
    Literal.integerValue? t.text = some (t.sign.signed (Literal.value radix.base digits)) := by
  have hdigits : radix.digits? t.text = some digits := by
    rw [Literal.digits?_eq_some_iff, splitSign_text ht]
    exact ⟨hword, hnumeral⟩
  rw [Literal.integerValue?_of_digits? hdigits, splitSign_text ht]
  cases t.sign <;> rfl

end Term

/-- How the texts of an address are read, if its terms denote the given parts. -/
structure Reads (a : Address) (parts : List Part) : Prop where
  base : a.base.toList.map Literal.register = (parts.filterMap Part.register?).map .ok
  offset : a.offset.toList.map Literal.integer = (parts.filterMap Part.value?).map fun v => .ok (UInt32.ofInt v)

theorem reads_nil : Reads ⟨none, none⟩ [] := ⟨rfl, rfl⟩

theorem Reads.append_base {a : Address} {parts : List Part} (h : Reads a parts) (ha : a.base = none) {word : Text}
    {r : Register} (hr : Literal.register word = .ok r) : Reads { a with base := some word } (parts ++ [.base r]) := by
  have hbase := h.base
  rw [ha] at hbase
  constructor
  · simp [List.filterMap_append, ← hbase, Part.register?, hr]
  · simp [List.filterMap_append, ← h.offset, Part.value?]

theorem Reads.append_offset {a : Address} {parts : List Part} (h : Reads a parts) (ha : a.offset = none) {text : Text}
    {v : Int} (hv : Literal.integer text = .ok (UInt32.ofInt v)) :
    Reads { a with offset := some text } (parts ++ [.offset v]) := by
  have hoffset := h.offset
  rw [ha] at hoffset
  constructor
  · simp [List.filterMap_append, ← h.base, Part.register?]
  · simp [List.filterMap_append, ← hoffset, Part.value?, hv]

structure Readable (a : Address) : Prop where
  base : ∀ name ∈ a.base, ∃ r, Literal.register name = .ok r
  offset : ∀ literal ∈ a.offset, ∃ w, Literal.integer literal = .ok w

/-- A term that denotes a part is entered, unless the address has such a part already. -/
theorem Reads.enter? {a : Address} {parts : List Part} (h : Reads a parts) {t : Term} {p : Part} (ht : Denotes t p)
    (hbases : ((parts ++ [p]).filterMap Part.register?).length ≤ 1)
    (hoffsets : ((parts ++ [p]).filterMap Part.value?).length ≤ 1) :
    ∃ b, a.enter? t.text = some b ∧ Reads b (parts ++ [p]) := by
  have hproper := ht.isWord.proper
  cases ht with
  | @base sign word r hsign hregister =>
    have hnone : parts.filterMap Part.register? = [] := by simpa [Part.register?] using hbases
    have ha : a.base = none := by simpa [hnone] using h.base
    refine ⟨{ a with base := some word }, ?_, h.append_base ha hregister⟩
    simp [Address.enter?, Term.isInteger_text_of_register hproper hregister, ha, Term.dropLead?_text hproper hsign]
  | @offset sign radix digits v hnumeral hv hlow hhigh =>
    have hnone : parts.filterMap Part.value? = [] := by simpa [Part.value?] using hoffsets
    have ha : a.offset = none := by simpa [hnone] using h.offset
    have hvalue := Term.integerValue?_text hproper rfl hnumeral
    rw [← hv] at hvalue
    have hword : Literal.wordOfInt? v = some (UInt32.ofInt v) := Literal.wordOfInt?_eq_some_iff.mpr ⟨⟨hlow, hhigh⟩, rfl⟩
    have hinteger := Literal.integer_of_integerValue? hvalue hword
    refine ⟨{ a with offset := some (Term.text ⟨sign, radix.marker ++ digits⟩) }, ?_, h.append_offset ha hinteger⟩
    simp [Address.enter?, Literal.isInteger_eq_isSome, hvalue, ha]

/-- Conversely a term denotes a part, if it has been entered into an address that can be read. -/
theorem Readable.of_enter? {a b : Address} {t : Term} (ht : t.Proper) (h : a.enter? t.text = some b) (hb : b.Readable) :
    a.Readable ∧ ∃ p, Denotes t p ∧ ∀ parts, Reads a parts → Reads b (parts ++ [p]) := by
  rcases enter?_cases h with ⟨hint, ha, rfl⟩ | ⟨ha, rfl⟩
  · refine ⟨⟨hb.base, by simp [ha]⟩, ?_⟩
    obtain ⟨w, hw⟩ := hb.offset t.text rfl
    obtain ⟨radix, digits, hword, hnumeral⟩ := (Term.isInteger_text_iff ht).mp hint
    obtain ⟨v, hv, hrange⟩ := Literal.exists_of_integer hint hw
    rw [Term.integerValue?_text ht hword hnumeral, Option.some_inj] at hv
    obtain ⟨⟨hlow, hhigh⟩, rfl⟩ := Literal.wordOfInt?_eq_some_iff.mp hrange
    refine ⟨.offset v, ?_, fun parts hparts => hparts.append_offset ha hw⟩
    obtain ⟨sign, word⟩ := t
    obtain rfl : word = radix.marker ++ digits := hword
    exact .offset hnumeral hv.symm hlow hhigh
  · refine ⟨⟨by simp [ha], hb.offset⟩, ?_⟩
    obtain ⟨r, hr⟩ := hb.base _ rfl
    have hsign : t.sign ≠ .minus := by
      intro hminus
      have hdash := (Literal.of_register hr).2 '-' (by simp [Term.text, hminus, Sign.text, dropLead?])
      exact absurd hdash (by decide)
    rw [Term.dropLead?_text ht hsign] at hr ⊢
    exact ⟨.base r, .base hsign hr, fun parts hparts => hparts.append_base ha hr⟩

/-- Terms that denote parts are entered into an address with these parts. -/
theorem Reads.enterAll {a : Address} {before parts : List Part} {ts : List Term} (h : Reads a before)
    (hts : List.Forall₂ Denotes ts parts) (hbases : ((before ++ parts).filterMap Part.register?).length ≤ 1)
    (hoffsets : ((before ++ parts).filterMap Part.value?).length ≤ 1) :
    ∃ b, ts.foldlM (fun a t => a.enter? t.text) a = some b ∧ Reads b (before ++ parts) := by
  induction hts generalizing a before with
  | nil => exact ⟨a, rfl, by rwa [List.append_nil]⟩
  | @cons t p ts parts ht hts ih =>
    rw [List.append_cons] at hbases hoffsets ⊢
    have hfront := List.sublist_append_left (before ++ [p]) parts
    obtain ⟨b, hb, hreads⟩ := h.enter? ht ((hfront.filterMap _).length_le.trans hbases)
      ((hfront.filterMap _).length_le.trans hoffsets)
    obtain ⟨c, hc, hreads⟩ := ih hreads hbases hoffsets
    refine ⟨c, ?_, hreads⟩
    rw [List.foldlM_cons, hb]
    exact hc

/-- Conversely the terms of an address that can be read denote parts. -/
theorem Readable.of_enterAll {a b : Address} {ts : List Term} (hts : ∀ t ∈ ts, t.Proper)
    (h : ts.foldlM (fun a t => a.enter? t.text) a = some b) (hb : b.Readable) :
    a.Readable ∧ ∃ parts, List.Forall₂ Denotes ts parts ∧ ∀ before, Reads a before → Reads b (before ++ parts) := by
  induction ts generalizing a with
  | nil =>
    obtain rfl : a = b := Option.some.inj h
    exact ⟨hb, [], .nil, fun before hbefore => by rwa [List.append_nil]⟩
  | cons t ts ih =>
    rw [List.foldlM_cons] at h
    obtain ⟨c, hfirst, h⟩ := Option.bind_eq_some_iff.mp h
    obtain ⟨hc, parts, hparts, hreads⟩ := ih (fun u hu => hts u (List.mem_cons_of_mem t hu)) h
    obtain ⟨ha, p, hp, hread⟩ := hc.of_enter? (hts t List.mem_cons_self) hfirst
    refine ⟨ha, p :: parts, .cons hp hparts, fun before hbefore => ?_⟩
    rw [List.append_cons]
    exact hreads _ (hread before hbefore)

theorem Means.reads {s : Text} {parts : List Part} (h : Means s parts) : ∃ a, parse? s = some a ∧ Reads a parts := by
  obtain ⟨ts, hlayout, hts⟩ := h.terms
  have hwords : List.Forall₂ (fun t p => IsWord t.word ∧ Denotes t p) ts parts := hts.imp fun t p ht => ⟨ht.isWord, ht⟩
  rw [parse?_of_layout hlayout ((List.forall₂_and_left ts parts).mp hwords).1]
  exact reads_nil.enterAll hts h.bases h.offsets

theorem Reads.length_le {a : Address} {parts : List Part} (h : Reads a parts) :
    (parts.filterMap Part.register?).length ≤ 1 ∧ (parts.filterMap Part.value?).length ≤ 1 := by
  have hbase := congrArg List.length h.base
  have hoffset := congrArg List.length h.offset
  simp only [List.length_map] at hbase hoffset
  rw [← hbase, ← hoffset]
  exact ⟨Option.length_toList_le, Option.length_toList_le⟩

theorem Readable.means {s : Text} {a : Address} (ha : a.Readable) (h : parse? s = some a) :
    ∃ parts, Means s parts ∧ Reads a parts := by
  obtain ⟨ts, hlayout, hts, hfold⟩ := exists_layout h
  obtain ⟨-, parts, hparts, hreads⟩ := ha.of_enterAll hts hfold
  have hread := hreads [] reads_nil
  exact ⟨parts, ⟨⟨ts, hlayout, hparts⟩, hread.length_le.1, hread.length_le.2⟩, hread⟩

theorem Reads.base_cases {a : Address} {parts : List Part} (h : Reads a parts) :
    a.base = none ∧ parts.filterMap Part.register? = [] ∨
      ∃ name r, a.base = some name ∧ parts.filterMap Part.register? = [r] ∧ Literal.register name = .ok r := by
  have hbase := h.base
  cases hname : a.base with
  | none => exact .inl ⟨rfl, by simpa [hname] using hbase⟩
  | some name =>
    rw [hname] at hbase
    obtain ⟨r, hregister, hr⟩ := List.map_eq_singleton_iff.mp hbase.symm
    exact .inr ⟨name, r, rfl, hregister, hr.symm⟩

theorem Reads.offset_cases {a : Address} {parts : List Part} (h : Reads a parts) :
    a.offset = none ∧ parts.filterMap Part.value? = [] ∨
      ∃ literal v, a.offset = some literal ∧ parts.filterMap Part.value? = [v] ∧
        Literal.integer literal = .ok (UInt32.ofInt v) := by
  have hoffset := h.offset
  cases hliteral : a.offset with
  | none => exact .inl ⟨rfl, by simpa [hliteral] using hoffset⟩
  | some literal =>
    rw [hliteral] at hoffset
    obtain ⟨v, hvalue, hv⟩ := List.map_eq_singleton_iff.mp hoffset.symm
    exact .inr ⟨literal, v, rfl, hvalue, hv.symm⟩

theorem eq_map_offset {parts : List Part} (h : parts.filterMap Part.register? = []) :
    parts = (parts.filterMap Part.value?).map .offset := by
  induction parts with
  | nil => rfl
  | cons p parts ih =>
    cases p with
    | base r => cases h
    | offset v => exact congrArg (Part.offset v :: ·) (ih h)

/-- An offset alone is what an address without a base means, if its text can be read. -/
theorem means_offset_iff {s : Text} {w : Word} : (∃ v, Means s [.offset v] ∧ UInt32.ofInt v = w) ↔
    ∃ literal, parse? s = some ⟨none, some literal⟩ ∧ Literal.integer literal = .ok w := by
  constructor
  · rintro ⟨v, h, rfl⟩
    obtain ⟨⟨base, offset⟩, hparse, hreads⟩ := h.reads
    rcases hreads.base_cases with ⟨hbase, -⟩ | ⟨name, r, -, hregister, -⟩
    · rcases hreads.offset_cases with ⟨-, hvalue⟩ | ⟨literal, u, hoffset, hvalue, hliteral⟩
      · cases hvalue
      · cases hbase
        cases hoffset
        cases hvalue
        exact ⟨literal, hparse, hliteral⟩
    · cases hregister
  · rintro ⟨literal, hparse, hliteral⟩
    have hreadable : Readable ⟨none, some literal⟩ := ⟨by simp, by simp [hliteral]⟩
    obtain ⟨parts, hmeans, hreads⟩ := hreadable.means hparse
    rcases hreads.base_cases with ⟨-, hregister⟩ | ⟨name, r, hbase, -⟩
    · rcases hreads.offset_cases with ⟨hoffset, -⟩ | ⟨literal', v, hoffset, hvalue, hread⟩
      · cases hoffset
      · cases hoffset
        rw [eq_map_offset hregister, hvalue] at hmeans
        rw [hliteral] at hread
        exact ⟨v, hmeans, (Except.ok.inj hread).symm⟩
    · cases hbase

def register (parts : List Part) : Register := (parts.filterMap Part.register?).head?.getD .zero

/-- The offset among the parts as a word, that is modulo `2 ^ 32`. -/
def offset? (parts : List Part) : Option Word := (parts.filterMap Part.value?).head?.map UInt32.ofInt

theorem reverse_of_length_le_one {α : Type} {l : List α} (h : l.length ≤ 1) : l.reverse = l := by
  match l, h with
  | [], _ => rfl
  | [a], _ => rfl

theorem Means.register_reverse {s : Text} {parts : List Part} (h : Means s parts) :
    register parts.reverse = register parts := by
  rw [register, List.filterMap_reverse, reverse_of_length_le_one h.bases, register]

theorem Means.offset?_reverse {s : Text} {parts : List Part} (h : Means s parts) :
    offset? parts.reverse = offset? parts := by
  rw [offset?, List.filterMap_reverse, reverse_of_length_le_one h.offsets, offset?]

end Address

namespace Operand

open Address

theorem address_of_reads {s : Text} {a : Address} {parts : List Part} (h : parse? s = some a) (hreads : Reads a parts) :
    address s = ⟨some (Address.register parts, offset? parts), []⟩ := by
  obtain ⟨base, offset⟩ := a
  rw [address, h, Address.register, offset?]
  rcases hreads.base_cases with ⟨hbase, hregister⟩ | ⟨name, r, hbase, hregister, hname⟩ <;>
    rcases hreads.offset_cases with ⟨hoffset, hvalue⟩ | ⟨literal, v, hoffset, hvalue, hliteral⟩ <;>
    cases hbase <;> cases hoffset <;> simp only [Operand.register, *] <;> rfl

theorem accept_faults_eq_nil_iff {α : Type} {fallback : α} {e : Except LiteralError α} :
    (Reading.accept fallback e).faults = [] ↔ ∃ a, e = .ok a := by
  cases e <;> simp [Reading.accept]

theorem faults_address {s : Text} {a : Address} (h : parse? s = some a) :
    (address s).faults = (a.base.toList.flatMap fun name => (Operand.register name).faults) ++
      a.offset.toList.flatMap fun literal => (Reading.accept 0 (Literal.integer literal)).faults := by
  obtain ⟨base, offset⟩ := a
  rw [address, h]
  cases base <;> cases offset <;> simp [bind, pure]

theorem address_of_means {s : Text} {parts : List Part} (h : Means s parts) :
    address s = ⟨some (Address.register parts, offset? parts), []⟩ := by
  obtain ⟨a, ha, hreads⟩ := h.reads
  exact address_of_reads ha hreads

/-- No fault means that the address is well formed and that its texts can be read. -/
theorem faults_address_eq_nil_iff {s : Text} : (address s).faults = [] ↔ ∃ a, parse? s = some a ∧ a.Readable := by
  cases h : parse? s with
  | none => simp [address, h, Reading.report]
  | some a =>
    rw [faults_address h]
    simp only [Operand.register, List.append_eq_nil_iff, List.flatMap_eq_nil_iff, Option.mem_toList,
      accept_faults_eq_nil_iff, Option.some.injEq, exists_eq_left']
    exact ⟨fun h => ⟨h.1, h.2⟩, fun h => ⟨h.base, h.offset⟩⟩

/-- An address operand is read without a fault exactly if it means something. Then the reading is the meaning: the
register, zero when absent, and the offset modulo `2 ^ 32`, whichever of the two is written first. -/
theorem address_grammar (s : Text) :
    ((address s).faults = [] ↔ ∃ parts, Means s parts) ∧
      ∀ parts, Means s parts → address s = ⟨some (Address.register parts, offset? parts), []⟩ ∧
        ∀ t, Means t parts.reverse → address t = address s := by
  refine ⟨⟨fun h => ?_, ?_⟩, fun parts h => ⟨address_of_means h, fun t ht => ?_⟩⟩
  · obtain ⟨a, ha, hreadable⟩ := faults_address_eq_nil_iff.mp h
    obtain ⟨parts, hparts, -⟩ := hreadable.means ha
    exact ⟨parts, hparts⟩
  · rintro ⟨parts, h⟩
    rw [address_of_means h]
  · rw [address_of_means ht, address_of_means h, h.register_reverse, h.offset?_reverse]

theorem address_grammar_negative :
    Means "[ - 0x10 +sp]" [.offset (-16), .base 61] ∧ Means "[sp - 16 ]" [.base 61, .offset (-16)] ∧
      address "[ - 0x10 +sp]" = ⟨some (61, some 0xfffffff0), []⟩ ∧
      address "[sp - 16 ]" = address "[ - 0x10 +sp]" := by
  have hfirst : Means "[ - 0x10 +sp]" [.offset (-16), .base 61] := by
    refine ⟨⟨_, @Layout.pair " " " " " " "" "" ⟨.minus, "0x10"⟩ ⟨.plus, "sp"⟩ (by decide) (by decide) (by decide)
      (by decide) (by decide) (by decide), .cons ?_ (.cons ?_ .nil)⟩, by decide, by decide⟩
    · exact @Denotes.offset .minus .hexadecimal "10" (-16) (by decide) (by decide) (by decide) (by decide)
    · exact .base (by decide) (by decide +kernel)
  have hsecond : Means "[sp - 16 ]" [.base 61, .offset (-16)] := by
    refine ⟨⟨_, @Layout.pair "" "" " " " " " " ⟨.absent, "sp"⟩ ⟨.minus, "16"⟩ (by decide) (by decide) (by decide)
      (by decide) (by decide) (by decide), .cons ?_ (.cons ?_ .nil)⟩, by decide, by decide⟩
    · exact .base (by decide) (by decide +kernel)
    · exact @Denotes.offset .minus .decimal "16" (-16) (by decide) (by decide) (by decide) (by decide)
  obtain ⟨hread, hreverse⟩ := (address_grammar "[ - 0x10 +sp]").2 _ hfirst
  exact ⟨hfirst, hsecond, hread, hreverse "[sp - 16 ]" hsecond⟩

end Operand

end R64
