import Mathlib.Data.List.Basic
import R64.Source.Line
import R64.Source.Token
/-!
Cutting a text into lines and a line into tokens. A text is free of some characters if none of them stands outside its
quoted regions; cutting never ends inside such a text. Main statement: a name and its operands, written with a blank and
with commas between them, are the tokens of the line.
-/
namespace R64

namespace Line

variable {α : Type} [DecidableEq α] {lf cr : α}

/-- A line feed separates what stands before it from what follows. -/
theorem cut_append (acc s rest : List α) :
    cut lf cr acc (s ++ lf :: rest) = cut lf cr acc (s ++ [lf]) ++ cut lf cr [] rest := by
  induction s generalizing acc with
  | nil => simp [cut]
  | cons c s ih =>
    rw [List.cons_append, List.cons_append, cut, cut]
    split
    · rw [ih, List.cons_append]
    · exact ih (c :: acc)

theorem cut_of_not_mem {s : List α} (h : lf ∉ s) (acc : List α) :
    cut lf cr acc s = if s.reverse ++ acc = [] then [] else [(s.reverse ++ acc).reverse] := by
  induction s generalizing acc with
  | nil => rfl
  | cons c s ih =>
    obtain ⟨hc, hs⟩ := List.ne_and_not_mem_of_not_mem_cons h
    rw [cut, if_neg (Ne.symm hc), ih hs, List.reverse_cons, List.append_assoc]
    rfl

theorem cut_line {s : List α} (h : lf ∉ s) (acc : List α) :
    cut lf cr acc (s ++ [lf]) = [closed cr (s.reverse ++ acc)] := by
  induction s generalizing acc with
  | nil => simp [cut]
  | cons c s ih =>
    obtain ⟨hc, hs⟩ := List.ne_and_not_mem_of_not_mem_cons h
    rw [List.cons_append, cut, if_neg (Ne.symm hc), ih hs, List.reverse_cons, List.append_assoc]
    rfl

/-- A text without line feeds is one line. -/
theorem ofText_of_not_mem {s : Text} (hne : s ≠ []) (h : '\n' ∉ s) : ofText s = [s] := by
  rw [ofText, cut_of_not_mem h, List.append_nil, if_neg (by simpa using hne), List.reverse_reverse]

/-- A first line is cut off at its line feed, as long as it does not end in a carriage return. -/
theorem ofText_append_line {s : Text} {c : Char} (h : '\n' ∉ s ++ [c]) (hc : c ≠ '\r') (rest : Text) :
    ofText (s ++ [c] ++ '\n' :: rest) = (s ++ [c]) :: ofText rest := by
  rw [ofText, cut_append, cut_line h, List.reverse_append, ofText]
  simp [closed, hc]

end Line

def Quoting.run (q : Quoting) (s : Text) : Quoting := s.foldl Quoting.step q

namespace Text

variable {stop : Char → Bool} {q : Quoting} {s t : Text} {c : Char}

/-- No character of `s` outside quoted regions satisfies `stop`, for a reader that stands at `q` before it. -/
def Free (stop : Char → Bool) (q : Quoting) (s : Text) : Prop := (spanPlain stop q s).2 = []

instance : Decidable (Free stop q s) := inferInstanceAs (Decidable (_ = _))

@[simp] theorem free_nil : Free stop q [] := rfl

theorem free_cons : Free stop q (c :: s) ↔ ¬ (q = .plain ∧ stop c) ∧ Free stop (q.step c) s := by
  unfold Free
  rw [spanPlain]
  split
  · next h => simp [h]
  · next h => simp [h]

theorem free_append : Free stop q (s ++ t) ↔ Free stop q s ∧ Free stop (q.run s) t := by
  induction s generalizing q with
  | nil => simp [Quoting.run]
  | cons c s ih => rw [List.cons_append, free_cons, free_cons, ih, and_assoc, Quoting.run, Quoting.run, List.foldl_cons]

theorem spanPlain_append_of_free (h : Free stop q s) (rest : Text) :
    spanPlain stop q (s ++ rest) =
      (s ++ (spanPlain stop (q.run s) rest).1, (spanPlain stop (q.run s) rest).2) := by
  induction s generalizing q with
  | nil => rfl
  | cons c s ih =>
    obtain ⟨hc, hs⟩ := free_cons.mp h
    rw [List.cons_append, spanPlain, if_neg hc, ih hs]
    rfl

theorem spanPlain_of_free (h : Free stop q s) : spanPlain stop q s = (s, []) := by
  have happend := spanPlain_append_of_free h []
  rwa [List.append_nil, spanPlain, List.append_nil] at happend

/-- Cutting ends behind a closed text, at a character that ends it. -/
theorem spanPlain_append_stop (h : Free stop q s) (hs : q.run s = .plain) (hc : stop c) (rest : Text) :
    spanPlain stop q (s ++ c :: rest) = (s, c :: rest) := by
  rw [spanPlain_append_of_free h, hs, spanPlain, if_pos ⟨rfl, hc⟩, List.append_nil]

/-- `c` stands in `s` outside quoted regions. -/
def Exposed (c : Char) (s : Text) : Prop :=
  ∃ before after, s = before ++ c :: after ∧ Quoting.plain.run before = .plain

theorem Exposed.mem (h : Exposed c s) : c ∈ s := by
  obtain ⟨before, after, rfl, -⟩ := h
  exact List.mem_append_right before List.mem_cons_self

theorem free_iff :
    Free stop q s ↔ ∀ before c after, s = before ++ c :: after → q.run before = .plain → stop c = false := by
  induction s generalizing q with
  | nil => simp
  | cons d s ih =>
    rw [free_cons, ih]
    constructor
    · rintro ⟨hd, hs⟩ before c after heq hplain
      cases before with
      | nil =>
        cases heq
        exact Bool.eq_false_iff.mpr fun hstop => hd ⟨hplain, hstop⟩
      | cons e before =>
        cases heq
        exact hs before c after rfl hplain
    · intro h
      refine ⟨?_, ?_⟩
      · rintro ⟨hplain, hstop⟩
        rw [h [] d s rfl hplain] at hstop
        cases hstop
      · intro before c after heq hplain
        exact h (d :: before) c after (by rw [heq, List.cons_append]) hplain

theorem free_iff_exposed : Free stop .plain s ↔ ∀ c, Exposed c s → stop c = false := by
  rw [free_iff]
  constructor
  · rintro h c ⟨before, after, heq, hplain⟩
    exact h before c after heq hplain
  · intro h before c after heq hplain
    exact h c ⟨before, after, heq, hplain⟩

def isQuote (c : Char) : Bool := c == '"' || c == '\''

theorem eq_of_isQuote (h : isQuote c) : c = '"' ∨ c = '\'' := by
  simpa [isQuote] using h

theorem step_of_isQuote (h : isQuote c) : Quoting.plain.step c = .within c := by
  rw [Quoting.step, if_pos (eq_of_isQuote h)]

theorem step_of_not_isQuote (h : isQuote c = false) : Quoting.plain.step c = .plain := by
  simp only [isQuote, Bool.or_eq_false_iff, beq_eq_false_iff_ne, ne_eq] at h
  simp [Quoting.step, h]

theorem run_of_unquoted (h : ∀ c ∈ s, isQuote c = false) : Quoting.plain.run s = .plain := by
  induction s with
  | nil => rfl
  | cons c s ih =>
    rw [Quoting.run, List.foldl_cons, step_of_not_isQuote (h c List.mem_cons_self)]
    exact ih fun d hd => h d (List.mem_cons_of_mem c hd)

theorem between?_cons_concat (l r : Char) (s : Text) : between? l r (l :: (s ++ [r])) = some s := by
  simp [between?, dropLead?, dropTrail?]

theorem between?_eq_some_iff {l r : Char} : between? l r s = some t ↔ s = l :: (t ++ [r]) := by
  constructor
  · intro h
    obtain ⟨rest, hlead, htrail⟩ := Option.bind_eq_some_iff.mp h
    cases s with
    | nil => cases hlead
    | cons c s =>
      rw [dropLead?] at hlead
      split at hlead
      · next hc =>
        cases hlead
        rw [dropTrail?] at htrail
        split at htrail
        · next hlast =>
          obtain ⟨start, rfl⟩ := List.getLast?_eq_some_iff.mp hlast
          rw [List.dropLast_concat] at htrail
          rw [hc, Option.some.inj htrail]
        · cases htrail
      · cases hlead
  · rintro rfl
    exact between?_cons_concat l r t

theorem split_of_not_mem (h : c ∉ s) : split c s = [s] := by
  induction s with
  | nil => rfl
  | cons d s ih =>
    obtain ⟨hd, hs⟩ := List.ne_and_not_mem_of_not_mem_cons h
    rw [split, if_neg (Ne.symm hd), ih hs]

theorem split_append_of_not_mem (h : c ∉ s) (rest : Text) : split c (s ++ c :: rest) = s :: split c rest := by
  induction s with
  | nil => rw [List.nil_append, split, if_pos rfl]
  | cons d s ih =>
    obtain ⟨hd, hs⟩ := List.ne_and_not_mem_of_not_mem_cons h
    rw [List.cons_append, split, if_neg (Ne.symm hd), ih hs]

structure Tight (s : Text) : Prop where
  head : ∀ c ∈ s.head?, isBlank c = false
  last : ∀ c ∈ s.getLast?, isBlank c = false

theorem tight_iff : Tight s ↔ s.head?.all (fun c => !isBlank c) ∧ s.getLast?.all (fun c => !isBlank c) := by
  simp only [Option.all_eq_true, Bool.not_eq_true', ← Option.mem_def]
  exact ⟨fun h => ⟨h.head, h.last⟩, fun h => ⟨h.1, h.2⟩⟩

instance : Decidable (Tight s) := decidable_of_iff' _ tight_iff

theorem trimStart_of_head (h : ∀ c ∈ s.head?, isBlank c = false) : trimStart s = s := by
  cases s with
  | nil => rfl
  | cons c s => simp [trimStart, h c rfl]

theorem trimEnd_of_last (h : ∀ c ∈ s.getLast?, isBlank c = false) : trimEnd s = s := by
  have hreverse : trimStart s.reverse = s.reverse := trimStart_of_head (by rwa [List.head?_reverse])
  exact (congrArg List.reverse hreverse).trans s.reverse_reverse

theorem prefix_trimEnd (s : Text) : trimEnd s <+: s := by
  have hsuffix : s.reverse.dropWhile isBlank <:+ s.reverse := List.dropWhile_suffix _
  rwa [← List.reverse_prefix, List.reverse_reverse] at hsuffix

theorem trimStart_append_of_blank (h : ∀ c ∈ s, isBlank c) (t : Text) : trimStart (s ++ t) = trimStart t := by
  rw [trimStart, List.dropWhile_append_of_pos h, trimStart]

theorem trimEnd_append_of_blank (s : Text) (h : ∀ c ∈ t, isBlank c) : trimEnd (s ++ t) = trimEnd s := by
  rw [trimEnd, List.reverse_append, List.dropWhile_append_of_pos (by simpa using h), trimEnd]

/-- Trimming takes off blanks only. -/
theorem exists_trimStart (s : Text) : ∃ gap, (∀ c ∈ gap, isBlank c) ∧ s = gap ++ trimStart s :=
  ⟨s.takeWhile isBlank, List.all_eq_true.mp List.all_takeWhile, List.takeWhile_append_dropWhile.symm⟩

theorem exists_trimEnd (s : Text) : ∃ gap, (∀ c ∈ gap, isBlank c) ∧ s = trimEnd s ++ gap := by
  refine ⟨(s.reverse.takeWhile isBlank).reverse, ?_, ?_⟩
  · intro c hc
    exact List.all_eq_true.mp List.all_takeWhile c (List.mem_reverse.mp hc)
  · rw [trimEnd, ← List.reverse_append, List.takeWhile_append_dropWhile, List.reverse_reverse]

theorem trimEnd_cons (c : Char) (s : Text) :
    trimEnd (c :: s) = if trimEnd s = [] ∧ isBlank c then [] else c :: trimEnd s := by
  rw [trimEnd, List.reverse_cons, List.dropWhile_append]
  cases hs : s.reverse.dropWhile isBlank <;> cases hc : isBlank c <;> simp [trimEnd, hs, hc]

theorem trimEnd_append (h : trimEnd t ≠ []) (s : Text) : trimEnd (s ++ t) = s ++ trimEnd t := by
  induction s with
  | nil => rfl
  | cons c s ih =>
    rw [List.cons_append, trimEnd_cons, ih, if_neg, List.cons_append]
    simp [h]

theorem trimEnd_append_cons (hc : isBlank c = false) (s t : Text) : trimEnd (s ++ c :: t) = s ++ c :: trimEnd t := by
  have htrim : trimEnd (c :: t) = c :: trimEnd t := by
    rw [trimEnd_cons, if_neg]
    simp [hc]
  rw [trimEnd_append, htrim]
  rw [htrim]
  exact List.cons_ne_nil c (trimEnd t)

theorem trimStart_trimEnd (s : Text) : trimStart (trimEnd s) = trimEnd (trimStart s) := by
  induction s with
  | nil => rfl
  | cons c s ih =>
    cases hc : isBlank c with
    | true =>
      have hstart (t : Text) : trimStart (c :: t) = trimStart t := by rw [trimStart, List.dropWhile_cons_of_pos hc]; rfl
      rw [hstart, ← ih, trimEnd_cons]
      split
      · next hnil => rw [hnil.1]
      · exact hstart (trimEnd s)
    | false =>
      have hstart (t : Text) : trimStart (c :: t) = c :: t := trimStart_of_head (by simp [hc])
      have hend : trimEnd (c :: s) = c :: trimEnd s := trimEnd_append_cons hc [] s
      rw [hstart, hend, hstart]

theorem trimStart_blank (h : ∀ c ∈ s.head?, isBlank c = false) : trimStart (' ' :: s) = s := by
  have hs := trimStart_of_head h
  simp only [trimStart, List.dropWhile_cons] at hs ⊢
  exact hs

theorem isAlphanum_iff {c : Char} : c.isAlphanum ↔
    48 ≤ c.toNat ∧ c.toNat ≤ 57 ∨ 65 ≤ c.toNat ∧ c.toNat ≤ 90 ∨ 97 ≤ c.toNat ∧ c.toNat ≤ 122 := by
  change (decide (65 ≤ c.val ∧ c.val ≤ 90) || decide (97 ≤ c.val) && decide (c.val ≤ 122) ||
    decide (48 ≤ c.val) && decide (c.val ≤ 57)) = true ↔ _
  simp only [Bool.or_eq_true, Bool.and_eq_true, decide_eq_true_eq, UInt32.le_iff_toNat_le]
  change (65 ≤ c.toNat ∧ c.toNat ≤ 90 ∨ 97 ≤ c.toNat ∧ c.toNat ≤ 122) ∨ 48 ≤ c.toNat ∧ c.toNat ≤ 57 ↔ _
  omega

/-- Only capital letters have another lower case. -/
theorem toLower_cases (c : Char) : c.toLower = c ∨ 65 ≤ c.toNat ∧ c.toNat ≤ 90 := by
  by_cases h : 65 ≤ c.val ∧ c.val ≤ 90
  · exact .inr h
  · exact .inl (dif_neg h)

theorem isBlank_of_isAlphanum {c : Char} (h : c.isAlphanum) : isBlank c = false := by
  rw [isAlphanum_iff] at h
  simp only [isBlank, blankRanges, List.any_cons, List.any_nil, Bool.or_false, Bool.or_eq_false_iff,
    decide_eq_false_iff_not]
  omega

end Text

namespace Token

open Text

theorem items_of_free {s : Text} (h : Free (· == ',') .plain s) : items s = [trimEnd s] := by
  have hspan := spanPlain_of_free h
  rw [items]
  split
  · rw [hspan]
  · next hrest =>
    rw [hspan] at hrest
    cases hrest

theorem items_of_comma {s : Text} (h : Free (· == ',') .plain s) (hs : Quoting.plain.run s = .plain) (rest : Text) :
    items (s ++ ',' :: rest) = trimEnd s :: items (trimStart rest) := by
  have hspan := spanPlain_append_stop (c := ',') h hs rfl rest
  rw [items]
  split
  · next hrest =>
    rw [hspan] at hrest
    cases hrest
  · next hrest =>
    dsimp only
    rw [hspan] at hrest ⊢
    cases hrest
    rfl

/-- A text that can stand between commas. -/
structure IsOperand (s : Text) : Prop where
  tight : Tight s
  exposed : ∀ c, Exposed c s → c ≠ ',' ∧ c ≠ ';'

theorem isOperand_iff {s : Text} :
    IsOperand s ↔ Tight s ∧ Free (· == ',') .plain s ∧ Free (· == ';') .plain s := by
  simp only [free_iff_exposed, beq_eq_false_iff_ne, ← forall_and]
  exact ⟨fun h => ⟨h.tight, h.exposed⟩, fun h => ⟨h.1, h.2⟩⟩

/-- A text that ends neither at a blank or a colon nor at a comment. -/
def Unbroken (s : Text) : Prop := ∀ c, Exposed c s → isBlank c = false ∧ c ≠ ':' ∧ c ≠ ';'

theorem unbroken_iff {s : Text} : Unbroken s ↔ Free endsHead .plain s ∧ Free (· == ';') .plain s := by
  simp only [Unbroken, free_iff_exposed, endsHead, Bool.or_eq_false_iff, beq_eq_false_iff_ne, ← forall_and,
    and_assoc]

/-- A name and operands that can be written on a line. A quoted region may stay open in the last of them. -/
structure IsStatement (name : Text) (os : List Text) : Prop where
  nonempty : name ≠ []
  tight : Tight name
  unbroken : Unbroken name
  operands : ∀ o ∈ os, IsOperand o
  closed : ∀ t ∈ (name :: os).dropLast, Quoting.plain.run t = .plain
  single : os ≠ [[]]
  colon : ∀ o ∈ os.head?, o.head? ≠ some ':'

theorem intercalate_cons_cons (o o' : Text) (os : List Text) :
    List.intercalate ", " (o :: o' :: os) = o ++ ',' :: ' ' :: List.intercalate ", " (o' :: os) := by
  simp [List.intercalate_cons_cons]

theorem head?_intercalate {o : Text} {os : List Text} {c : Char}
    (h : c ∈ (List.intercalate ", " (o :: os)).head?) : c ∈ o.head? ∨ c = ',' := by
  cases os with
  | nil =>
    rw [List.intercalate_singleton] at h
    exact .inl h
  | cons o' os =>
    rw [intercalate_cons_cons] at h
    cases o with
    | nil => exact .inr (Option.some.inj h).symm
    | cons d o => exact .inl h

theorem head?_intercalate_ne_blank {o : Text} (ho : IsOperand o) (os : List Text) :
    ∀ c ∈ (List.intercalate ", " (o :: os)).head?, isBlank c = false := by
  intro c hc
  rcases head?_intercalate hc with hc | rfl
  · exact ho.tight.head c hc
  · decide

variable {o : Text} {os : List Text}

theorem items_intercalate (h : ∀ x ∈ o :: os, IsOperand x)
    (hclosed : ∀ x ∈ (o :: os).dropLast, Quoting.plain.run x = .plain) :
    items (trimEnd (List.intercalate ", " (o :: os))) = o :: os := by
  induction os generalizing o with
  | nil =>
    have ho := h o List.mem_cons_self
    rw [List.intercalate_singleton, trimEnd_of_last ho.tight.last, items_of_free (isOperand_iff.mp ho).2.1,
      trimEnd_of_last ho.tight.last]
  | cons o' os ih =>
    have ho := h o List.mem_cons_self
    have ho' := h o' (List.mem_cons_of_mem o List.mem_cons_self)
    rw [intercalate_cons_cons, trimEnd_append_cons (by decide),
      items_of_comma (isOperand_iff.mp ho).2.1 (hclosed o List.mem_cons_self), trimStart_trimEnd,
      trimStart_blank (head?_intercalate_ne_blank ho' os), trimEnd_of_last ho.tight.last,
      ih (fun x hx => h x (List.mem_cons_of_mem o hx)) fun x hx => hclosed x (List.mem_cons_of_mem o hx)]

theorem comment_intercalate (h : ∀ x ∈ o :: os, IsOperand x)
    (hclosed : ∀ x ∈ (o :: os).dropLast, Quoting.plain.run x = .plain) :
    Free (· == ';') .plain (List.intercalate ", " (o :: os)) := by
  induction os generalizing o with
  | nil =>
    rw [List.intercalate_singleton]
    exact (isOperand_iff.mp (h o List.mem_cons_self)).2.2
  | cons o' os ih =>
    rw [List.intercalate_cons_cons, List.append_assoc, free_append, hclosed o List.mem_cons_self, free_append]
    refine ⟨(isOperand_iff.mp (h o List.mem_cons_self)).2.2, by decide, ?_⟩
    exact ih (fun x hx => h x (List.mem_cons_of_mem o hx)) fun x hx => hclosed x (List.mem_cons_of_mem o hx)

def written (name : Text) : List Text → Text
  | [] => name
  | o :: os => name ++ " " ++ List.intercalate ", " (o :: os)

variable {name : Text}

theorem written_cons (name o : Text) (os : List Text) :
    written name (o :: os) = name ++ ' ' :: List.intercalate ", " (o :: os) := by
  rw [written, List.append_assoc]
  rfl

theorem statement_of_name (hne : name ≠ []) (hfree : Free endsHead .plain name) : statement name = [name] := by
  have hspan := spanPlain_of_free hfree
  rw [statement, if_neg hne]
  split
  · rw [hspan]
  · next hrest =>
    rw [hspan] at hrest
    cases hrest

/-- Behind a name and a blank the operands begin, unless a colon makes the name a label. -/
theorem statement_of_operands {rest : Text} {c : Char} (hfree : Free endsHead .plain name)
    (hclosed : Quoting.plain.run name = .plain) (hblank : isBlank c = false) (hcolon : c ≠ ':') :
    statement (name ++ ' ' :: c :: rest) = name :: operands (c :: rest) := by
  have hspan := spanPlain_append_stop (c := ' ') hfree hclosed (by decide) (c :: rest)
  have htrim : trimStart (' ' :: c :: rest) = c :: rest := trimStart_blank (by simp [hblank])
  have hne : name ++ ' ' :: c :: rest ≠ [] := by simp
  rw [statement, if_neg hne]
  split
  · next hrest =>
    rw [hspan, htrim] at hrest
    cases hrest
  · next hrest =>
    dsimp only
    rw [hspan] at hrest ⊢
    rw [htrim] at hrest
    cases hrest
    rw [if_neg hcolon]

theorem stripComment_of_free {s : Text} (h : Free (· == ';') .plain s) : stripComment s = s := by
  rw [stripComment, spanPlain_of_free h]

namespace IsStatement

theorem head_written (h : IsStatement name os) : ∀ c ∈ (written name os).head?, isBlank c = false := by
  cases os with
  | nil => exact h.tight.head
  | cons o os =>
    rw [written_cons, List.head?_append_of_ne_nil _ h.nonempty]
    exact h.tight.head

theorem comment_written (h : IsStatement name os) : Free (· == ';') .plain (written name os) := by
  have hname := (unbroken_iff.mp h.unbroken).2
  cases os with
  | nil => exact hname
  | cons o os =>
    rw [written, List.append_assoc, free_append, h.closed name List.mem_cons_self, free_append]
    exact ⟨hname, by decide, comment_intercalate h.operands fun x hx => h.closed x (List.mem_cons_of_mem name hx)⟩

theorem statement_written (h : IsStatement name os) : statement (trimEnd (written name os)) = name :: os := by
  have hfree := (unbroken_iff.mp h.unbroken).1
  cases os with
  | nil =>
    rw [written, trimEnd_of_last h.tight.last]
    exact statement_of_name h.nonempty hfree
  | cons o os =>
    have hitems := items_intercalate h.operands fun x hx => h.closed x (List.mem_cons_of_mem name hx)
    have hne : trimEnd (List.intercalate ", " (o :: os)) ≠ [] := by
      intro hnil
      rw [hnil, items_of_free free_nil] at hitems
      exact h.single hitems.symm
    rw [written, trimEnd_append hne]
    obtain ⟨c, rest, hrest⟩ := List.exists_cons_of_ne_nil hne
    have hhead : c ∈ (List.intercalate ", " (o :: os)).head? := by
      obtain ⟨blanks, hblanks⟩ := prefix_trimEnd (List.intercalate ", " (o :: os))
      rw [← hblanks, hrest]
      rfl
    have hcolon : c ≠ ':' := by
      rcases head?_intercalate hhead with hc | rfl
      · rintro rfl
        exact h.colon o rfl hc
      · decide
    rw [List.append_assoc, hrest]
    refine (statement_of_operands hfree (h.closed name List.mem_cons_self)
      (head?_intercalate_ne_blank (h.operands o List.mem_cons_self) os c hhead) hcolon).trans ?_
    rw [Token.operands, if_neg (List.cons_ne_nil c rest), ← hrest, hitems]

end IsStatement

/-- A name and its operands are the tokens of the line that is written from them. -/
theorem tokenize_written (h : IsStatement name os) : tokenize (written name os) = name :: os := by
  rw [tokenize, stripComment_of_free h.comment_written, trim, trimStart_of_head h.head_written, h.statement_written]

def separators : List Char := ['"', '\'', ',', ';', ':']

def isInert (c : Char) : Bool := !separators.contains c

theorem of_isInert {c : Char} (h : isInert c) :
    isQuote c = false ∧ (c == ',') = false ∧ (c == ';') = false ∧ (c == ':') = false := by
  simp only [isInert, separators, List.contains_cons, List.contains_nil, Bool.not_eq_true', Bool.or_eq_false_iff] at h
  obtain ⟨hdouble, hsingle, hcomma, hsemicolon, hcolon, -⟩ := h
  exact ⟨by rw [isQuote, hdouble, hsingle, Bool.or_self], hcomma, hsemicolon, hcolon⟩

/-- A class of characters is inert if no separator is in it. -/
theorem isInert_of_class {p : Char → Bool} (hp : separators.all fun c => !p c) {c : Char} (h : p c) : isInert c := by
  rw [isInert, Bool.not_eq_true', List.contains_eq_mem, decide_eq_false_iff_not]
  intro hc
  have hnot := List.all_eq_true.mp hp c hc
  rw [h] at hnot
  cases hnot

/-- A text that is cut nowhere but at blanks. -/
structure Inert (s : Text) : Prop where
  nonempty : s ≠ []
  tight : Tight s
  inert : ∀ c ∈ s, isInert c

variable {s : Text}

theorem Inert.closed (h : Inert s) : Quoting.plain.run s = .plain :=
  run_of_unquoted fun c hc => (of_isInert (h.inert c hc)).1

theorem Inert.isOperand (h : Inert s) : IsOperand s where
  tight := h.tight
  exposed c hc := by
    obtain ⟨-, hcomma, hsemicolon, -⟩ := of_isInert (h.inert c hc.mem)
    exact ⟨ne_of_beq_false hcomma, ne_of_beq_false hsemicolon⟩

theorem Inert.head?_ne_colon (h : Inert s) : s.head? ≠ some ':' := by
  intro hhead
  have hcolon := h.inert ':' (List.mem_of_head? hhead)
  exact absurd hcolon (by decide)

/-- Inert operands behind an inert name without blanks are cut out as they stand. -/
theorem tokenize_written_of_inert {name : Text} {os : List Text} (hname : Inert name)
    (hblank : name.all fun c => !isBlank c) (hos : ∀ o ∈ os, Inert o) : tokenize (written name os) = name :: os := by
  apply tokenize_written
  refine ⟨hname.nonempty, hname.tight, ?_, fun o ho => (hos o ho).isOperand, ?_, ?_, ?_⟩
  · intro c hc
    obtain ⟨-, -, hsemicolon, hcolon⟩ := of_isInert (hname.inert c hc.mem)
    exact ⟨by simpa using List.all_eq_true.mp hblank c hc.mem, ne_of_beq_false hcolon, ne_of_beq_false hsemicolon⟩
  · intro t ht
    rcases List.mem_cons.mp (List.dropLast_subset _ ht) with rfl | ht
    · exact hname.closed
    · exact (hos t ht).closed
  · rintro rfl
    exact (hos [] List.mem_cons_self).nonempty rfl
  · intro o ho
    exact (hos o (List.mem_of_head? ho)).head?_ne_colon

theorem inert_of_all (hne : s ≠ []) (h : s.all fun c => isInert c && !isBlank c) : Inert s := by
  have hall : ∀ c ∈ s, isInert c ∧ isBlank c = false := by simpa using h
  exact ⟨hne, ⟨fun c hc => (hall c (List.mem_of_head? hc)).2, fun c hc => (hall c (List.mem_of_getLast? hc)).2⟩,
    fun c hc => (hall c hc).1⟩

theorem isInert_of_isAlphanum {c : Char} (h : c.isAlphanum) : isInert c := isInert_of_class (by decide) h

theorem isInert_of_isBlank {c : Char} (h : isBlank c) : isInert c := isInert_of_class (by decide) h

end Token

end R64
