import Mathlib.Data.List.Infix
import Mathlib.Data.List.TakeWhile
import R64.Proofs.Lexing
import R64.Statement
/-!
Where the tokens of a line stand in it. A token has no characters but those of the line and the colon of a label. Main
statement: the labels of a line are the tokens of a beginning of the line, so that a line can be cut off behind them.
-/
namespace R64

open Text (isBlank trimStart trimEnd trim spanPlain isQuote Free Tight)

namespace Quoting

theorem run_append (q : Quoting) (s t : Text) : q.run (s ++ t) = (q.run s).run t := List.foldl_append

/-- The character that closes the region in which a reader stands. -/
def quote? : Quoting → Option Char
  | .plain => none
  | .within q | .escaped q => some q

theorem isQuote_step {q : Quoting} (h : ∀ d ∈ q.quote?, isQuote d) (c : Char) : ∀ d ∈ (q.step c).quote?, isQuote d := by
  cases q with
  | plain =>
    rw [step]
    split
    · next hc => simpa [quote?, isQuote] using hc
    · simp [quote?]
  | within q =>
    rw [step]
    split
    · simp [quote?]
    · split <;> exact h
  | escaped q => exact h

/-- Only quotes open regions. -/
theorem isQuote_run {q : Quoting} (h : ∀ d ∈ q.quote?, isQuote d) (s : Text) : ∀ d ∈ (q.run s).quote?, isQuote d := by
  induction s generalizing q with
  | nil => exact h
  | cons c s ih => exact ih (isQuote_step h c)

theorem step_ne_plain {q : Quoting} {c : Char} (hq : q ≠ .plain) (h : ∀ d ∈ q.quote?, isQuote d)
    (hc : isQuote c = false) : q.step c ≠ .plain := by
  cases q with
  | plain => exact absurd rfl hq
  | within q =>
    have hne : c ≠ q := by
      rintro rfl
      rw [h c rfl] at hc
      cases hc
    rw [step, if_neg hne]
    split <;> simp
  | escaped q => simp [step]

/-- A region that is closed behind a character other than a quote is closed before it. -/
theorem run_of_run_concat {s : Text} {c : Char} (hc : isQuote c = false) (h : plain.run (s ++ [c]) = .plain) :
    plain.run s = .plain := by
  apply Classical.byContradiction
  intro hopen
  rw [run_append] at h
  exact step_ne_plain hopen (isQuote_run (fun d hd => by cases hd) s) hc h

end Quoting

namespace Text

variable {stop : Char → Bool} {q : Quoting} {s t : Text}

theorem free_of_isPrefix (h : s <+: t) (ht : Free stop q t) : Free stop q s := by
  obtain ⟨rest, rfl⟩ := h
  exact (free_append.mp ht).1

theorem free_spanPlain (stop : Char → Bool) (q : Quoting) (s : Text) : Free stop q (spanPlain stop q s).1 := by
  induction s generalizing q with
  | nil => exact free_nil
  | cons c s ih =>
    rw [spanPlain]
    split
    · exact free_nil
    · next h => exact free_cons.mpr ⟨h, ih _⟩

/-- Where cutting ends before the end of the text, it ends outside quoted regions. -/
theorem run_spanPlain_of_ne_nil (h : (spanPlain stop q s).2 ≠ []) : q.run (spanPlain stop q s).1 = .plain := by
  induction s generalizing q with
  | nil => exact absurd rfl h
  | cons c s ih =>
    rw [spanPlain] at h ⊢
    split
    · next hstop => exact hstop.1
    · next hstop =>
      rw [if_neg hstop] at h
      exact ih h

theorem stop_of_spanPlain {c : Char} {rest : Text} (h : (spanPlain stop q s).2 = c :: rest) : stop c := by
  induction s generalizing q with
  | nil => cases h
  | cons d s ih =>
    rw [spanPlain] at h
    split at h
    · next hstop =>
      cases h
      exact hstop.2
    · exact ih h

theorem prefix_spanPlain (stop : Char → Bool) (q : Quoting) (s : Text) : (spanPlain stop q s).1 <+: s :=
  ⟨_, spanPlain_append stop q s⟩

theorem suffix_spanPlain (stop : Char → Bool) (q : Quoting) (s : Text) : (spanPlain stop q s).2 <:+ s :=
  ⟨_, spanPlain_append stop q s⟩

theorem suffix_trimStart (s : Text) : trimStart s <:+ s := List.dropWhile_suffix _

theorem head?_trimStart (s : Text) : ∀ c ∈ (trimStart s).head?, isBlank c = false := by
  intro c hc
  have hnot := List.head?_dropWhile_not isBlank s
  rw [show s.dropWhile isBlank = trimStart s from rfl, Option.mem_def.mp hc] at hnot
  exact hnot

theorem head?_of_isPrefix (h : s <+: t) : ∀ c ∈ s.head?, c ∈ t.head? := by
  intro c hc
  obtain ⟨rest, rfl⟩ := h
  rw [List.head?_append, Option.mem_def.mp hc]
  rfl

theorem getLast?_trimEnd (s : Text) : ∀ c ∈ (trimEnd s).getLast?, isBlank c = false := by
  intro c hc
  rw [trimEnd, List.getLast?_reverse] at hc
  exact head?_trimStart s.reverse c hc

theorem tight_trim (s : Text) : Tight (trim s) where
  head c hc := head?_trimStart s c (head?_of_isPrefix (prefix_trimEnd _) c hc)
  last := getLast?_trimEnd (trimStart s)

theorem getLast?_of_isSuffix (h : t <:+ s) : ∀ c ∈ t.getLast?, c ∈ s.getLast? := by
  intro c hc
  obtain ⟨start, rfl⟩ := h
  rw [List.getLast?_append, Option.mem_def.mp hc]
  rfl

end Text

namespace Token

theorem statement_nil : statement [] = [] := by rw [statement, if_pos rfl]

theorem tokenize_nil : tokenize [] = [] := statement_nil

/-- What the tokens of a text can be: a head alone, a label before further tokens, or a head with its operands. -/
theorem statement_cases {rest : Text} (hne : rest ≠ []) :
    let head := (spanPlain endsHead .plain rest).1
    let behind := (spanPlain endsHead .plain rest).2
    (trimStart behind = [] ∧ statement rest = [head]) ∨
    (∃ tail, trimStart behind = ':' :: tail ∧ statement rest = (head ++ ":") :: statement (trimStart tail)) ∨
    ∃ c tail, c ≠ ':' ∧ trimStart behind = c :: tail ∧ statement rest = head :: operands (c :: tail) := by
  intro head behind
  rw [statement, if_neg hne]
  split
  · next hrest => exact .inl ⟨hrest, rfl⟩
  · next c tail hrest =>
    by_cases hc : c = ':'
    · subst hc
      exact .inr (.inl ⟨tail, hrest, if_pos rfl⟩)
    · exact .inr (.inr ⟨c, tail, hc, hrest, if_neg hc⟩)

/-- Something holds of the operands of a text if it holds of one alone, and of one before a comma as soon as it holds of
those behind the comma. -/
theorem items_induction {motive : Text → List Text → Prop}
    (single : ∀ s, Free (· == ',') .plain s → motive s [trimEnd s])
    (comma : ∀ piece rest, Free (· == ',') .plain piece → Quoting.plain.run piece = .plain →
      motive (trimStart rest) (items (trimStart rest)) →
      motive (piece ++ ',' :: rest) (trimEnd piece :: items (trimStart rest))) (s : Text) : motive s (items s) := by
  induction hn : s.length using Nat.strong_induction_on generalizing s with
  | _ n ih =>
    cases hbehind : (spanPlain (· == ',') .plain s).2 with
    | nil =>
      rw [items_of_free hbehind]
      exact single s hbehind
    | cons c rest =>
      have hfree := Text.free_spanPlain (· == ',') .plain s
      have hclosed := Text.run_spanPlain_of_ne_nil (hbehind ▸ List.cons_ne_nil c rest)
      have hs := Text.spanPlain_append (· == ',') .plain s
      have hc := Text.stop_of_spanPlain hbehind
      obtain rfl := beq_iff_eq.mp hc
      rw [hbehind] at hs
      have hrest := comma _ rest hfree hclosed (ih _ (hn ▸ length_after_separator hbehind) (trimStart rest) rfl)
      rwa [← items_of_comma hfree hclosed, hs] at hrest

theorem subset_of_mem_items (rest : Text) : ∀ token ∈ items rest, token ⊆ rest := by
  refine items_induction (motive := fun rest os => ∀ token ∈ os, token ⊆ rest) ?_ ?_ rest
  · intro s _ token htoken
    rw [List.mem_singleton.mp htoken]
    exact (Text.prefix_trimEnd s).subset
  · intro piece rest _ _ ih token htoken
    rcases List.mem_cons.mp htoken with rfl | htoken
    · exact ((Text.prefix_trimEnd piece).trans (List.prefix_append ..)).subset
    · have hsuffix : trimStart rest <:+ piece ++ ',' :: rest :=
        (Text.suffix_trimStart rest).trans ((List.suffix_cons ',' rest).trans (List.suffix_append ..))
      exact List.Subset.trans (ih token htoken) hsuffix.subset

/-- A token has no characters but those of the text, and a colon. -/
theorem subset_of_mem_statement {rest token : Text} (h : token ∈ statement rest) : token ⊆ ':' :: rest := by
  induction hn : rest.length using Nat.strong_induction_on generalizing rest with
  | _ n ih =>
    by_cases hne : rest = []
    · rw [hne, statement_nil] at h
      cases h
    have hhead : (spanPlain endsHead .plain rest).1 ⊆ ':' :: rest :=
      List.Subset.trans (Text.prefix_spanPlain ..).subset (List.subset_cons_self _ _)
    have hbehind : trimStart (spanPlain endsHead .plain rest).2 <:+ rest :=
      (Text.suffix_trimStart _).trans (Text.suffix_spanPlain ..)
    rcases statement_cases hne with ⟨-, heq⟩ | ⟨tail, htail, heq⟩ | ⟨c, tail, -, htail, heq⟩
    · rw [heq] at h
      rwa [List.mem_singleton.mp h]
    · rw [heq] at h
      rcases List.mem_cons.mp h with rfl | h
      · exact List.append_subset.mpr ⟨hhead, List.cons_subset_cons ':' (List.nil_subset rest)⟩
      · have hshort := length_after_blanks htail
        have hrest : trimStart tail <:+ rest :=
          (Text.suffix_trimStart tail).trans ((List.suffix_cons ':' tail).trans (htail ▸ hbehind))
        exact List.Subset.trans (ih _ (hn ▸ hshort) h rfl) (List.cons_subset_cons ':' hrest.subset)
    · rw [heq] at h
      rcases List.mem_cons.mp h with rfl | h
      · exact hhead
      · rw [operands, if_neg (List.cons_ne_nil c tail)] at h
        have hrest : token ⊆ rest := List.Subset.trans (subset_of_mem_items _ token h) (htail ▸ hbehind).subset
        exact List.Subset.trans hrest (List.subset_cons_self _ _)

theorem subset_of_mem_tokenize {line token : Text} (h : token ∈ tokenize line) : token ⊆ ':' :: line := by
  have htrim : trim (stripComment line) ⊆ stripComment line :=
    List.Subset.trans (Text.prefix_trimEnd _).subset (Text.suffix_trimStart _).subset
  have hline : stripComment line ⊆ line := (Text.prefix_spanPlain ..).subset
  exact List.Subset.trans (subset_of_mem_statement h) (List.cons_subset_cons ':' (List.Subset.trans htrim hline))

def isLabel (token : Text) : Bool := (Text.dropTrail? ':' token).isSome

theorem isLabel_iff {token : Text} : isLabel token ↔ token.getLast? = some ':' := by
  unfold isLabel Text.dropTrail?
  split <;> simp [*]

theorem isLabel_colon (head : Text) : isLabel (head ++ ":") := isLabel_iff.mpr List.getLast?_concat

theorem ne_nil_of_trimStart {s tail : Text} {c : Char} (h : trimStart s = c :: tail) : s ≠ [] := by
  rintro rfl
  cases h

/-- A head behind which something follows is no label by itself: a colon ends the head, or stands in a quoted region
that is still open. -/
theorem isLabel_head {rest : Text} (h : (spanPlain endsHead .plain rest).2 ≠ []) :
    isLabel (spanPlain endsHead .plain rest).1 = false := by
  have hfree := Text.free_spanPlain endsHead .plain rest
  have hplain := Text.run_spanPlain_of_ne_nil h
  rw [Bool.eq_false_iff, Ne, isLabel_iff]
  intro hlast
  obtain ⟨start, hstart⟩ := List.getLast?_eq_some_iff.mp hlast
  rw [hstart] at hfree hplain
  rw [Text.free_append, Text.free_cons] at hfree
  exact hfree.2.1 ⟨Quoting.run_of_run_concat rfl hplain, rfl⟩

/-- Between a head and what follows it stand blanks only. -/
theorem exists_gap {rest tail : Text} {c : Char} (h : trimStart (spanPlain endsHead .plain rest).2 = c :: tail) :
    ∃ gap, (∀ d ∈ gap, isBlank d) ∧ (spanPlain endsHead .plain rest).1 ++ gap ++ c :: tail = rest := by
  refine ⟨(spanPlain endsHead .plain rest).2.takeWhile isBlank, fun d hd => List.mem_takeWhile_imp hd, ?_⟩
  rw [← h, List.append_assoc, trimStart, List.takeWhile_append_dropWhile, Text.spanPlain_append]

/-- What follows a label is tight again. -/
theorem tight_after {head tail : Text} {c : Char} (h : Tight (head ++ c :: tail)) : Tight (trimStart tail) := by
  refine ⟨Text.head?_trimStart tail, fun d hd => h.last d (Text.getLast?_of_isSuffix ?_ d hd)⟩
  exact (Text.suffix_trimStart tail).trans ((List.suffix_cons c tail).trans (List.suffix_append head (c :: tail)))

theorem spanPlain_of_label {head gap : Text} (hfree : Free endsHead .plain head)
    (hclosed : Quoting.plain.run head = .plain) (hgap : ∀ c ∈ gap, isBlank c) (rest : Text) :
    spanPlain endsHead .plain (head ++ gap ++ ':' :: rest) = (head, gap ++ ':' :: rest) := by
  rw [List.append_assoc]
  cases gap with
  | nil => exact Text.spanPlain_append_stop hfree hclosed rfl rest
  | cons c gap =>
    have hstop : endsHead c := by rw [endsHead, hgap c List.mem_cons_self, Bool.true_or]
    exact Text.spanPlain_append_stop hfree hclosed hstop (gap ++ ':' :: rest)

theorem statement_of_label {head gap : Text} (hfree : Free endsHead .plain head)
    (hclosed : Quoting.plain.run head = .plain) (hgap : ∀ c ∈ gap, isBlank c) (rest : Text) :
    statement (head ++ gap ++ ':' :: rest) = (head ++ ":") :: statement (trimStart rest) := by
  have hne : head ++ gap ++ ':' :: rest ≠ [] := by simp
  have htrim : trimStart (gap ++ ':' :: rest) = ':' :: rest := Text.trimStart_append_of_blank hgap _
  have hcases := statement_cases hne
  rw [spanPlain_of_label hfree hclosed hgap] at hcases
  dsimp only at hcases
  rw [htrim] at hcases
  rcases hcases with ⟨hnil, -⟩ | ⟨tail, htail, heq⟩ | ⟨c, tail, hc, htail, -⟩
  · cases hnil
  · cases htail
    exact heq
  · cases htail
    exact absurd rfl hc

/-- The beginning of a text that is as long as needed for a beginning of what follows its leading blanks. -/
theorem exists_prefix_trimStart {s p : Text} (h : p <+: trimStart s) (hp : Tight p) :
    ∃ x, x <+: s ∧ trimStart x = p ∧ ∀ c ∈ x.getLast?, isBlank c = false := by
  cases p with
  | nil => exact ⟨[], List.nil_prefix, rfl, by simp⟩
  | cons c p =>
    have hblank : ∀ d ∈ s.takeWhile isBlank, isBlank d := fun d hd => List.mem_takeWhile_imp hd
    refine ⟨s.takeWhile isBlank ++ c :: p, ?_, ?_, ?_⟩
    · have hs : s = s.takeWhile isBlank ++ trimStart s := List.takeWhile_append_dropWhile.symm
      nth_rewrite 2 [hs]
      exact (List.prefix_append_right_inj _).mpr h
    · rw [Text.trimStart_append_of_blank hblank, Text.trimStart_of_head hp.head]
    · rw [List.getLast?_append_of_ne_nil _ (List.cons_ne_nil c p)]
      exact hp.last

/-- A beginning of what follows a label makes, behind the label, a beginning of the whole. -/
theorem exists_prefix_of_label {head gap tail p : Text} (hfree : Free endsHead .plain head)
    (hclosed : Quoting.plain.run head = .plain) (hgap : ∀ c ∈ gap, isBlank c)
    (h : Tight (head ++ gap ++ ':' :: tail)) (hp : p <+: trimStart tail) (hptight : Tight p) :
    ∃ x, x <+: head ++ gap ++ ':' :: tail ∧ Tight x ∧ statement x = (head ++ ":") :: statement p := by
  obtain ⟨x, hx, htrim, hlast⟩ := exists_prefix_trimStart hp hptight
  have hwhole : head ++ gap ++ ':' :: x <+: head ++ gap ++ ':' :: tail :=
    (List.prefix_append_right_inj _).mpr (List.cons_prefix_cons.mpr ⟨rfl, hx⟩)
  refine ⟨head ++ gap ++ ':' :: x, hwhole, ⟨fun c hc => h.head c (Text.head?_of_isPrefix hwhole c hc), ?_⟩, ?_⟩
  · rw [List.getLast?_append_of_ne_nil _ (List.cons_ne_nil ':' x)]
    cases x with
    | nil =>
      intro c hc
      obtain rfl := Option.some.inj hc
      decide
    | cons c x => rwa [List.getLast?_cons_cons]
  · rw [statement_of_label hfree hclosed hgap, htrim]

theorem exists_prefix_statement {rest : Text} (h : Tight rest) :
    ∃ p, p <+: rest ∧ Tight p ∧ statement p = (statement rest).takeWhile isLabel := by
  have hempty : Tight [] := ⟨by simp, by simp⟩
  induction hn : rest.length using Nat.strong_induction_on generalizing rest with
  | _ n ih =>
    by_cases hne : rest = []
    · subst hne
      exact ⟨[], List.nil_prefix, hempty, by rw [statement_nil]; rfl⟩
    rcases statement_cases hne with ⟨-, heq⟩ | ⟨tail, htail, heq⟩ | ⟨c, tail, hc, htail, heq⟩
    · by_cases hlabel : isLabel (spanPlain endsHead .plain rest).1
      · exact ⟨rest, List.prefix_refl rest, h, by rw [heq, List.takeWhile_cons, if_pos hlabel]; rfl⟩
      · exact ⟨[], List.nil_prefix, hempty, by rw [heq, List.takeWhile_cons, if_neg hlabel, statement_nil]⟩
    · have hclosed := Text.run_spanPlain_of_ne_nil (ne_nil_of_trimStart htail)
      obtain ⟨gap, hgap, hrest⟩ := exists_gap htail
      have hafter : Tight (trimStart tail) := tight_after (hrest.symm ▸ h)
      obtain ⟨p, hp, hptight, hstatement⟩ := ih _ (hn ▸ length_after_blanks htail) hafter rfl
      obtain ⟨x, hx, hxtight, hlabel⟩ := exists_prefix_of_label (Text.free_spanPlain endsHead .plain rest) hclosed hgap
        (by rwa [hrest]) hp hptight
      refine ⟨x, by rwa [hrest] at hx, hxtight, ?_⟩
      rw [hlabel, hstatement, heq, List.takeWhile_cons, if_pos (isLabel_colon _)]
    · refine ⟨[], List.nil_prefix, hempty, ?_⟩
      rw [heq, List.takeWhile_cons, isLabel_head (ne_nil_of_trimStart htail), statement_nil]
      rfl

/-- The labels of a line are the tokens of a beginning of the line. -/
theorem exists_prefix_tokenize (line : Text) :
    ∃ start, start <+: line ∧ tokenize start = (tokenize line).takeWhile isLabel := by
  obtain ⟨p, hp, htight, hstatement⟩ := exists_prefix_statement (Text.tight_trim (stripComment line))
  obtain ⟨x, hx, htrim, hlast⟩ := exists_prefix_trimStart (hp.trans (Text.prefix_trimEnd _)) htight
  have hfree : Free (· == ';') .plain x :=
    Text.free_of_isPrefix hx (Text.free_spanPlain (· == ';') .plain line)
  refine ⟨x, hx.trans (Text.prefix_spanPlain ..), ?_⟩
  rw [tokenize, stripComment_of_free hfree, trim, htrim, Text.trimEnd_of_last htight.last, hstatement]
  rfl

/-- The shortest beginning of a line that has the labels of the line for its tokens. -/
def labelPart (line : Text) : Text :=
  (line.inits.find? fun start => tokenize start == (tokenize line).takeWhile isLabel).getD []

theorem labelPart_spec (line : Text) :
    labelPart line <+: line ∧ tokenize (labelPart line) = (tokenize line).takeWhile isLabel := by
  obtain ⟨start, hstart, heq⟩ := exists_prefix_tokenize line
  unfold labelPart
  cases hfind : line.inits.find? fun start => tokenize start == (tokenize line).takeWhile isLabel with
  | none =>
    have hnone := List.find?_eq_none.mp hfind start ((List.mem_inits start line).mpr hstart)
    exact absurd (beq_iff_eq.mpr heq) hnone
  | some found =>
    have hfound := List.find?_some hfind
    exact ⟨(List.mem_inits found line).mp (List.mem_of_find?_eq_some hfind), beq_iff_eq.mp hfound⟩

end Token

namespace Statement

theorem splitLabels_takeWhile (tokens : List Text) :
    splitLabels (tokens.takeWhile Token.isLabel) = ((splitLabels tokens).1, []) := by
  induction tokens with
  | nil => rfl
  | cons token tokens ih =>
    cases h : Text.dropTrail? ':' token with
    | none => simp [Token.isLabel, splitLabels, h]
    | some label => simp [Token.isLabel, splitLabels, h, ih]

end Statement

end R64
