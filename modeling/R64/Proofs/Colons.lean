import R64.Proofs.Process
import R64.Proofs.Rendering
/-!
Which colons make labels. A line is cut behind each colon that follows its head outside quoted regions, and the cut
leaves no trace but the colon at the end of a token, by which labels are told apart afterwards. Main statement: the
labels that a line defines are the heads before these colons; there is one more label exactly if what is left of the
line is a single head that ends in a colon inside a quoted region which is never closed.
-/
namespace R64

open Text (isBlank trimStart trim spanPlain Free Tight Exposed)

namespace Token

/-- `head` stands at the beginning of `s` and is not cut by a blank or a colon; behind it stand blanks, then a colon
outside quoted regions, and then `tail`. -/
def Marks (s head tail : Text) : Prop :=
  ∃ gap, s = head ++ gap ++ ':' :: tail ∧ (∀ c ∈ gap, isBlank c) ∧ (∀ c, Exposed c head → endsHead c = false) ∧
    Quoting.plain.run (head ++ gap) = .plain

/-- The heads before the colons at which `s` is cut, one after another, and what is left when no colon marks a head. -/
inductive Consumes : Text → List Text → Text → Prop
  | rest {s : Text} : (∀ head tail, ¬ Marks s head tail) → Consumes s [] s
  | colon {s head tail : Text} {heads : List Text} {rest : Text} :
    Marks s head tail → Consumes (trimStart tail) heads rest → Consumes s (head :: heads) rest

variable {s head tail rest : Text} {heads : List Text}

theorem marks_iff :
    Marks s head tail ↔
      (spanPlain endsHead .plain s).1 = head ∧ trimStart (spanPlain endsHead .plain s).2 = ':' :: tail := by
  constructor
  · rintro ⟨gap, rfl, hgap, hhead, hplain⟩
    have hclosed := Text.run_of_run_blanks hgap hplain
    rw [spanPlain_of_label (Text.free_iff_exposed.mpr hhead) hclosed hgap]
    exact ⟨rfl, Text.trimStart_append_of_blank hgap _⟩
  · rintro ⟨rfl, htail⟩
    obtain ⟨gap, hgap, hs⟩ := exists_gap htail
    have hclosed := Text.run_spanPlain_of_ne_nil (ne_nil_of_trimStart htail)
    refine ⟨gap, hs.symm, hgap, Text.free_iff_exposed.mp (Text.free_spanPlain endsHead .plain s), ?_⟩
    rw [Quoting.run_append, hclosed, Text.run_of_blank hgap]

theorem not_marks_of_free (h : Free endsHead .plain s) (head tail : Text) : ¬ Marks s head tail := by
  intro hmarks
  have htail := (marks_iff.mp hmarks).2
  rw [Text.spanPlain_of_free h] at htail
  cases htail

theorem Marks.statement (h : Marks s head tail) :
    Token.statement s = (head ++ ":") :: Token.statement (trimStart tail) := by
  obtain ⟨gap, rfl, hgap, hhead, hplain⟩ := h
  exact statement_of_label (Text.free_iff_exposed.mpr hhead) (Text.run_of_run_blanks hgap hplain) hgap tail

theorem Marks.length_lt (h : Marks s head tail) : (trimStart tail).length < s.length :=
  length_after_blanks (marks_iff.mp h).2

theorem Marks.tight (h : Marks s head tail) (hs : Tight s) : Tight (trimStart tail) := by
  obtain ⟨gap, rfl, -⟩ := h
  exact tight_after hs

theorem exists_consumes (s : Text) : ∃ heads rest, Consumes s heads rest := by
  induction hn : s.length using Nat.strong_induction_on generalizing s with
  | _ n ih =>
    by_cases h : ∃ head tail, Marks s head tail
    · obtain ⟨head, tail, h⟩ := h
      obtain ⟨heads, rest, hrest⟩ := ih _ (hn ▸ h.length_lt) (trimStart tail) rfl
      exact ⟨head :: heads, rest, .colon h hrest⟩
    · exact ⟨[], s, .rest fun head tail hmarks => h ⟨head, tail, hmarks⟩⟩

namespace Consumes

theorem unique (h : Consumes s heads rest) {heads' : List Text} {rest' : Text} (h' : Consumes s heads' rest') :
    heads' = heads ∧ rest' = rest := by
  induction h generalizing heads' rest' with
  | rest hnone =>
    cases h' with
    | rest _ => exact ⟨rfl, rfl⟩
    | colon hmarks _ => exact absurd hmarks (hnone _ _)
  | colon hmarks _ ih =>
    cases h' with
    | rest hnone => exact absurd hmarks (hnone _ _)
    | colon hmarks' h' =>
      obtain ⟨rfl, htail⟩ := marks_iff.mp hmarks
      obtain ⟨rfl, htail'⟩ := marks_iff.mp hmarks'
      obtain ⟨-, rfl⟩ := List.cons.inj (htail.symm.trans htail')
      obtain ⟨rfl, rfl⟩ := ih h'
      exact ⟨rfl, rfl⟩

theorem tight (h : Consumes s heads rest) (hs : Tight s) : Tight rest := by
  induction h with
  | rest _ => exact hs
  | colon hmarks _ ih => exact ih (hmarks.tight hs)

theorem not_marks (h : Consumes s heads rest) : ∀ head tail, ¬ Marks rest head tail := by
  induction h with
  | rest hnone => exact hnone
  | colon _ _ ih => exact ih

theorem statement_eq (h : Consumes s heads rest) :
    statement s = heads.map (fun head : Text => head ++ ":") ++ statement rest := by
  induction h with
  | rest _ => rfl
  | colon hmarks _ ih => rw [hmarks.statement, ih, List.map_cons, List.cons_append]

end Consumes

/-- A single head that ends in a colon, although the colon stands in a quoted region, which is never closed. -/
structure Stray (s : Text) : Prop where
  unbroken : ∀ c, Exposed c s → endsHead c = false
  colon : s.getLast? = some ':'
  within : Quoting.plain.run s.dropLast ≠ .plain

theorem stray_of_isLabel (hfree : Free endsHead .plain s) (hlabel : isLabel s) : Stray s := by
  have hunbroken := Text.free_iff_exposed.mp hfree
  refine ⟨hunbroken, isLabel_iff.mp hlabel, fun hplain => ?_⟩
  obtain ⟨start, rfl⟩ := List.getLast?_eq_some_iff.mp (isLabel_iff.mp hlabel)
  rw [List.dropLast_concat] at hplain
  exact absurd (hunbroken ':' ⟨start, [], rfl, hplain⟩) (by decide)

theorem Stray.statement (h : Stray s) : Token.statement s = [s] := by
  refine statement_of_name ?_ (Text.free_iff_exposed.mpr h.unbroken)
  rintro rfl
  cases h.colon

theorem Stray.dropTrail? (h : Stray s) : Text.dropTrail? ':' s = some s.dropLast := if_pos h.colon

theorem splitLabels_heads (heads tokens : List Text) :
    Statement.splitLabels (heads.map (fun head : Text => head ++ ":") ++ tokens) =
      (heads ++ (Statement.splitLabels tokens).1, (Statement.splitLabels tokens).2) := by
  have hlabel (head : Text) : Text.dropTrail? ':' (head ++ ":") = some head := by
    have hlast : (head ++ [':']).getLast? = some ':' := List.getLast?_concat
    exact (if_pos hlast).trans (congrArg some List.dropLast_concat)
  induction heads with
  | nil => rfl
  | cons head heads ih =>
    rw [List.map_cons, List.cons_append, Statement.splitLabels, hlabel, ih]
    rfl

/-- Where no colon marks a head, no token is taken for a label but a stray one. -/
theorem splitLabels_rest (htight : Tight rest) (hnone : ∀ head tail, ¬ Marks rest head tail) (hstray : ¬ Stray rest) :
    Statement.splitLabels (statement rest) = ([], statement rest) := by
  have hname {name : Text} (os : List Text) (h : isLabel name = false) :
      Statement.splitLabels (name :: os) = ([], name :: os) := by
    rw [isLabel, Option.isSome_eq_false_iff, Option.isNone_iff_eq_none] at h
    rw [Statement.splitLabels, h]
  by_cases hne : rest = []
  · rw [hne, statement_nil]
    rfl
  rcases statement_cases hne with ⟨hnil, heq⟩ | ⟨tail, htail, -⟩ | ⟨c, tail, -, htail, heq⟩
  · have hfree : Free endsHead .plain rest := Text.eq_nil_of_trimStart
      (fun c hc => htight.last c (Text.getLast?_of_isSuffix (Text.suffix_spanPlain ..) c hc)) hnil
    rw [heq, Text.spanPlain_of_free hfree]
    apply hname
    rw [Bool.eq_false_iff]
    exact fun hlabel => hstray (stray_of_isLabel hfree hlabel)
  · exact absurd (marks_iff.mpr ⟨rfl, htail⟩) (hnone _ tail)
  · rw [heq]
    exact hname _ (isLabel_head (ne_nil_of_trimStart htail))

end Token

namespace Assembly

open Token (Consumes Stray)

/-- A line is cut behind its heads in one way. It defines the heads before the colons as labels, in their order, and
then does what the rest asks for. Only where the rest is stray it defines one more label and does nothing else. -/
theorem process_colons (memorySize : Nat) (a : Assembly) (line : Line) :
    ∃ heads rest,
      (∀ heads' rest', Consumes (trim (Token.stripComment (a.macros.expand line.text))) heads' rest' ↔
        heads' = heads ∧ rest' = rest) ∧
      (¬ Stray rest → a.labels line = heads ∧
        a.process memorySize line =
          (heads.foldl (label line) a).execute memorySize line (.ofTokens (Token.statement rest))) ∧
      (Stray rest → a.labels line = heads ++ [rest.dropLast] ∧
        a.process memorySize line = ((heads ++ [rest.dropLast]).foldl (label line) a, none)) := by
  have htight := Text.tight_trim (Token.stripComment (a.macros.expand line.text))
  obtain ⟨heads, rest, h⟩ := Token.exists_consumes (trim (Token.stripComment (a.macros.expand line.text)))
  have hsplit : Statement.splitLabels (a.tokens line) = (heads ++ (Statement.splitLabels (Token.statement rest)).1,
      (Statement.splitLabels (Token.statement rest)).2) := by
    rw [tokens, Token.tokenize, h.statement_eq, Token.splitLabels_heads]
  refine ⟨heads, rest, ?_, ?_, ?_⟩
  · intro heads' rest'
    constructor
    · exact h.unique
    · rintro ⟨rfl, rfl⟩
      exact h
  · intro hstray
    rw [Token.splitLabels_rest (h.tight htight) h.not_marks hstray, List.append_nil] at hsplit
    rw [process_eq, labels, statement, hsplit]
    exact ⟨rfl, rfl⟩
  · intro hstray
    rw [hstray.statement, Statement.splitLabels, hstray.dropTrail?] at hsplit
    rw [process_eq, labels, statement, hsplit]
    exact ⟨rfl, rfl⟩

/-- Two labels, one of them quoted with a blank inside, and an operation that holds a colon in quotes. -/
theorem process_colons_quoted :
    let line : Line := ⟨"source", 1, "a: \"b c\" :x':'"⟩
    ∃ heads rest, Consumes "a: \"b c\" :x':'" heads rest ∧ (heads = ["a", "\"b c\""] ∧ rest = "x':'") ∧ ¬ Stray rest ∧
      empty.labels line = heads := by
  intro line
  have hconsumes : Consumes "a: \"b c\" :x':'" ["a", "\"b c\""] "x':'" := by
    have hfirst : Token.Marks "a: \"b c\" :x':'" "a" " \"b c\" :x':'" := Token.marks_iff.mpr (by decide)
    have hsecond : Token.Marks "\"b c\" :x':'" "\"b c\"" "x':'" := Token.marks_iff.mpr (by decide)
    exact .colon hfirst (.colon hsecond (.rest (Token.not_marks_of_free (by decide))))
  have hstray : ¬ Stray "x':'" := fun h => absurd h.colon (by decide)
  obtain ⟨heads, rest, hunique, hlabels, -⟩ := process_colons 8 empty line
  obtain ⟨rfl, rfl⟩ := (hunique _ _).mp hconsumes
  exact ⟨_, _, hconsumes, ⟨rfl, rfl⟩, hstray, (hlabels hstray).1⟩

/-- A colon in a quoted region makes a label at the end of a line on which the region stays open, although no colon
marks a head there. -/
theorem open_region_defines :
    let line : Line := ⟨"source", 1, "\"a:"⟩
    let after := (empty.process 8 line).1
    Consumes (trim (Token.stripComment (empty.macros.expand line.text))) [] "\"a:" ∧
    empty.labels line = [("\"a" : Text)] ∧
    after.code.definition? "\"a" = some ⟨0, line⟩ ∧ after.diagnostics = #[] := by
  intro line after
  have htokens : empty.tokens line = [("\"a:" : Text)] := Token.statement_of_name (by decide) (by decide)
  have hafter : after = label line empty "\"a" := by
    dsimp only [after]
    rw [process_eq, labels, statement, htokens]
    rfl
  refine ⟨.rest (Token.not_marks_of_free (by decide)), ?_, ?_, ?_⟩
  · rw [labels, htokens]
    rfl
  · rw [hafter]
    rfl
  · rw [hafter]
    rfl

end Assembly

end R64
