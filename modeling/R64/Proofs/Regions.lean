import R64.Proofs.QuotedData
/-!
Where a quoted literal ends. A reader of lines leaves a quoted region at the first bare copy of the quote that opened
it, while a string or a character is read between the first and the last character of its text. Main statement: the two
agree exactly if no bare copy stands between the quotes, and a literal is data whether they agree or not.
-/
namespace R64

open Text (isQuote holdsBare decodeEscapes Free)

namespace Literal

/-- A reader that comes to the text from outside enters a quoted region at the first character and leaves it for the
first time at the last. -/
structure IsRegion (s : Text) : Prop where
  opens : Quoting.plain.run (s.take 1) ≠ .plain
  inside : ∀ start, start <+: s → start ≠ [] → start ≠ s → Quoting.plain.run start ≠ .plain
  closes : Quoting.plain.run s = .plain

variable {quote : Char} {body s : Text}

/-- Between its quotes a text that can be read and holds no bare quote is one region. -/
theorem isRegion_enclosed (hquote : isQuote quote) (h : decodeEscapes body = some s)
    (hbare : holdsBare quote body = false) : IsRegion (enclosed quote body) := by
  obtain ⟨hrun, hfree⟩ := Text.within_of_decodeEscapes hquote h hbare
  have hopen (start : Text) : Quoting.plain.run (quote :: start) = (Quoting.within quote).run start := by
    rw [Quoting.run, List.foldl_cons, Text.step_of_isQuote hquote]
    rfl
  refine ⟨?_, ?_, run_enclosed hquote hrun⟩
  · change Quoting.plain.run [quote] ≠ .plain
    rw [hopen]
    exact fun hplain => by cases hplain
  · intro start hstart hne hwhole hplain
    obtain ⟨c, start, rfl⟩ := List.exists_cons_of_ne_nil hne
    obtain ⟨rfl, hprefix⟩ := List.cons_prefix_cons.mp hstart
    rw [hopen] at hplain
    rcases List.prefix_concat_iff.mp hprefix with heq | ⟨rest, heq⟩
    · exact hwhole (congrArg (c :: ·) heq)
    · cases rest with
      | nil =>
        rw [List.append_nil] at heq
        rw [heq, hrun] at hplain
        cases hplain
      | cons d rest =>
        have hstop := Text.free_iff.mp (hfree fun _ => true) start d rest heq.symm hplain
        cases hstop

/-- What stands before the first bare quote. -/
theorem exists_before_bare (h : decodeEscapes body = some s) (hbare : holdsBare quote body) :
    ∃ before after text, body = before ++ quote :: after ∧ decodeEscapes before = some text ∧
      holdsBare quote before = false := by
  revert hbare
  refine Text.decodeEscapes_induction (motive := fun body _ => holdsBare quote body → ∃ before after text,
    body = before ++ quote :: after ∧ decodeEscapes before = some text ∧ holdsBare quote before = false) ?_ ?_ ?_ h
  · intro hbare
    cases hbare
  · intro c body s hc _ ih hbare
    by_cases heq : c = quote
    · exact ⟨[], body, [], by rw [heq]; rfl, rfl, rfl⟩
    rw [Text.holdsBare_of_ne hc, beq_false_of_ne heq, Bool.false_or] at hbare
    obtain ⟨before, after, text, rfl, hread, hclean⟩ := ih hbare
    refine ⟨c :: before, after, c :: text, rfl, ?_, ?_⟩
    · rw [Text.decodeEscapes_of_ne hc, hread, Option.map_some]
    · rw [Text.holdsBare_of_ne hc, beq_false_of_ne heq, hclean, Bool.or_false]
  · intro e c body s he _ ih hbare
    rw [Text.holdsBare_escape] at hbare
    obtain ⟨before, after, text, rfl, hread, hclean⟩ := ih hbare
    refine ⟨'\\' :: e :: before, after, c :: text, rfl, ?_, ?_⟩
    · rw [Text.decodeEscapes_escape, he, hread, Option.bind_some, Option.map_some]
    · rw [Text.holdsBare_escape, hclean]

/-- How far the region reaches that the quote before `body` opens: to the first bare copy of the quote, and so to the
quote behind `body` exactly if `body` holds no bare copy. -/
structure Delimited (quote : Char) (body : Text) : Prop where
  first : ∃ before after, enclosed quote body = enclosed quote before ++ after ∧ holdsBare quote before = false ∧
    IsRegion (enclosed quote before)
  whole : IsRegion (enclosed quote body) ↔ holdsBare quote body = false

theorem delimited_of_decodeEscapes (hquote : isQuote quote) (h : decodeEscapes body = some s) :
    Delimited quote body := by
  cases hbare : holdsBare quote body with
  | false =>
    have hregion := isRegion_enclosed hquote h hbare
    exact ⟨⟨body, [], (List.append_nil _).symm, hbare, hregion⟩, by simp [hbare, hregion]⟩
  | true =>
    obtain ⟨before, after, text, rfl, hread, hclean⟩ := exists_before_bare h hbare
    have hregion := isRegion_enclosed hquote hread hclean
    have hcut : enclosed quote (before ++ quote :: after) = enclosed quote before ++ (after ++ [quote]) := by
      simp [enclosed]
    refine ⟨⟨before, after ++ [quote], hcut, hclean, hregion⟩, ?_⟩
    rw [hbare, hcut]
    refine ⟨fun hwhole => ?_, fun hfalse => by cases hfalse⟩
    have hne : enclosed quote before ≠ enclosed quote before ++ (after ++ [quote]) := by simp
    exact absurd hregion.closes (hwhole.inside _ (List.prefix_append ..) (List.cons_ne_nil _ _) hne)

theorem exists_of_string {words : List Word} (h : string s = .ok words) :
    ∃ body text, s = enclosed '"' body ∧ decodeEscapes body = some text := by
  rw [string] at h
  split at h
  · cases h
  · next text hread =>
    obtain ⟨body, hbetween, hbody⟩ := Option.bind_eq_some_iff.mp hread
    exact ⟨body, text, Text.between?_eq_some_iff.mp hbetween, hbody⟩

/-- A character is one character between single quotes, or an escape. Only one of them is a bare quote. -/
theorem exists_of_character {w : Word} (h : character s = .ok w) :
    ∃ body c, s = enclosed '\'' body ∧ decodeEscapes body = some [c] ∧ (holdsBare '\'' body = false ↔ s ≠ "'''") := by
  rw [character] at h
  split at h
  · next c hread =>
    obtain ⟨body, hbetween, hbody⟩ := Option.bind_eq_some_iff.mp hread
    obtain rfl := Text.between?_eq_some_iff.mp hbetween
    refine ⟨body, c, rfl, ?_⟩
    split at hbody
    · next d =>
      split at hbody
      · cases hbody
      · next hd =>
        cases hbody
        rw [Text.decodeEscapes_of_ne hd, Text.holdsBare_of_ne hd]
        exact ⟨rfl, by simp [holdsBare]⟩
    · next d e =>
      split at hbody
      · next hd =>
        rw [hd, Text.decodeEscapes_escape, hbody, Text.holdsBare_escape]
        exact ⟨rfl, by simp [holdsBare]⟩
      · cases hbody
    · cases hbody
  · cases h

/-- A string or a character stands between two quotes and is data. The region that its first quote opens ends at the
first bare copy of the quote, and so at the end of the literal exactly if it holds no bare copy; among the characters
only three quotes in a row hold one. -/
theorem quoted_region (s : Text) :
    (∀ words, string s = .ok words →
      ∃ body, s = enclosed '"' body ∧ Delimited '"' body ∧ data s = .ok words) ∧
    ∀ w, character s = .ok w →
      ∃ body, s = enclosed '\'' body ∧ Delimited '\'' body ∧ data s = .ok [w] ∧ (IsRegion s ↔ s ≠ "'''") := by
  constructor
  · intro words h
    obtain ⟨body, text, rfl, hread⟩ := exists_of_string h
    exact ⟨body, rfl, delimited_of_decodeEscapes rfl hread, data_of_string h⟩
  · intro w h
    obtain ⟨body, c, rfl, hread, hbare⟩ := exists_of_character h
    have hdelimited := @delimited_of_decodeEscapes '\'' _ _ rfl hread
    exact ⟨body, rfl, hdelimited, data_of_character h, hdelimited.whole.trans hbare⟩

/-- An escaped quote in a string leaves the region open; so does the other quote in a character. -/
theorem quoted_region_protected :
    let s : Text := "\"a\\\"b\""
    let t : Text := "'\"'"
    (string s = .ok [97, 34, 98, 0] ∧
      ∃ body, s = enclosed '"' body ∧ Delimited '"' body ∧ data s = .ok [97, 34, 98, 0]) ∧
    character t = .ok 34 ∧
      ∃ body, t = enclosed '\'' body ∧ Delimited '\'' body ∧ data t = .ok [34] ∧ (IsRegion t ↔ t ≠ "'''") :=
  ⟨⟨by decide +kernel, (quoted_region _).1 _ (by decide +kernel)⟩, rfl, (quoted_region _).2 _ rfl⟩

/-- Two strings with a blank between them are read as one, and three single quotes as a character, although in both the
region closes before the end. -/
theorem adjacent_strings_read :
    let s : Text := "\"a\" \"b\""
    let words : List Word := [97, 34, 32, 34, 98, 0]
    let line : Line := ⟨"data", 1, ".dw \"a\" \"b\""⟩
    let after := (Assembly.empty.process 8 line).1
    (string s = .ok words ∧ ¬ IsRegion s) ∧ (after.code.words = words.toArray ∧ after.diagnostics = #[]) ∧
    character "'''" = .ok 39 ∧ ¬ IsRegion "'''" := by
  intro s words line after
  have hstatement : Token.IsStatement ".dw" [s] := by
    refine ⟨by decide, by decide, Token.unbroken_iff.mpr (by decide), ?_, by decide, by decide, by decide⟩
    intro o ho
    rw [List.mem_singleton.mp ho, Token.isOperand_iff]
    decide
  have hstring : string s = .ok words := by decide +kernel
  have hdata : data s = .ok words := @data_of_string ['a', '"', ' ', '"', 'b'] words hstring
  have hprocess := @Assembly.process_dw _ _ hstatement .empty rfl 8 line rfl
  refine ⟨⟨hstring, fun h => ?_⟩, ?_, rfl, fun h => ?_⟩
  · exact h.inside "\"a\"" (by decide) (by decide) (by decide) rfl
  · dsimp only [after]
    rw [hprocess, List.foldl_cons, List.foldl_nil, Assembly.item_of_data line .empty hdata]
    exact ⟨rfl, rfl⟩
  · exact h.inside "''" (by decide) (by decide) (by decide) rfl

end Literal

end R64
