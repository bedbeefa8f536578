import Mathlib.Data.List.Infix
import R64.Source.Macros
/-!
Macro expansion. A line is cut at the occurrences of a name: each is the leftmost in what remains of the line behind the
one before it. Main statement: there is exactly one way to cut a line, a definition joins the pieces again with its
replacement in the place of its name, and a line is expanded by one definition after another. The pieces do not depend
on the replacement, so that what a definition has put in is not looked at again, whatever it holds or completes: the
loop that edits the line in place leaves everything before its cursor alone and cuts what stands behind it.
-/
namespace R64.Macros

/-- No occurrence of `name` in `line` begins before the end of `u`. -/
def Leftmost (name u line : Text) : Prop := ∀ v t, line = v ++ name ++ t → u.length ≤ v.length

/-- The pieces of a line between the occurrences of a name. -/
inductive Cut (name : Text) : Text → List Text → Prop
  | last {u : Text} : ¬ name <:+: u → Cut name u [u]
  | next {u rest : Text} {pieces : List Text} :
    Leftmost name u (u ++ name ++ rest) → Cut name rest pieces → Cut name (u ++ name ++ rest) (u :: pieces)

/-- What a line becomes by one definition after another. A definition without a name makes no change. -/
inductive Expands : List (Text × Text) → Text → Text → Prop
  | nil {line : Text} : Expands [] line line
  | nameless {replacement line result : Text} {ds : List (Text × Text)} :
    Expands ds line result → Expands (([], replacement) :: ds) line result
  | named {name replacement line result : Text} {pieces : List Text} {ds : List (Text × Text)} :
    name ≠ [] → Cut name line pieces → Expands ds (List.intercalate replacement pieces) result →
    Expands ((name, replacement) :: ds) line result

namespace Leftmost

variable {name u : Text} {c : Char}

theorem of_cons {line : Text} (h : Leftmost name (c :: u) (c :: line)) : Leftmost name u line := by
  intro v t heq
  have hle := h (c :: v) t (by rw [heq]; rfl)
  simpa using hle

theorem not_isPrefix {line : Text} (h : Leftmost name (c :: u) line) : ¬ name <+: line := by
  rintro ⟨t, rfl⟩
  have hle := h [] t rfl
  simp at hle

theorem cons {line : Text} (h : Leftmost name u line) (hname : ¬ name <+: c :: line) :
    Leftmost name (c :: u) (c :: line) := by
  intro v t heq
  cases v with
  | nil => exact absurd ⟨t, heq.symm⟩ hname
  | cons d v => exact Nat.succ_le_succ (h v t (List.cons.inj heq).2)

/-- An occurrence has only one leftmost place. -/
theorem unique {u' rest rest' : Text} (h : Leftmost name u (u ++ name ++ rest))
    (h' : Leftmost name u' (u' ++ name ++ rest')) (heq : u ++ name ++ rest = u' ++ name ++ rest') :
    u = u' ∧ rest = rest' := by
  have hle := h u' rest' heq
  have hge := h' u rest heq.symm
  simp only [List.append_assoc] at heq
  obtain ⟨rfl, htail⟩ := List.append_inj heq (by omega)
  exact ⟨rfl, (List.append_inj htail rfl).2⟩

end Leftmost

theorem exists_leftmost {name line : Text} (h : name <:+: line) :
    ∃ u rest, line = u ++ name ++ rest ∧ Leftmost name u line := by
  induction line with
  | nil =>
    obtain rfl := List.infix_nil.mp h
    exact ⟨[], [], rfl, fun _ _ _ => Nat.zero_le _⟩
  | cons c line ih =>
    by_cases hstart : name <+: c :: line
    · obtain ⟨rest, hrest⟩ := hstart
      exact ⟨[], rest, hrest.symm, fun _ _ _ => Nat.zero_le _⟩
    · obtain ⟨u, rest, heq, hleftmost⟩ := ih ((List.infix_cons_iff.mp h).resolve_left hstart)
      exact ⟨c :: u, rest, by rw [heq]; rfl, hleftmost.cons hstart⟩

namespace Cut

variable {name line : Text} {pieces : List Text}

/-- Joined by whatever stands in the place of the name, the first piece is followed by the others. -/
theorem intercalate_cons (h : Cut name line pieces) (joint u : Text) :
    List.intercalate joint (u :: pieces) = u ++ joint ++ List.intercalate joint pieces := by
  cases h <;> exact List.intercalate_cons_cons

/-- The pieces with the name between them are the line. -/
theorem intercalate_eq (h : Cut name line pieces) : List.intercalate name pieces = line := by
  induction h with
  | last => exact List.intercalate_singleton
  | next _ hrest ih => rw [hrest.intercalate_cons, ih]

theorem exists_pieces (hname : name ≠ []) (line : Text) : ∃ pieces, Cut name line pieces := by
  by_cases h : name <:+: line
  · obtain ⟨u, rest, rfl, hleftmost⟩ := exists_leftmost h
    have hshorter : rest.length < (u ++ name ++ rest).length := by
      have hpositive := List.length_pos_iff.mpr hname
      simp only [List.length_append]
      omega
    obtain ⟨pieces, hpieces⟩ := exists_pieces hname rest
    exact ⟨u :: pieces, .next hleftmost hpieces⟩
  · exact ⟨[line], .last h⟩
termination_by line.length

theorem unique {other : List Text} (h : Cut name line pieces) (h' : Cut name line other) : pieces = other := by
  induction h generalizing other with
  | @last u hu =>
    generalize hline : u = line at h'
    cases h' with
    | last => rfl
    | @next v rest _ _ _ => exact absurd ⟨v, rest, hline.symm⟩ hu
  | @next u rest pieces hleftmost _ ih =>
    generalize hline : u ++ name ++ rest = line at h'
    cases h' with
    | last hnone => exact absurd ⟨u, rest, hline⟩ hnone
    | next hleftmost' hrest' =>
      obtain ⟨rfl, rfl⟩ := hleftmost.unique hleftmost' hline
      rw [ih hrest']

end Cut

theorem Leftmost.locate? {name u rest : Text} (h : Leftmost name u (u ++ name ++ rest)) :
    Text.locate? name (u ++ name ++ rest) = some u.length := by
  induction u with
  | nil =>
    cases name with
    | nil => cases rest <;> rfl
    | cons c name =>
      have hstart : (c :: name).isPrefixOf (c :: (name ++ rest)) :=
        List.isPrefixOf_iff_prefix.mpr (List.prefix_append (c :: name) rest)
      exact if_pos hstart
  | cons c u ih =>
    have hstart := mt List.isPrefixOf_iff_prefix.mp h.not_isPrefix
    simp only [List.cons_append] at h hstart ⊢
    rw [Text.locate?, if_neg hstart, ih h.of_cons]
    rfl

/-- The search goes through what stood behind the cursor at the beginning: with `done` before the cursor, each round puts
a piece and the replacement behind `done` and leaves the rest of the line as it was. -/
theorem replaceFrom_of_cut {name line : Text} {pieces : List Text} (hname : name ≠ []) (replacement : Text)
    (h : Cut name line pieces) (done : Text) :
    replaceFrom name replacement hname (done ++ line) done.length =
      done ++ List.intercalate replacement pieces := by
  induction h generalizing done with
  | @last u hnone =>
    have hlocate : Text.locate? name ((done ++ u).drop done.length) = none := by
      rw [List.drop_left]
      exact Text.locate?_eq_none_iff.mpr hnone
    rw [replaceFrom_of_none hlocate, List.intercalate_singleton]
  | @next u rest pieces hleftmost hrest ih =>
    have hlocate : Text.locate? name ((done ++ (u ++ name ++ rest)).drop done.length) = some u.length := by
      rw [List.drop_left]
      exact hleftmost.locate?
    have hbefore : (done ++ (u ++ name ++ rest)).take (done.length + u.length) = done ++ u := by
      rw [List.take_length_add_append, List.append_assoc, List.take_left]
    have hbehind : (done ++ (u ++ name ++ rest)).drop (done.length + u.length + name.length) = rest := by
      rw [Nat.add_assoc, List.drop_length_add_append, ← List.length_append, List.drop_left]
    have hcursor : done.length + u.length + replacement.length = (done ++ u ++ replacement).length := by
      simp only [List.length_append]
    rw [replaceFrom_of_some hlocate, hbefore, hbehind, hcursor, ih, hrest.intercalate_cons]
    simp only [List.append_assoc]

theorem apply_of_cut {name line : Text} {pieces : List Text} (hname : name ≠ []) (replacement : Text)
    (h : Cut name line pieces) : apply (name, replacement) line = List.intercalate replacement pieces := by
  rw [apply, dif_neg hname]
  exact replaceFrom_of_cut hname replacement h []

theorem expands_iff {ds : List (Text × Text)} {line result : Text} :
    Expands ds line result ↔ ds.foldl (fun line d => apply d line) line = result := by
  constructor
  · intro h
    induction h with
    | nil => rfl
    | nameless _ ih => exact ih
    | named hname hcut _ ih => rw [List.foldl_cons, apply_of_cut hname _ hcut, ih]
  · intro h
    induction ds generalizing line with
    | nil =>
      subst h
      exact .nil
    | cons d ds ih =>
      obtain ⟨name, replacement⟩ := d
      by_cases hname : name = []
      · subst hname
        exact .nameless (ih h)
      · obtain ⟨pieces, hpieces⟩ := Cut.exists_pieces hname line
        rw [List.foldl_cons, apply_of_cut hname replacement hpieces] at h
        exact .named hname hpieces (ih h)

/-- Expanding a line applies the definitions in their order. A definition replaces its name, unless it is empty, at the
places where the name cuts the line as it was, from the left and without overlap; the replacement has no influence on
where these places are. -/
theorem expand_leftmost (m : Macros) (line : Text) :
    (∀ result, m.expand line = result ↔ Expands m.definitions.toList line result) ∧
    ∀ name ≠ [], ∃ pieces, Cut name line pieces ∧ (∀ other, Cut name line other → other = pieces) ∧
      List.intercalate name pieces = line ∧
      ∀ replacement, apply (name, replacement) line = List.intercalate replacement pieces := by
  constructor
  · intro result
    rw [expands_iff, expand, ← Array.foldl_toList]
  · intro name hname
    obtain ⟨pieces, hpieces⟩ := Cut.exists_pieces hname line
    exact ⟨pieces, hpieces, fun other hother => hother.unique hpieces, hpieces.intercalate_eq,
      fun replacement => apply_of_cut hname replacement hpieces⟩

/-- The replacement holds the name and forms it once more with what follows. -/
example : expand ⟨#[("ab", "aab"), ("", "x")]⟩ "abb" = ("aabb" : Text) := by decide +kernel

end R64.Macros
