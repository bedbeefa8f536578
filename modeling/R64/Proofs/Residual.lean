import R64.Proofs.Labels
import R64.Proofs.Outline
import R64.Proofs.Progress
import R64.Proofs.Splicing
/-!
Programs without macros. In the residual program every line stands as it is expanded, and of a line that defines a macro
only the labels are left. Main statement: as long as no file is included, a program and its residual program give the
same report up to the texts of the lines in it, and the residual program defines no macro.
-/
namespace R64

namespace Macros

def definition? (m : Macros) (line : Text) : Option (Text × Text) :=
  (Statement.ofTokens (Statement.splitLabels (Token.tokenize (m.expand line))).2).definition?

/-- The macros that the lines behind a line are expanded with. -/
def after (m : Macros) (line : Text) : Macros :=
  match m.definition? line with
  | some (name, replacement) => m.define name replacement
  | none => m

/-- What is left of a line without macros: the line as it is expanded, or of a line that defines a macro its labels. -/
def residue (m : Macros) (line : Text) : Text :=
  match m.definition? line with
  | some _ => Token.labelPart (m.expand line)
  | none => m.expand line

def residual : Macros → List Text → List Text
  | _, [] => []
  | m, line :: lines => m.residue line :: (m.after line).residual lines

end Macros

/-- The program with its macros compiled away, line by line. -/
def Text.residual (program : Text) : Text := List.intercalate "\n" (Macros.empty.residual (program.split '\n'))

namespace Statement

theorem mem_of_splitLabels {tokens : List Text} {token : Text} (h : token ∈ (splitLabels tokens).2) :
    token ∈ tokens := by
  induction tokens with
  | nil => exact h
  | cons first tokens ih =>
    unfold splitLabels at h
    split at h
    · exact List.mem_cons_of_mem first (ih h)
    · exact h

theorem mem_of_definition? {tokens : List Text} {d : Text × Text} (h : (ofTokens tokens).definition? = some d) :
    d.2 ∈ tokens := by
  obtain ⟨name, heq⟩ := eq_of_definition? h
  unfold ofTokens at heq
  split at heq
  · cases heq
  · split at heq
    · cases heq
      simp
    · split at heq <;> cases heq

end Statement

namespace Macros

theorem residue_of_none {m : Macros} {line : Text} (h : m.definition? line = none) :
    m.residue line = m.expand line := by
  rw [residue, h]

theorem tokenize_residue_of_some {m : Macros} {line : Text} {d : Text × Text} (h : m.definition? line = some d) :
    Token.tokenize (m.residue line) = (Token.tokenize (m.expand line)).takeWhile Token.isLabel := by
  rw [residue, h]
  exact (Token.labelPart_spec _).2

/-- No macro is defined by what is left of a line. -/
theorem definition?_residue (m : Macros) (line : Text) : empty.definition? (m.residue line) = none := by
  change (Statement.ofTokens (Statement.splitLabels (Token.tokenize (m.residue line))).2).definition? = none
  cases h : m.definition? line with
  | none =>
    rw [residue_of_none h]
    exact h
  | some d =>
    rw [tokenize_residue_of_some h, Statement.splitLabels_takeWhile]
    rfl

def Without (c : Char) (m : Macros) : Prop := ∀ d ∈ m.definitions, c ∉ d.2

variable {c : Char}

theorem mem_of_mem_replaceFrom {name replacement line : Text} {hname : name ≠ []} {pos : Nat}
    (h : c ∈ replaceFrom name replacement hname line pos) : c ∈ replacement ∨ c ∈ line := by
  induction line, pos using replaceFrom.induct name replacement hname with
  | case1 line pos hnone =>
    rw [replaceFrom_of_none hnone] at h
    exact .inr h
  | case2 line pos found hsome hlength start ih =>
    rw [replaceFrom_of_some hsome] at h
    rcases ih h with h | h
    · exact .inl h
    · rcases List.mem_append.mp h with h | h
      · exact (List.mem_append.mp h).symm.imp_right List.mem_of_mem_take
      · exact .inr (List.mem_of_mem_drop h)

theorem not_mem_apply {d : Text × Text} {line : Text} (hd : c ∉ d.2) (h : c ∉ line) : c ∉ apply d line := by
  unfold apply
  split
  · exact h
  · intro hc
    exact (mem_of_mem_replaceFrom hc).elim hd h

theorem Without.expand {m : Macros} (hm : m.Without c) {line : Text} (h : c ∉ line) : c ∉ m.expand line := by
  apply Array.foldl_induction (motive := fun _ line => c ∉ line) h
  intro i line hline
  exact not_mem_apply (hm _ (Array.getElem_mem i.isLt)) hline

theorem Without.after {m : Macros} (hm : m.Without c) (hc : c ≠ ':') {line : Text} (h : c ∉ line) :
    (m.after line).Without c := by
  unfold Macros.after
  split
  · next name replacement hd =>
    have htoken := Statement.mem_of_splitLabels (Statement.mem_of_definition? hd)
    have hreplacement : c ∉ replacement := by
      intro hmem
      rcases List.mem_cons.mp (Token.subset_of_mem_tokenize htoken hmem) with rfl | hmem
      · exact hc rfl
      · exact hm.expand h hmem
    intro d hd
    rcases Array.mem_push.mp hd with hd | rfl
    · exact hm d hd
    · exact hreplacement
  · exact hm

theorem Without.residue {m : Macros} (hm : m.Without c) {line : Text} (h : c ∉ line) : c ∉ m.residue line := by
  unfold Macros.residue
  split
  · exact fun hc => hm.expand h ((Token.labelPart_spec _).1.subset hc)
  · exact hm.expand h

/-- Macros that come from the lines of a program bring no new character into it, except the colon of a label. -/
theorem Without.residual {m : Macros} (hm : m.Without c) (hc : c ≠ ':') {lines : List Text}
    (h : ∀ line ∈ lines, c ∉ line) : ∀ line ∈ m.residual lines, c ∉ line := by
  induction lines generalizing m with
  | nil => exact h
  | cons line lines ih =>
    have hline := h line List.mem_cons_self
    have hrest := ih (hm.after hc hline) fun x hx => h x (List.mem_cons_of_mem line hx)
    intro x hx
    rcases List.mem_cons.mp hx with rfl | hx
    · exact hm.residue hline
    · exact hrest x hx

theorem without_empty (c : Char) : empty.Without c := by
  intro d hd
  cases Array.mem_toList_iff.mpr hd

theorem expand_nil (m : Macros) : m.expand [] = [] := by
  apply Array.foldl_induction (motive := fun _ line => line = []) rfl
  rintro i line rfl
  unfold apply
  split
  · rfl
  · next hname => exact replaceFrom_of_none (if_neg hname)

theorem residue_nil (m : Macros) : m.residue [] = [] := by
  have hnone : m.definition? [] = none := by
    rw [definition?, expand_nil, Token.tokenize_nil]
    rfl
  rw [residue_of_none hnone, expand_nil]

theorem residual_append (m : Macros) (lines lines' : List Text) :
    m.residual (lines ++ lines') = m.residual lines ++ (lines.foldl after m).residual lines' := by
  induction lines generalizing m with
  | nil => rfl
  | cons line lines ih => rw [List.cons_append, residual, ih, residual, List.foldl_cons, List.cons_append]

end Macros

namespace Line

theorem Pieces.split_eq {s : Text} {c : Char} {pieces : List Text} {last : Text} (h : Pieces c s pieces last) :
    s.split c = pieces ++ [last] := by
  obtain ⟨rfl, hended, hlast⟩ := h
  induction pieces with
  | nil => exact Text.split_of_not_mem hlast
  | cons piece pieces ih =>
    have hrest := ih fun p hp => hended p (List.mem_cons_of_mem piece hp)
    rw [List.flatMap_cons, List.append_assoc, List.append_assoc, List.singleton_append,
      Text.split_append_of_not_mem (hended piece List.mem_cons_self), hrest]
    rfl

theorem Pieces.not_mem {s : Text} {lf c : Char} {pieces : List Text} {last : Text} (h : Pieces lf s pieces last)
    (hc : c ∉ s) : (∀ piece ∈ pieces, c ∉ piece) ∧ c ∉ last := by
  obtain ⟨rfl, -, -⟩ := h
  rw [List.mem_append, not_or] at hc
  refine ⟨fun piece hpiece hmem => hc.1 ?_, hc.2⟩
  exact List.mem_flatMap.mpr ⟨piece, hpiece, List.mem_append_left _ hmem⟩

theorem Pieces.ofText_eq {s : Text} {pieces : List Text} {last : Text} (h : Pieces '\n' s pieces last)
    (hreturn : ∀ piece ∈ pieces, '\r' ∉ piece) : ofText s = pieces ++ if last = [] then [] else [last] := by
  rw [ofText, h.cut_eq]
  congr 1
  refine (List.map_congr_left fun piece hpiece => ?_).trans (List.map_id pieces)
  rw [withoutReturn, if_neg]
  · rfl
  · exact fun hlast => hreturn piece hpiece (List.mem_of_getLast? hlast)

theorem intercalate_concat (pieces : List Text) (last : Text) :
    List.intercalate "\n" (pieces ++ [last]) = pieces.flatMap (· ++ ['\n']) ++ last := by
  induction pieces with
  | nil => exact List.intercalate_singleton
  | cons piece pieces ih =>
    rw [List.cons_append, List.intercalate_cons_of_ne_nil (by simp), ih, List.flatMap_cons, List.append_assoc,
      List.append_assoc, List.append_assoc]
    rfl

/-- The lines of the residual program are what is left of the lines of the program, except that a last line of which
nothing is left is no line. -/
theorem ofText_residual {program : Text} (hreturn : '\r' ∉ program) :
    ∃ tail, (tail = [] ∨ tail = [[]]) ∧
      ofText program.residual ++ tail = Macros.empty.residual (ofText program) := by
  obtain ⟨pieces, last, hpieces⟩ := exists_pieces '\n' program
  obtain ⟨hreturns, hlast⟩ := hpieces.not_mem hreturn
  have hresidual : Pieces '\n' program.residual (Macros.empty.residual pieces)
      ((pieces.foldl Macros.after .empty).residue last) := by
    have hlines : ∀ line ∈ pieces ++ [last], '\n' ∉ line := by
      intro line hline
      rcases List.mem_append.mp hline with hline | hline
      · exact hpieces.ended line hline
      · rw [List.mem_singleton.mp hline]
        exact hpieces.unended
    have hleft := (Macros.without_empty '\n').residual (by decide) hlines
    rw [Macros.residual_append] at hleft
    refine ⟨?_, fun piece hpiece => hleft piece (List.mem_append_left _ hpiece), hleft _ (by simp [Macros.residual])⟩
    rw [Text.residual, hpieces.split_eq, Macros.residual_append]
    exact intercalate_concat _ _
  rw [hpieces.ofText_eq hreturns, hresidual.ofText_eq ((Macros.without_empty '\r').residual (by decide) hreturns)]
  by_cases hnil : last = []
  · refine ⟨[], .inl rfl, ?_⟩
    rw [hnil, Macros.residue_nil, if_pos rfl, List.append_nil, List.append_nil, List.append_nil]
  · rw [if_neg hnil, Macros.residual_append]
    by_cases hleft : (pieces.foldl Macros.after .empty).residue last = []
    · exact ⟨[[]], .inr rfl, by rw [if_pos hleft, List.append_nil, Macros.residual, hleft]; rfl⟩
    · exact ⟨[], .inl rfl, by rw [if_neg hleft, List.append_nil, Macros.residual]; rfl⟩

end Line

namespace Assembly

theorem definition?_statement (a : Assembly) (line : Line) :
    (a.statement line).definition? = a.macros.definition? line.text := rfl

theorem macros_process (memorySize : Nat) (a : Assembly) (line : Line) :
    (a.process memorySize line).1.macros = a.macros.after line.text := by
  rw [process_eq, Macros.after, ← definition?_statement]
  cases h : (a.statement line).definition? with
  | none => rw [macros_execute memorySize _ line h, macros_labels]
  | some d =>
    rw [execute_of_definition? memorySize _ line h, macros_labels]
    rfl

/-- Up to line texts and macros, a line does what its residue does. -/
theorem process_outline (memorySize : Nat) (a : Assembly) (line : Line) :
    ((a.process memorySize line).1.outline, (a.process memorySize line).2) =
      a.outline.processTokens memorySize line.untexted (Token.tokenize (a.macros.residue line.text)) := by
  rw [process_eq]
  cases h : a.macros.definition? line.text with
  | none =>
    have hstatement : (a.statement line).definition? = none := h
    rw [Macros.residue_of_none h, ← execute_outline memorySize _ line hstatement, ← labels_outline]
    rfl
  | some d =>
    rw [Macros.tokenize_residue_of_some h, processTokens, Statement.splitLabels_takeWhile]
    have hstatement : (a.statement line).definition? = some d := h
    change _ = ((a.labels line).foldl (label line.untexted) a.outline, none)
    rw [labels_outline, execute_of_definition? memorySize _ line hstatement]
    rfl

/-- Of two assemblies with one outline, one can process a line and the other, without macros, what is left of it. -/
theorem process_residue {a b : Assembly} (h : b.outline = a.outline) (hb : b.macros = .empty) (memorySize : Nat)
    (line line' : Line) (hline : line'.untexted = line.untexted) (htext : line'.text = a.macros.residue line.text) :
    (b.process memorySize line').1.outline = (a.process memorySize line).1.outline ∧
      (b.process memorySize line').2 = (a.process memorySize line).2 ∧
      (b.process memorySize line').1.macros = .empty := by
  have hnone : Macros.empty.definition? line'.text = none := by
    rw [htext]
    exact a.macros.definition?_residue line.text
  have hresidue : b.macros.residue line'.text = line'.text := by
    rw [hb]
    exact Macros.residue_of_none hnone
  have hprocess := process_outline memorySize b line'
  rw [hresidue, htext, h, hline, ← process_outline] at hprocess
  obtain ⟨houtline, hpath⟩ := Prod.mk.inj hprocess
  refine ⟨houtline, hpath, ?_⟩
  rw [macros_process, hb, Macros.after, hnone]

theorem process_nil (memorySize : Nat) (a : Assembly) {line : Line} (h : line.text = []) :
    a.process memorySize line = (a, none) := by
  rw [process, h, Macros.expand_nil, Token.tokenize_nil]
  rfl

end Assembly

/-- One source of which lines are left to be read. -/
def SourceStack.single (base name : Text) (taken : Nat) (lines : List Text) : SourceStack :=
  ⟨[⟨name, taken, .lines lines⟩], base, []⟩

namespace Session

variable (fs : FileSystem) {memorySize : Nat} (base : Text)

theorem scan_single_nil (memorySize : Nat) (name : Text) (taken : Nat) (a : Assembly) :
    scan fs memorySize ⟨.single base name taken [], a⟩ = a ∧
      visits fs memorySize ⟨.single base name taken [], a⟩ = [] :=
  ⟨scan_of_none rfl, visits_of_none rfl⟩

/-- A line that includes nothing is processed, and the source goes on behind it. -/
theorem scan_single_cons {name line : Text} {taken : Nat} {a : Assembly}
    (h : (a.process memorySize ⟨name, taken + 1, line⟩).2 = none) (lines : List Text) :
    let next : Session := ⟨.single base name (taken + 1) lines, (a.process memorySize ⟨name, taken + 1, line⟩).1⟩
    scan fs memorySize ⟨.single base name taken (line :: lines), a⟩ = next.scan fs memorySize ∧
      visits fs memorySize ⟨.single base name taken (line :: lines), a⟩ =
        (a, ⟨name, taken + 1, line⟩) :: next.visits fs memorySize := by
  intro next
  have hnext : (SourceStack.single base name taken (line :: lines)).next =
      (some (.ok ⟨name, taken + 1, line⟩), .single base name (taken + 1) lines) := rfl
  have hhandle : handle fs memorySize ⟨.single base name (taken + 1) lines, a⟩ (.ok ⟨name, taken + 1, line⟩) =
      next := by
    rw [handle_ok, h]
  exact ⟨by rw [scan_of_some hnext, hhandle], by rw [visits_of_ok hnext, hhandle]⟩

/-- The lines of a program without inclusions and what is left of them keep the outline of two assemblies the same. -/
theorem scan_residual {lines lines' tail : List Text} {a b : Assembly} (h : b.outline = a.outline)
    (hb : b.macros = .empty) (hlines : lines' ++ tail = a.macros.residual lines) (htail : tail = [] ∨ tail = [[]])
    (name : Text) (taken : Nat)
    (hinclude : ∀ v ∈ visits fs memorySize ⟨.single base name taken lines, a⟩,
      (v.1.statement v.2).inclusion? = none) :
    (scan fs memorySize ⟨.single base name taken lines', b⟩).outline =
        (scan fs memorySize ⟨.single base name taken lines, a⟩).outline ∧
      ∀ v ∈ visits fs memorySize ⟨.single base name taken lines', b⟩,
        v.1.macros = .empty ∧ (v.1.statement v.2).definition? = none := by
  -- the lines of the program lead; what is left of them follows line by line
  induction lines generalizing lines' a b taken with
  | nil =>
    obtain ⟨rfl, -⟩ := List.append_eq_nil_iff.mp hlines
    obtain ⟨hscan, -⟩ := scan_single_nil fs base memorySize name taken a
    obtain ⟨hscan', hvisits'⟩ := scan_single_nil fs base memorySize name taken b
    rw [hscan, hscan', hvisits']
    exact ⟨h, fun v hv => by cases hv⟩
  | cons line lines ih =>
    have hpath : (a.process memorySize ⟨name, taken + 1, line⟩).2 = none := by
      rw [Assembly.process_eq, Assembly.execute_snd]
      refine hinclude (a, ⟨name, taken + 1, line⟩) ?_
      rw [visits_of_ok rfl]
      exact List.mem_cons_self
    obtain ⟨hscan, hvisits⟩ := scan_single_cons fs base hpath lines
    rw [hvisits] at hinclude
    have hrest := fun v hv => hinclude v (List.mem_cons_of_mem _ hv)
    have hresidue (text : Text) (htext : text = a.macros.residue line) :=
      Assembly.process_residue h hb memorySize ⟨name, taken + 1, line⟩ ⟨name, taken + 1, text⟩ rfl htext
    rw [Macros.residual] at hlines
    rw [hscan]
    cases lines' with
    | nil =>
      rcases htail with rfl | rfl
      · cases hlines
      obtain ⟨hline, hlines⟩ := List.cons.inj hlines
      obtain ⟨houtline, -, -⟩ := hresidue [] hline
      rw [Assembly.process_nil memorySize b rfl] at houtline
      cases lines with
      | cons line lines => cases hlines
      | nil =>
        obtain ⟨hscan, -⟩ := scan_single_nil fs base memorySize name (taken + 1) _
        obtain ⟨hscan', hvisits'⟩ := scan_single_nil fs base memorySize name taken b
        rw [hscan, hscan', hvisits']
        exact ⟨houtline, fun v hv => by cases hv⟩
    | cons line' lines' =>
      obtain ⟨hline', hlines'⟩ := List.cons.inj hlines
      obtain ⟨houtline, hpath', hmacros⟩ := hresidue line' hline'
      obtain ⟨hscan', hvisits'⟩ := scan_single_cons fs base (hpath'.trans hpath) lines'
      obtain ⟨hend, hvisit⟩ := ih houtline hmacros (by rw [Assembly.macros_process]; exact hlines') (taken + 1) hrest
      rw [hscan', hvisits']
      refine ⟨hend, fun v hv => ?_⟩
      rcases List.mem_cons.mp hv with rfl | hv
      · refine ⟨hb, ?_⟩
        rw [Assembly.definition?_statement, hb, hline']
        exact a.macros.definition?_residue line
      · exact hvisit v hv

end Session

/-- A program without carriage returns that includes no file gives the report of its residual program up to the texts of
lines, and the residual program defines no macro. -/
theorem Assembly.run_residual (fs : FileSystem) (memorySize : Nat) (base name program : Text)
    (hreturn : '\r' ∉ program)
    (hinclude : ∀ v ∈ visits fs memorySize (.ofText base name program), (v.1.statement v.2).inclusion? = none) :
    (run fs memorySize (.ofText base name program.residual)).untexted =
        (run fs memorySize (.ofText base name program)).untexted ∧
      ∀ v ∈ visits fs memorySize (.ofText base name program.residual),
        v.1.macros = .empty ∧ (v.1.statement v.2).definition? = none := by
  by_cases hlimit : memoryLimit < memorySize
  · rw [run_of_lt hlimit, run_of_lt hlimit, visits, if_pos hlimit]
    exact ⟨rfl, fun v hv => by cases hv⟩
  rw [visits_of_not_lt hlimit] at hinclude
  rw [run_of_not_lt hlimit, run_of_not_lt hlimit, visits_of_not_lt hlimit]
  obtain ⟨tail, htail, hlines⟩ := Line.ofText_residual hreturn
  obtain ⟨hscan, hvisits⟩ := Session.scan_residual fs base rfl rfl hlines htail name 0 hinclude
  refine ⟨?_, hvisits⟩
  rw [← finish_outline, ← finish_outline]
  exact congrArg (finish memorySize) hscan

/-- A name that is defined twice: the second definition is expanded by the first and makes the number of the first a
macro. Nothing is left of the last line. -/
theorem Assembly.run_residual_redefined :
    let program : Text := "start: .def N, 5\n.dw N ; N\n.def N, 6\njmp start\n.dw N\n.def X, N"
    let residual : Text := "start:\n.dw 5 ; 5\n\njmp start\n.dw 6\n"
    program.residual = residual ∧
    (run ⟨[], []⟩ 8 (.ofText "" "twice" residual)).untexted =
        (run ⟨[], []⟩ 8 (.ofText "" "twice" program)).untexted ∧
      ∀ v ∈ visits ⟨[], []⟩ 8 (.ofText "" "twice" residual),
        v.1.macros = .empty ∧ (v.1.statement v.2).definition? = none := by
  intro program residual
  have hresidual : program.residual = residual := by decide +kernel
  have hrun := run_residual ⟨[], []⟩ 8 "" "twice" program (by decide) (by decide +kernel)
  rw [hresidual] at hrun
  exact ⟨hresidual, hrun⟩

end R64
