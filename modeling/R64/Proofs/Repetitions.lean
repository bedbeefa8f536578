import R64.Proofs.Progress
/-!
Labels that stand more than once. The labels of a run are listed with their lines in the order of processing; a label
that stood before is a repetition, and its first line counts. Main statement: the symbols of a run are its labels
without repetitions, and each repetition has one warning with one note right behind it, besides which there are errors
only.
-/
namespace R64

/-- A label that stood before, with the line that it stands on now and the line that it stood on first. -/
structure Repetition where
  label : Text
  line : Line
  first : Line
  deriving DecidableEq

namespace Repetition

def warning (r : Repetition) : Diagnostic := ⟨.warn, .redefinedLabel r.label, some r.line⟩

def note (r : Repetition) : Diagnostic := ⟨.note, .definedHere, some r.first⟩

/-- The repetition that a label on a line is, behind the labels in `seen`. -/
def of? (seen : List (Text × Line)) (label : Text) (line : Line) : Option Repetition :=
  (seen.lookup label).map fun first => ⟨label, line, first⟩

/-- The repetitions in a list of labels behind those in `seen`. -/
def list : List (Text × Line) → List (Text × Line) → List Repetition
  | _, [] => []
  | seen, (label, line) :: rest => (of? seen label line).toList ++ list (seen ++ [(label, line)]) rest

theorem list_append (seen xs ys : List (Text × Line)) :
    list seen (xs ++ ys) = list seen xs ++ list (seen ++ xs) ys := by
  induction xs generalizing seen with
  | nil => simp [list]
  | cons x xs ih =>
    obtain ⟨label, line⟩ := x
    rw [List.cons_append, list, ih, list, List.append_assoc, List.append_assoc]
    rfl

theorem list_concat (xs : List (Text × Line)) (label : Text) (line : Line) :
    list [] (xs ++ [(label, line)]) = list [] xs ++ (of? xs label line).toList := by
  rw [list_append, List.nil_append, list, list, List.append_nil]

/-- A repetition stands behind the place where its label stands first. -/
theorem exists_of_mem_list {seen xs : List (Text × Line)} {r : Repetition} (h : r ∈ list seen xs) :
    ∃ before after, xs = before ++ (r.label, r.line) :: after ∧ (seen ++ before).lookup r.label = some r.first := by
  induction xs generalizing seen with
  | nil => cases h
  | cons x xs ih =>
    obtain ⟨label, line⟩ := x
    rw [list, List.mem_append, Option.mem_toList] at h
    rcases h with h | h
    · obtain ⟨first, hfirst, rfl⟩ := Option.map_eq_some_iff.mp h
      exact ⟨[], xs, rfl, by rwa [List.append_nil]⟩
    · obtain ⟨before, after, rfl, hfirst⟩ := ih h
      refine ⟨(label, line) :: before, after, rfl, ?_⟩
      rwa [List.append_assoc] at hfirst

end Repetition

theorem lookup_eq_none_iff_not_mem {xs : List (Text × Line)} {label : Text} :
    xs.lookup label = none ↔ label ∉ xs.map (·.1) := by
  rw [List.lookup_eq_none_iff, List.mem_map]
  constructor
  · rintro h ⟨x, hx, rfl⟩
    exact absurd (h x hx) (by simp)
  · intro h x hx
    rw [bne_iff_ne]
    rintro rfl
    exact h ⟨x, hx, rfl⟩

theorem mem_of_lookup_eq_some {xs : List (Text × Line)} {label : Text} {line : Line}
    (h : xs.lookup label = some line) : label ∈ xs.map (·.1) := by
  apply Classical.byContradiction
  intro hnot
  rw [lookup_eq_none_iff_not_mem.mpr hnot] at h
  cases h

theorem eraseDups_concat (names : List Text) (name : Text) :
    (names ++ [name]).eraseDups = if name ∈ names then names.eraseDups else names.eraseDups ++ [name] := by
  rw [List.eraseDups_append]
  split
  · next h => simp [List.removeAll, h]
  · next h => simp [List.removeAll, h, List.eraseDups_cons]

/-- Every label is new or a repetition. -/
theorem Repetition.length_list (xs : List (Text × Line)) :
    (list [] xs).length + (xs.map (·.1)).eraseDups.length = xs.length := by
  induction xs using List.reverseRec with
  | nil => rfl
  | append_singleton xs x ih =>
    obtain ⟨label, line⟩ := x
    rw [list_concat, List.map_append, List.map_singleton, eraseDups_concat, of?, List.length_append, List.length_append,
      List.length_singleton]
    cases hlookup : xs.lookup label with
    | none =>
      rw [if_neg (lookup_eq_none_iff_not_mem.mp hlookup), List.length_append]
      simp only [Option.map_none, Option.toList_none, List.length_nil, List.length_singleton]
      omega
    | some first =>
      rw [if_pos (mem_of_lookup_eq_some hlookup)]
      simp only [Option.map_some, Option.toList_some, List.length_singleton]
      omega

/-- Errors, and among them for each repetition its warning with its note right behind it. -/
inductive Remarks : List Repetition → List Diagnostic → Prop
  | nil : Remarks [] []
  | error {rs ds d} : d.level = .error → Remarks rs ds → Remarks rs (d :: ds)
  | repeated {rs ds} (r : Repetition) : Remarks rs ds → Remarks (r :: rs) (r.warning :: r.note :: ds)

namespace Remarks

variable {rs rs' : List Repetition} {ds ds' : List Diagnostic}

theorem append (h : Remarks rs ds) (k : Remarks rs' ds') : Remarks (rs ++ rs') (ds ++ ds') := by
  induction h with
  | nil => exact k
  | error hd _ ih => exact .error hd ih
  | repeated r _ ih => exact .repeated r ih

theorem of_errors (h : ∀ d ∈ ds, d.level = .error) : Remarks [] ds := by
  induction ds with
  | nil => exact .nil
  | cons d ds ih => exact .error (h d List.mem_cons_self) (ih fun e he => h e (List.mem_cons_of_mem d he))

theorem filter_not_isError (h : Remarks rs ds) :
    ds.filter (fun d => !d.isError) = rs.flatMap fun r => [r.warning, r.note] := by
  induction h with
  | nil => rfl
  | error hd _ ih =>
    rw [List.filter_cons_of_neg, ih]
    simp [Diagnostic.isError, hd]
  | repeated r _ ih =>
    rw [List.filter_cons_of_pos rfl, List.filter_cons_of_pos rfl, ih]
    rfl

theorem countP_warn (h : Remarks rs ds) : ds.countP (fun d => d.level == .warn) = rs.length := by
  induction h with
  | nil => rfl
  | error hd _ ih =>
    rw [List.countP_cons_of_neg, ih]
    simp [hd]
  | repeated r _ ih =>
    rw [List.countP_cons_of_pos rfl, List.countP_cons_of_neg, ih, List.length_cons]
    simp [Repetition.note]

/-- Right behind a warning stands its note. -/
theorem note_behind (h : Remarks rs ds) {i : Nat} {d : Diagnostic} (hd : ds[i]? = some d) (hwarn : d.level = .warn) :
    ∃ r ∈ rs, d = r.warning ∧ ds[i + 1]? = some r.note := by
  induction h generalizing i with
  | nil => cases hd
  | error herror _ ih =>
    cases i with
    | zero =>
      obtain rfl := Option.some.inj hd
      rw [herror] at hwarn
      cases hwarn
    | succ i => exact ih hd
  | repeated r _ ih =>
    match i with
    | 0 =>
      obtain rfl := Option.some.inj hd
      exact ⟨r, List.mem_cons_self, rfl, rfl⟩
    | 1 =>
      obtain rfl := Option.some.inj hd
      cases hwarn
    | i + 2 =>
      obtain ⟨s, hs, heq, hnote⟩ := ih hd
      exact ⟨s, List.mem_cons_of_mem r hs, heq, hnote⟩

end Remarks

theorem CodeBuffer.definitions_replay_of_appends {ops : List Operation} (h : ∀ op ∈ ops, op.appends) (b : CodeBuffer) :
    (b.replay ops).definitions = b.definitions := by
  induction ops generalizing b with
  | nil => rfl
  | cons op ops ih =>
    rw [replay_cons, ih fun x hx => h x (List.mem_cons_of_mem op hx)]
    have happends := h op List.mem_cons_self
    cases op with
    | push w => rfl
    | append ws => rfl
    | fillTo length => rw [apply, fillTo?_eq_grow]
    | refer label line => rfl
    | define label origin line => cases happends
    | link => cases happends

namespace Assembly

/-- The labels on the lines that are processed, each with its line. -/
def occurrences (lines : List (Assembly × Line)) : List (Text × Line) :=
  lines.flatMap fun v => (v.1.labels v.2).map fun label => (label, v.2)

/-- `a` has met the labels in `seen` and no others. -/
structure HasMet (seen : List (Text × Line)) (a : Assembly) : Prop where
  symbols : a.code.definitions.toList.map (·.1) = (seen.map (·.1)).eraseDups
  first : ∀ label, (a.code.definition? label).map Definition.line = seen.lookup label
  remarks : Remarks (Repetition.list [] seen) a.diagnostics.toList

variable {seen : List (Text × Line)} {a b : Assembly}

theorem HasMet.label (h : HasMet seen a) (line : Line) (name : Text) :
    HasMet (seen ++ [(name, line)]) (Assembly.label line a name) := by
  have hfirst := h.first name
  refine ⟨?_, ?_, ?_⟩
  · rw [code_label, CodeBuffer.apply, CodeBuffer.define_fst, List.map_append, List.map_singleton, eraseDups_concat,
      ← h.symbols]
    cases hearlier : a.code.definition? name with
    | none =>
      rw [hearlier] at hfirst
      rw [if_pos rfl, if_neg (lookup_eq_none_iff_not_mem.mp hfirst.symm)]
      simp
    | some earlier =>
      rw [hearlier] at hfirst
      rw [if_neg (Option.some_ne_none earlier), if_pos (mem_of_lookup_eq_some hfirst.symm)]
  · intro label
    rw [code_label, CodeBuffer.definition?_apply, Option.map_or, h.first, List.lookup_append]
    congr 1
    by_cases hname : name = label
    · simp [CodeBuffer.Operation.definition?, hname]
    · simp [CodeBuffer.Operation.definition?, hname, beq_false_of_ne (Ne.symm hname), List.lookup_cons]
  · rw [diagnostics_label, Repetition.list_concat]
    refine h.remarks.append ?_
    rw [Repetition.of?, ← hfirst, labelDiagnostics]
    cases a.code.definition? name with
    | none => exact .nil
    | some earlier => exact .repeated ⟨name, line, earlier.line⟩ .nil

theorem HasMet.labels (h : HasMet seen a) (line : Line) (names : List Text) :
    HasMet (seen ++ names.map fun name => (name, line)) (names.foldl (Assembly.label line) a) := by
  induction names generalizing seen a with
  | nil => rwa [List.map_nil, List.append_nil]
  | cons name names ih =>
    have hrest := ih (h.label line name)
    rwa [List.append_assoc] at hrest

/-- Where no label is met, only errors are reported. -/
theorem HasMet.of_errors (h : HasMet seen a) (hdefinitions : b.code.definitions = a.code.definitions)
    {ds : List Diagnostic} (hdiagnostics : b.diagnostics.toList = a.diagnostics.toList ++ ds)
    (herrors : ∀ d ∈ ds, d.level = .error) : HasMet seen b := by
  refine ⟨?_, ?_, ?_⟩
  · rw [hdefinitions, h.symbols]
  · intro label
    rw [CodeBuffer.definition?, hdefinitions]
    exact h.first label
  · rw [hdiagnostics, ← List.append_nil (Repetition.list [] seen)]
    exact h.remarks.append (.of_errors herrors)

theorem HasMet.report (h : HasMet seen a) {ds : List Diagnostic} (herrors : ∀ d ∈ ds, d.level = .error) :
    HasMet seen (a.report ds) :=
  h.of_errors rfl (by simp [Assembly.report]) herrors

theorem HasMet.execute (h : HasMet seen a) (memorySize : Nat) (line : Line) (s : Statement) :
    HasMet seen (a.execute memorySize line s).1 := by
  obtain ⟨faults, -, hfaults⟩ := reports_execute memorySize a line s
  refine h.of_errors ?_ hfaults ?_
  · rw [code_execute, CodeBuffer.definitions_replay_of_appends (appends_of_mem_emission memorySize a line s)]
  · intro d hd
    obtain ⟨fault, -, rfl⟩ := List.mem_map.mp hd
    rfl

theorem HasMet.process (h : HasMet seen a) (memorySize : Nat) (line : Line) :
    HasMet (seen ++ (a.labels line).map fun label => (label, line)) (a.process memorySize line).1 := by
  rw [process_eq]
  exact (h.labels line (a.labels line)).execute memorySize line (a.statement line)

end Assembly

namespace Session

open Assembly (HasMet occurrences)

variable {seen : List (Text × Line)} {s : Session}

theorem hasMet_handle_ok (h : HasMet seen s.assembly) (fs : FileSystem) (memorySize : Nat) (line : Line) :
    HasMet (seen ++ (s.assembly.labels line).map fun label => (label, line))
      (s.handle fs memorySize (.ok line)).assembly := by
  have hprocess := h.process memorySize line
  rw [handle_ok]
  split
  · exact hprocess
  · next path _ =>
    rcases assembly_resolve { s with assembly := (s.assembly.process memorySize line).1 } line path
      (fs.lookup (s.source.target path)) with hresolve | hresolve
    · rw [hresolve]
      exact hprocess
    · rw [hresolve]
      exact hprocess.report (by simp [Diagnostic.error])

/-- At the end of a scan the labels of its lines have been met. -/
theorem hasMet_scan (h : HasMet seen s.assembly) (fs : FileSystem) (memorySize : Nat) :
    HasMet (seen ++ occurrences (s.visits fs memorySize)) (s.scan fs memorySize) := by
  induction s using scan_induction fs memorySize generalizing seen with
  | done s source hnext =>
    rw [scan_of_none hnext, visits_of_none hnext, occurrences, List.flatMap_nil, List.append_nil]
    exact h
  | take s item source hnext ih =>
    rw [scan_of_some hnext]
    cases item with
    | error fault =>
      rw [visits_of_error hnext]
      exact ih (h.report (by simp [Diagnostic.error]))
    | ok line =>
      have hrest := ih (hasMet_handle_ok (s := { s with source }) h fs memorySize line)
      rw [visits_of_ok hnext, occurrences, List.flatMap_cons, ← List.append_assoc]
      exact hrest

end Session

namespace Assembly

theorem hasMet_empty : HasMet [] empty := ⟨rfl, fun _ => rfl, .nil⟩

theorem HasMet.finish {seen : List (Text × Line)} {a : Assembly} (h : HasMet seen a) (memorySize : Nat) :
    Remarks (Repetition.list [] seen) (a.finish memorySize).diagnostics.toList := by
  rw [diagnostics_finish, List.append_assoc, ← List.append_nil (Repetition.list [] seen)]
  refine h.remarks.append (.of_errors ?_)
  intro d hd
  rcases List.mem_append.mp hd with hd | hd
  · obtain ⟨r, -, rfl⟩ := List.mem_map.mp hd
    rfl
  · split at hd
    · obtain rfl := List.mem_singleton.mp hd
      rfl
    · cases hd

variable (fs : FileSystem) (memorySize : Nat) (source : SourceStack)

theorem remarks_run : Remarks (Repetition.list [] (occurrences (visits fs memorySize source)))
    (run fs memorySize source).diagnostics.toList := by
  by_cases hlimit : memoryLimit < memorySize
  · rw [run_of_lt hlimit, visits, if_pos hlimit]
    exact .error rfl .nil
  · rw [run_of_not_lt hlimit, visits_of_not_lt hlimit]
    exact (Session.hasMet_scan (s := ⟨source, empty⟩) hasMet_empty fs memorySize).finish memorySize

theorem map_symbols_run : (run fs memorySize source).symbols.toList.map (·.1) =
    ((occurrences (visits fs memorySize source)).map (·.1)).eraseDups := by
  by_cases hlimit : memoryLimit < memorySize
  · rw [run_of_lt hlimit, visits, if_pos hlimit]
    rfl
  · have hscan := Session.hasMet_scan (s := ⟨source, empty⟩) hasMet_empty fs memorySize
    rw [run_of_not_lt hlimit, visits_of_not_lt hlimit, ← List.nil_append (occurrences _), ← hscan.symbols]
    simp [finish, CodeBuffer.symbols, Function.comp_def]

theorem nodup_symbols_run : ((run fs memorySize source).symbols.toList.map (·.1)).Nodup := by
  by_cases hlimit : memoryLimit < memorySize
  · rw [run_of_lt hlimit]
    exact List.nodup_nil
  · have hwellFormed : (Session.scan fs memorySize ⟨source, empty⟩).code.WellFormed := by
      rw [Session.code_scan]
      exact CodeBuffer.empty_wellFormed.replay _
    rw [run_of_not_lt hlimit]
    simpa [finish, CodeBuffer.symbols, Function.comp_def] using hwellFormed.distinct

/-- The symbols of a run are its labels in order of first occurrence, each once, and there are as many warnings as
other occurrences. A warning tells of a label at the line that repeats it, and the note right behind it points to the
line where the label stands first; apart from these there are errors only, and whether a run succeeds depends on the
errors alone. -/
theorem run_repetitions (fs : FileSystem) (memorySize : Nat) (source : SourceStack) :
    let r := run fs memorySize source
    let ds := r.diagnostics.toList
    let labels := occurrences (visits fs memorySize source)
    (r.symbols.toList.map (·.1) = (labels.map (·.1)).eraseDups ∧ (r.symbols.toList.map (·.1)).Nodup) ∧
    r.count .warn + r.symbols.size = labels.length ∧
    (∀ i d, ds[i]? = some d → d.level = .warn →
      ∃ before name line after first, labels = before ++ (name, line) :: after ∧ before.lookup name = some first ∧
        d = ⟨.warn, .redefinedLabel name, some line⟩ ∧ ds[i + 1]? = some ⟨.note, .definedHere, some first⟩) ∧
    ds.filter (fun d => !d.isError) = (Repetition.list [] labels).flatMap (fun r => [r.warning, r.note]) ∧
    (r.image.isSome ↔ ∀ d ∈ ds, d.level = .warn ∨ d.level = .note) := by
  intro r ds labels
  have hremarks : Remarks (Repetition.list [] labels) ds := remarks_run fs memorySize source
  have hsymbols : r.symbols.toList.map (·.1) = (labels.map (·.1)).eraseDups := map_symbols_run fs memorySize source
  refine ⟨⟨hsymbols, nodup_symbols_run fs memorySize source⟩, ?_, ?_, hremarks.filter_not_isError, ?_⟩
  · have hwarn : r.count .warn = (Repetition.list [] labels).length := by
      rw [Report.count, ← Array.countP_toList]
      exact hremarks.countP_warn
    have hsize : r.symbols.size = (labels.map (·.1)).eraseDups.length := by
      rw [← hsymbols, List.length_map, Array.length_toList]
    rw [hwarn, hsize]
    exact Repetition.length_list labels
  · intro i d hd hwarn
    obtain ⟨repetition, hmem, heq, hnote⟩ := hremarks.note_behind hd hwarn
    obtain ⟨before, after, hlabels, hfirst⟩ := Repetition.exists_of_mem_list hmem
    exact ⟨before, repetition.label, repetition.line, after, repetition.first, hlabels, hfirst, heq, hnote⟩
  · refine (isSome_image_run fs memorySize source).trans ?_
    refine forall_congr' fun d => ?_
    rw [show d ∈ ds ↔ d ∈ r.diagnostics from Array.mem_toList_iff]
    cases d.level <;> simp [r]

/-- A label that stands twice on one line and once more on the next. -/
theorem run_repetitions_twice :
    let source := SourceStack.ofText "" "twice" "a: b: a:\na:"
    let r := run ⟨[], []⟩ 8 source
    let label : Text := "a"
    let again : Diagnostic := ⟨.warn, .redefinedLabel label, some ⟨"twice", 2, "a:"⟩⟩
    r.count .warn = 2 ∧ r.diagnostics.toList[2]? = some again ∧
    ∃ before line after first, occurrences (visits ⟨[], []⟩ 8 source) = before ++ (label, line) :: after ∧
      before.lookup label = some first ∧ again.line = some line ∧
      r.diagnostics.toList[3]? = some ⟨.note, .definedHere, some first⟩ := by
  intro source r label again
  obtain ⟨-, -, hnote, -⟩ := run_repetitions ⟨[], []⟩ 8 source
  have hagain : r.diagnostics.toList[2]? = some again := by decide +kernel
  obtain ⟨before, name, line, after, first, hlabels, hfirst, heq, hbehind⟩ := hnote 2 again hagain rfl
  obtain ⟨-, hfault, hline⟩ := Diagnostic.mk.inj heq
  have hname : label = name := Fault.redefinedLabel.inj hfault
  rw [← hname] at hlabels hfirst
  exact ⟨by decide +kernel, hagain, before, line, after, first, hlabels, hfirst, hline, hbehind⟩

end Assembly

end R64
