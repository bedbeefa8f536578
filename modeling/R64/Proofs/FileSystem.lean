import R64.Source.FileSystem
/-!
Putting an entry into a file system. Main statements: when a file gets another content, every path leads where it led
before, and finds the same there unless it leads to the file; and a file that is written by a path is found by it.
-/
namespace R64.FileSystem

theorem lookup_replaced (l here : Location) (e : Entry) (entries : List (Location × Entry)) :
    (entries.map fun x => if x.1 = l then (l, e) else x).lookup here =
      if here = l then (entries.lookup l).map fun _ => e else entries.lookup here := by
  induction entries with
  | nil => simp
  | cons x xs ih =>
    obtain ⟨l', e'⟩ := x
    by_cases hl : l' = l
    · subst hl
      by_cases hhere : here = l'
      · simp [hhere]
      · have hbeq : (here == l') = false := beq_eq_false_iff_ne.mpr hhere
        simp [List.lookup_cons, ih, hhere, hbeq]
    · by_cases hhere : here = l
      · subst hhere
        have hbeq : (here == l') = false := beq_eq_false_iff_ne.mpr (Ne.symm hl)
        simp [List.lookup_cons, ih, hl, hbeq]
      · simp [List.lookup_cons, ih, hl, hhere]

theorem any_eq_isSome_lookup (l : Location) (entries : List (Location × Entry)) :
    (entries.any fun x => x.1 == l) = (entries.lookup l).isSome := by
  induction entries with
  | nil => rfl
  | cons x xs ih =>
    rw [List.any_cons, ih, List.lookup_cons, BEq.comm]
    cases l == x.1 <;> rfl

/-- What was put somewhere is there, and everything else is where it was. -/
theorem entry?_put (fs : FileSystem) (l here : Location) (e : Entry) :
    FileSystem.entry? (fs.put l e) here = if here = l then some e else fs.entry? here := by
  unfold put entry?
  rw [any_eq_isSome_lookup]
  split
  · next hsome =>
    obtain ⟨old, hold⟩ := Option.isSome_iff_exists.mp hsome
    rw [lookup_replaced, hold]
    rfl
  · next hnone =>
    have hlookup : fs.entries.lookup l = none := Option.not_isSome_iff_eq_none.mp hnone
    rw [List.lookup_append]
    by_cases hhere : here = l
    · simp [hhere, hlookup]
    · have hbeq : (here == l) = false := beq_eq_false_iff_ne.mpr hhere
      simp [hhere, hbeq, List.lookup_cons]

theorem workingDirectory_put (fs : FileSystem) (l : Location) (e : Entry) :
    (fs.put l e).workingDirectory = fs.workingDirectory := by
  unfold put
  split <;> rfl

theorem start_put (fs : FileSystem) (l : Location) (e : Entry) (path : Text) :
    (fs.put l e).start path = fs.start path := by
  rw [start, start, workingDirectory_put]

variable {fs : FileSystem} {l : Location} {old new : List UInt8}

/-- Where one part of a path leads. -/
def step? (fs : FileSystem) (here : Location) (part : Text) : Option Location :=
  if !fs.isDirectory here then none
  else if part = [] ∨ part = "." then some here
  else if part = ".." then some here.dropLast
  else if nameLimit < part.byteLength then none
  else some (here ++ [part])

theorem walk_cons (fs : FileSystem) (here : Location) (part : Text) (parts : List Text) :
    fs.walk here (part :: parts) = (fs.step? here part).bind fun next => fs.walk next parts := by
  rw [walk, step?]
  split
  · rfl
  · split
    · rfl
    · split
      · rfl
      · split <;> rfl

theorem isDirectory_put_of_not (h : fs.isDirectory l = false) (here : Location) :
    (fs.put l (.file new)).isDirectory here = fs.isDirectory here := by
  rw [isDirectory, entry?_put]
  split
  · next hhere =>
    rw [hhere, h]
    rfl
  · rfl

theorem isDirectory_of_file (h : fs.entry? l = some (.file old)) : fs.isDirectory l = false := by
  rw [isDirectory, h]
  rfl

theorem step?_put_of_not (h : fs.isDirectory l = false) (here : Location) (part : Text) :
    (fs.put l (.file new)).step? here part = fs.step? here part := by
  rw [step?, isDirectory_put_of_not h, step?]

/-- Following a path passes through directories only, so that the content of a file has no influence on the way. -/
theorem walk_put_file (h : fs.entry? l = some (.file old)) (here : Location) (parts : List Text) :
    (fs.put l (.file new)).walk here parts =
      (fs.walk here parts).map fun x => (x.1, if x.1 = l then .file new else x.2) := by
  induction parts generalizing here with
  | nil =>
    rw [walk, walk, entry?_put, Option.map_map]
    split
    · next hhere => simp [hhere, h]
    · next hhere => simp [Function.comp_def, hhere]
  | cons part parts ih =>
    rw [walk_cons, step?_put_of_not (isDirectory_of_file h), walk_cons]
    cases fs.step? here part with
    | none => rfl
    | some next => exact ih next

theorem lookup_put_file (h : fs.entry? l = some (.file old)) (path : Text) :
    (fs.put l (.file new)).lookup path =
      match fs.lookup path with
      | .nowhere => .nowhere
      | .barred here => .barred here
      | .found here e => .found here (if here = l then .file new else e) := by
  have hlocate : (fs.put l (.file new)).locate? path =
      (fs.locate? path).map fun x => (x.1, if x.1 = l then .file new else x.2) := by
    unfold locate?
    rw [start_put, walk_put_file h]
    split <;> rfl
  rw [lookup, hlocate, lookup]
  cases fs.locate? path with
  | none => rfl
  | some x => by_cases hshort : isShort path <;> simp [hshort]

theorem entry?_of_walk {here : Location} {parts : List Text} {e : Entry} (h : fs.walk here parts = some (l, e)) :
    fs.entry? l = some e := by
  induction parts generalizing here with
  | nil =>
    obtain ⟨e', he, heq⟩ := Option.map_eq_some_iff.mp h
    cases heq
    exact he
  | cons part parts ih =>
    rw [walk_cons] at h
    obtain ⟨next, -, hrest⟩ := Option.bind_eq_some_iff.mp h
    exact ih hrest

theorem entry?_of_found {path : Text} {e : Entry} (h : fs.lookup path = .found l e) : fs.entry? l = some e := by
  unfold lookup at h
  split at h
  · cases h
  · next hlocate =>
    split at h
    · cases h
      unfold locate? at hlocate
      split at hlocate
      · exact entry?_of_walk hlocate
      · cases hlocate
    · cases h

/-- A file can be written by a path to a location: the path names it, and no directory is there. -/
def CanWrite (fs : FileSystem) (path : Text) (l : Location) : Prop :=
  fs.target? path = some l ∧ fs.isDirectory l = false

theorem create?_eq_some_iff {fs' : FileSystem} {path : Text} {bytes : List UInt8} :
    fs.create? path bytes = some fs' ↔ ∃ l, fs.CanWrite path l ∧ fs' = fs.put l (.file bytes) := by
  unfold create? CanWrite
  constructor
  · intro h
    obtain ⟨l, htarget, hput⟩ := Option.bind_eq_some_iff.mp h
    split at hput
    · cases hput
    · next hfree => exact ⟨l, ⟨htarget, Bool.eq_false_iff.mpr hfree⟩, (Option.some.inj hput).symm⟩
  · rintro ⟨l, ⟨htarget, hfree⟩, rfl⟩
    rw [htarget, Option.bind_some, hfree]
    rfl

theorem create?_eq_none_iff {path : Text} {bytes : List UInt8} :
    fs.create? path bytes = none ↔ ∀ l, ¬ fs.CanWrite path l := by
  rw [Option.eq_none_iff_forall_ne_some]
  constructor
  · intro h l hl
    exact h _ (create?_eq_some_iff.mpr ⟨l, hl, rfl⟩)
  · intro h fs' hsome
    obtain ⟨l, hl, -⟩ := create?_eq_some_iff.mp hsome
    exact h l hl

/-- A way to a directory does not pass the place of a file. -/
theorem walk_put_of_not (h : fs.isDirectory l = false) {here parent : Location} {parts : List Text}
    (hwalk : fs.walk here parts = some (parent, .directory)) :
    (fs.put l (.file new)).walk here parts = some (parent, .directory) := by
  induction parts generalizing here with
  | nil =>
    obtain ⟨e, he, heq⟩ := Option.map_eq_some_iff.mp hwalk
    obtain ⟨rfl, rfl⟩ := Prod.mk.inj heq
    have hne : here ≠ l := by
      rintro rfl
      rw [isDirectory, he] at h
      cases h
    rw [walk, entry?_put, if_neg hne, he]
    rfl
  | cons part parts ih =>
    rw [walk_cons] at hwalk ⊢
    obtain ⟨next, hnext, hrest⟩ := Option.bind_eq_some_iff.mp hwalk
    rw [step?_put_of_not h, hnext]
    exact ih hrest

/-- Names that lead from a directory to something in it. -/
structure IsName (name : Text) : Prop where
  nonempty : name ≠ []
  here : name ≠ "."
  above : name ≠ ".."
  short : name.byteLength ≤ nameLimit

theorem IsName.step? {name : Text} (h : IsName name) {here : Location} (hhere : fs.isDirectory here) :
    fs.step? here name = some (here ++ [name]) := by
  rw [FileSystem.step?, hhere, Bool.not_true, if_neg Bool.false_ne_true, if_neg (not_or.mpr ⟨h.nonempty, h.here⟩),
    if_neg h.above, if_neg (Nat.not_lt.mpr h.short)]

theorem walk_concat {here parent : Location} {parts : List Text} {name : Text}
    (h : fs.walk here parts = some (parent, .directory)) (hname : IsName name) :
    fs.walk here (parts ++ [name]) = (fs.entry? (parent ++ [name])).map fun e => (parent ++ [name], e) := by
  induction parts generalizing here with
  | nil =>
    obtain ⟨e, he, heq⟩ := Option.map_eq_some_iff.mp h
    obtain ⟨rfl, rfl⟩ := Prod.mk.inj heq
    have hdirectory : fs.isDirectory here := by
      rw [isDirectory, he]
      rfl
    rw [List.nil_append, walk_cons, hname.step? hdirectory]
    rfl
  | cons part parts ih =>
    rw [walk_cons] at h
    obtain ⟨next, hnext, hrest⟩ := Option.bind_eq_some_iff.mp h
    rw [List.cons_append, walk_cons, hnext]
    exact ih hrest

/-- A path names a place by the way to a directory and a name in it. -/
theorem of_target? {path : Text} (h : fs.target? path = some l) :
    isUsable path ∧ isShort path ∧ ∃ parts name parent, path.split '/' = parts ++ [name] ∧ IsName name ∧
      fs.walk (fs.start path) parts = some (parent, .directory) ∧ l = parent ++ [name] := by
  unfold target? at h
  split at h
  · cases h
  · next name reversed hsplit =>
    split at h
    · cases h
    · next hname =>
      simp only [Bool.or_eq_true, Bool.not_eq_true', beq_iff_eq, decide_eq_true_eq, not_or, Bool.not_eq_false,
        Nat.not_lt] at hname
      obtain ⟨⟨⟨⟨⟨husable, hshort⟩, hnonempty⟩, hhere⟩, habove⟩, hlength⟩ := hname
      obtain ⟨⟨parent, e⟩, hwalk, hdirectory⟩ := Option.bind_eq_some_iff.mp h
      obtain ⟨rfl, hl⟩ := Option.ite_none_right_eq_some.mp hdirectory
      have hparts : path.split '/' = reversed.reverse ++ [name] := by
        rw [← List.reverse_cons, ← hsplit, List.reverse_reverse]
      exact ⟨husable, hshort, _, name, parent, hparts, ⟨hnonempty, hhere, habove, hlength⟩, hwalk,
        (Option.some.inj hl).symm⟩

/-- A file that is written by a path is found by it. -/
theorem lookup_put_of_canWrite {path : Text} (h : fs.CanWrite path l) :
    (fs.put l (.file new)).lookup path = .found l (.file new) := by
  obtain ⟨htarget, hfree⟩ := h
  obtain ⟨husable, hshort, parts, name, parent, hparts, hname, hwalk, rfl⟩ := of_target? htarget
  rw [lookup, locate?, if_pos husable, start_put, hparts, walk_concat (walk_put_of_not hfree hwalk) hname, entry?_put,
    if_pos rfl]
  exact if_pos hshort

end R64.FileSystem
