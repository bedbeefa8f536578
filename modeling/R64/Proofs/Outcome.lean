import R64.Command.Basic
import R64.Proofs.FileSystem
import R64.Proofs.Formats
import R64.Proofs.Run
/-!
What a command leaves behind. Its options always have a memory size that a run accepts, so that an image is never
refused for its size and never empty. Main statement: a command either writes the image of its run, in one file that is
read back as the image, and exits with zero, or leaves every file as it was.
-/
namespace R64

namespace Options

variable {α β : Type}

/-- Whatever a reading gives satisfies `P`. -/
def Ensures (P : α → Prop) (x : Except Halt α) : Prop := ∀ a, x = .ok a → P a

theorem Ensures.error (P : α → Prop) (halt : Halt) : Ensures P (.error halt) := by
  intro a h
  cases h

theorem Ensures.ok {P : α → Prop} {a : α} (ha : P a) : Ensures P (.ok a) := by
  intro b h
  cases h
  exact ha

theorem Ensures.bind {P : α → Prop} {Q : β → Prop} {x : Except Halt α} {f : α → Except Halt β} (hx : Ensures P x)
    (hf : ∀ a, P a → Ensures Q (f a)) : Ensures Q (x.bind f) := by
  cases x with
  | error halt => exact .error Q halt
  | ok a => exact hf a (hx a rfl)

theorem Ensures.map {P : α → Prop} {Q : β → Prop} {x : Except Halt α} {f : α → β} (hx : Ensures P x)
    (hf : ∀ a, P a → Q (f a)) : Ensures Q (x.map f) := by
  cases x with
  | error halt => exact .error Q halt
  | ok a => exact .ok (hf a (hx a rfl))

def Admissible (n : Nat) : Prop := 1 ≤ n ∧ n ≤ Assembly.memoryLimit

theorem admissible_of_memorySize? {s : Text} {n : Nat} (h : memorySize? s = some n) : Admissible n := by
  rw [memorySize?, Option.filter_eq_some_iff] at h
  have hrange := of_decide_eq_true h.2
  exact hrange

/-- A memory size in the draft, if there is one, is admissible. -/
def Draft.Sound (d : Draft) : Prop := ∀ n, d.memorySize = some n → Admissible n

namespace Draft

variable {d : Draft}

theorem sound_path (h : d.Sound) (s : Text) : Ensures Sound (d.path s) := by
  unfold path
  split
  · exact .ok h
  · exact .error _ _

theorem sound_setFormat (h : d.Sound) (value : Text) : Ensures Sound (d.setFormat value) := by
  unfold setFormat
  split
  · exact .ok h
  · exact .error _ _

theorem sound_setMemorySize (value : Text) : Ensures Sound (d.setMemorySize value) := by
  unfold setMemorySize
  split
  · next n _ hvalue =>
    apply Ensures.ok
    intro m hm
    obtain rfl := Option.some.inj hm
    exact admissible_of_memorySize? hvalue
  · exact .error _ _

theorem sound_setDump (h : d.Sound) : Ensures Sound d.setDump := by
  unfold setDump
  split
  · exact .error _ _
  · exact .ok h

theorem sound_paths (h : d.Sound) (args : List Text) : Ensures Sound (args.foldlM path d) := by
  induction args generalizing d with
  | nil => exact .ok h
  | cons s args ih =>
    rw [List.foldlM_cons]
    exact (sound_path h s).bind fun d hd => ih hd

end Draft

theorem sound_set {d : Draft} (h : d.Sound) (v : Valued) (value : Text) : Ensures Draft.Sound (v.set d value) := by
  cases v with
  | format => exact Draft.sound_setFormat h value
  | memorySize => exact Draft.sound_setMemorySize value

theorem sound_short {d : Draft} (h : d.Sound) (letters : Text) : Ensures (·.draft.Sound) (short d letters) := by
  induction letters generalizing d with
  | nil => exact .ok h
  | cons c rest ih =>
    rw [short]
    split
    · exact (Draft.sound_setDump h).bind fun d hd => ih hd
    · split
      · exact .error _ _
      · split
        · split
          · exact .ok h
          · exact (Draft.sound_setFormat h _).map fun d hd => hd
        · exact .error _ _

theorem sound_long {d : Draft} (h : d.Sound) (body : Text) : Ensures (·.draft.Sound) (long d body) := by
  unfold long
  dsimp only
  split
  · exact (sound_set h _ _).map fun d hd => hd
  · exact .ok h
  · exact .error _ _
  · split
    · exact (Draft.sound_setDump h).map fun d hd => hd
    · split
      · exact .error _ _
      · exact .error _ _

theorem sound_option {d : Draft} (h : d.Sound) (s : Text) : Ensures (·.draft.Sound) (option d s) := by
  unfold option
  split
  · exact sound_long h _
  · exact sound_short h _
  · exact .error _ _

theorem sound_read {p : Progress} (h : p.draft.Sound) (args : List Text) : Ensures Draft.Sound (read p args) := by
  induction args generalizing p with
  | nil =>
    obtain ⟨d, awaits⟩ := p
    cases awaits with
    | none => exact .ok h
    | some v => exact .error _ _
  | cons s rest ih =>
    obtain ⟨d, awaits⟩ := p
    cases awaits with
    | some v =>
      rw [read]
      split
      · exact .error _ _
      · exact (sound_set h v s).bind fun d hd => ih hd
    | none =>
      rw [read]
      split
      · exact Draft.sound_paths h rest
      · split
        · exact (sound_option h s).bind fun p hp => ih hp
        · exact (Draft.sound_path h s).bind fun d hd => ih hd

/-- The options of a command always have a memory size that a run accepts. -/
theorem admissible_of_parse {args : List Text} {o : Options} (h : parse args = .ok o) : Admissible o.memorySize := by
  have hempty : Draft.Sound .empty := by
    intro n hn
    cases hn
  have hparse : Ensures (fun o => Admissible o.memorySize) (parse args) := by
    refine (sound_read hempty (args.map normalise)).bind ?_
    intro d hd
    split
    · exact .error _ _
    · apply Ensures.ok
      dsimp only
      cases hsize : d.memorySize with
      | none => exact ⟨by decide, by decide⟩
      | some n => exact hd n hsize
  exact hparse o h

end Options

namespace Machine

variable (machine : Machine)

theorem run_print (lines : List Text) :
    (host.print lines).run machine = pure ((), { machine with printed := machine.printed ++ lines }) := rfl

theorem run_workingPath : host.workingPath.run machine = pure (machine.files.workingPath, machine) := rfl

theorem run_find (path : Text) : (host.find path).run machine = pure (machine.files.lookup path, machine) := rfl

theorem run_runM (memorySize : Nat) (source : SourceStack) :
    (Assembly.runM (host.scan memorySize) memorySize source).run machine =
      pure (Assembly.run machine.files memorySize source, machine) := by
  rw [Assembly.run_eq, Assembly.runM]
  split <;> rfl

theorem run_write (path : Text) (bytes : List UInt8) :
    (host.write path bytes).run machine =
      match machine.files.create? path bytes with
      | none => pure (some (.fileCreate path), machine)
      | some files => pure (none, { machine with files }) := by
  cases h : machine.files.create? path bytes <;> simp [host, h]

end Machine

namespace Command

/-- What a command does on a machine that consists of its files. -/
theorem perform_eq (fs : FileSystem) (o : Options) :
    let path := o.format.destination o.destination
    perform fs o =
      match Assembly.runFile fs o.memorySize o.source with
      | .error fault => ⟨1, some (o.opening ++ Options.complaint fault), fs⟩
      | .ok r =>
        match r.image with
        | none => ⟨1, some (o.opening ++ o.account r), fs⟩
        | some image =>
          match fs.create? path (o.format.encode image.toList) with
          | none =>
            ⟨1, some (o.opening ++ o.account r ++ [Options.exporting] ++ Options.complaint (.fileCreate path)), fs⟩
          | some fs' => ⟨0, some (o.opening ++ o.account r ++ [Options.exporting] ++ [Options.written path]), fs'⟩ := by
  intro path
  rw [Assembly.runFile, SourceStack.openPrimary, perform, performM]
  simp only [StateT.run_bind, Machine.run_print, Machine.run_workingPath, Machine.run_find, pure_bind,
    List.nil_append]
  cases SourceStack.ofPrimary fs.workingPath o.source
      (fs.lookup (Path.join fs.workingPath (Text.unquote o.source))) with
  | error fault => rfl
  | ok source =>
    dsimp only [Except.map]
    simp only [StateT.run_bind, Machine.run_print, Machine.run_runM, pure_bind]
    cases (Assembly.run fs o.memorySize source).image with
    | none => rfl
    | some image =>
      simp only [StateT.run_bind, Machine.run_print, Machine.run_write, pure_bind, Format.saveM]
      cases fs.create? path (o.format.encode image.toList) <;> rfl

/-- How a command ends: the source cannot be opened, the run has no image, the file cannot be created, or the image is
written. -/
theorem perform_cases (fs : FileSystem) (o : Options) :
    ((perform fs o).exit = 1 ∧ (perform fs o).files = fs ∧
      ((∃ fault, SourceStack.openPrimary fs o.source = .error fault) ∨
        ∃ source, SourceStack.openPrimary fs o.source = .ok source ∧
          ((Assembly.run fs o.memorySize source).image = none ∨
            ∀ l, ¬ fs.CanWrite (o.format.destination o.destination) l))) ∨
    ((perform fs o).exit = 0 ∧ ∃ source image l, SourceStack.openPrimary fs o.source = .ok source ∧
      (Assembly.run fs o.memorySize source).image = some image ∧
      fs.CanWrite (o.format.destination o.destination) l ∧
      (perform fs o).files = fs.put l (.file (o.format.encode image.toList))) := by
  have hrun : Assembly.runFile fs o.memorySize o.source =
      (SourceStack.openPrimary fs o.source).map (Assembly.run fs o.memorySize) := rfl
  rw [perform_eq, hrun]
  cases hopen : SourceStack.openPrimary fs o.source with
  | error fault => exact .inl ⟨rfl, rfl, .inl ⟨fault, rfl⟩⟩
  | ok source =>
    dsimp only [Except.map]
    cases himage : (Assembly.run fs o.memorySize source).image with
    | none => exact .inl ⟨rfl, rfl, .inr ⟨source, rfl, .inl himage⟩⟩
    | some image =>
      dsimp only
      cases hcreate : fs.create? (o.format.destination o.destination) (o.format.encode image.toList) with
      | none => exact .inl ⟨rfl, rfl, .inr ⟨source, rfl, .inr (FileSystem.create?_eq_none_iff.mp hcreate)⟩⟩
      | some fs' =>
        obtain ⟨l, hl, rfl⟩ := FileSystem.create?_eq_some_iff.mp hcreate
        exact .inr ⟨rfl, source, image, l, rfl, himage, hl, rfl⟩

theorem perform_outcome (fs : FileSystem) (o : Options) (h : Options.Admissible o.memorySize) :
    let out := perform fs o
    let path := o.format.destination (o.dest.getD (Path.withoutExtension (Text.unquote o.source)))
    (out.exit = 0 ↔ ∃ source l, SourceStack.openPrimary fs o.source = .ok source ∧
      (∀ d ∈ (Assembly.run fs o.memorySize source).diagnostics, d.level ≠ .error) ∧ fs.CanWrite path l) ∧
    (out.exit = 0 → ∃ source image l bytes, SourceStack.openPrimary fs o.source = .ok source ∧
      (Assembly.run fs o.memorySize source).image = some image ∧ image.size = o.memorySize ∧
      fs.CanWrite path l ∧ out.files.lookup path = .found l (.file bytes) ∧
      o.format.decode bytes = some image.toList ∧
      out.files.workingDirectory = fs.workingDirectory ∧
      ∀ place, out.files.entry? place = if place = l then some (.file bytes) else fs.entry? place) ∧
    (out.exit ≠ 0 → out.files = fs) := by
  intro out path
  rcases perform_cases fs o with ⟨hexit, hfiles, hfailure⟩ | ⟨hexit, source, image, l, hopen, himage, hl, hfiles⟩
  · rw [hexit]
    refine ⟨⟨fun hzero => absurd hzero (by decide), ?_⟩, fun hzero => absurd hzero (by decide), fun _ => hfiles⟩
    rintro ⟨source, l, hopen, hquiet, hl⟩
    rcases hfailure with ⟨fault, hfault⟩ | ⟨source', hopen', hfailure⟩
    · rw [hopen] at hfault
      cases hfault
    · rw [hopen] at hopen'
      cases hopen'
      rcases hfailure with hnone | hbarred
      · have hsome := (Assembly.isSome_image_run fs o.memorySize source).mpr hquiet
        rw [hnone] at hsome
        cases hsome
      · exact absurd hl (hbarred l)
  · rw [hexit]
    have hquiet := (Assembly.isSome_image_run fs o.memorySize source).mp (by rw [himage]; rfl)
    have hsize := Assembly.size_of_image_run himage
    have hne : image.toList ≠ [] := by
      intro hnil
      have hpositive := h.1
      rw [← hsize, ← Array.length_toList, hnil] at hpositive
      exact absurd hpositive (by decide)
    refine ⟨⟨fun _ => ⟨source, l, hopen, hquiet, hl⟩, fun _ => rfl⟩, fun _ => ?_, fun hne => absurd rfl hne⟩
    rw [hfiles]
    exact ⟨source, image, l, _, hopen, himage, hsize, hl, FileSystem.lookup_put_of_canWrite hl,
      o.format.decode_encode hne, FileSystem.workingDirectory_put fs l _,
      fun place => FileSystem.entry?_put fs l place _⟩

/-- A command exits with zero exactly if its source opens, its run reports no error and its file can be created. It has
then written the one file, at the destination or at the path of the source without its extension, and this file is
found there and read back as the image of the run, which has the size that was asked for. Otherwise no file has
changed. -/
theorem run_outcome (fs : FileSystem) (args : List Text) (o : Options) (h : Options.parse args = .ok o) :
    let out := run fs args
    let path := o.format.destination (o.dest.getD (Path.withoutExtension (Text.unquote o.source)))
    (out.exit = 0 ↔ ∃ source l, SourceStack.openPrimary fs o.source = .ok source ∧
      (∀ d ∈ (Assembly.run fs o.memorySize source).diagnostics, d.level ≠ .error) ∧ fs.CanWrite path l) ∧
    (out.exit = 0 → ∃ source image l bytes, SourceStack.openPrimary fs o.source = .ok source ∧
      (Assembly.run fs o.memorySize source).image = some image ∧ image.size = o.memorySize ∧
      fs.CanWrite path l ∧ out.files.lookup path = .found l (.file bytes) ∧
      o.format.decode bytes = some image.toList ∧
      out.files.workingDirectory = fs.workingDirectory ∧
      ∀ place, out.files.entry? place = if place = l then some (.file bytes) else fs.entry? place) ∧
    (out.exit ≠ 0 → out.files = fs) := by
  intro out path
  have hout : out = perform fs o := by
    change run fs args = perform fs o
    rw [run, h]
  rw [hout]
  exact perform_outcome fs o (Options.admissible_of_parse h)

/-- One word of data in a memory of two words. -/
theorem run_outcome_vector :
    let fs : FileSystem := ⟨[([], .directory), (["a.s"], .file (Text.toBytes ".dw 7"))], []⟩
    let args : List Text := ["a.s", "-coe", "--memory-size=2"]
    let o : Options := ⟨"a.s", none, .coe, false, 2⟩
    Options.parse args = .ok o ∧ (run fs args).exit = 0 ∧
      ∃ l bytes, (run fs args).files.lookup "a.coe" = .found l (.file bytes) ∧
        Format.coe.decode bytes = some [7, 0] := by
  intro fs args o
  have hparse : Options.parse args = .ok o := by decide
  have hexit : (run fs args).exit = 0 := by decide +kernel
  obtain ⟨-, hwritten, -⟩ := run_outcome fs args o hparse
  obtain ⟨source, image, l, bytes, hopen, himage, -, -, hfound, hdecode, -, -⟩ := hwritten hexit
  have hwords : (Assembly.runFile fs 2 "a.s").toOption.bind Report.image = some #[7, 0] := by decide +kernel
  have hrun : Assembly.runFile fs 2 "a.s" = .ok (Assembly.run fs 2 source) := congrArg (Except.map _) hopen
  rw [hrun] at hwords
  obtain rfl := Option.some.inj (himage.symm.trans hwords)
  exact ⟨hparse, hexit, l, bytes, hfound, hdecode⟩

end Command

end R64
