import R64.Fault
import R64.Source.FileSystem
import R64.Source.Line
import R64.Source.Path
import R64.Text.Quote
/-!
The stack of open sources. Lines are taken from the source on top; when it is exhausted, reading goes on in the one
below. A file is entered at most once: its location is remembered, and a further request for the same location is
passed over.
-/
namespace R64

/-- What an open source still has to give. A directory can be opened but not read. -/
inductive Content where
  | lines (rest : List Text)
  | unreadable
  deriving DecidableEq

def Content.ofEntry : Entry → Content
  | .file bytes => .lines (Line.ofBytes bytes)
  | .directory => .unreadable

def Content.items : Content → Nat
  | .lines rest => rest.length
  | .unreadable => 1

/-- An open source: the name it is shown with, the number of lines already taken, and what is left. -/
structure Frame where
  name : Text
  taken : Nat
  content : Content
  deriving DecidableEq

/-- Open sources, the innermost first, the directory that relative paths are seen from, and the locations entered. -/
structure SourceStack where
  frames : List Frame
  base : Text
  entered : List Location
  deriving DecidableEq

namespace SourceStack

/-- The stack for a primary source given by a path from the working directory, where `lookup` is what the joined path
gives. -/
def ofPrimary (workingPath path : Text) (lookup : Lookup) : Except Fault SourceStack :=
  match lookup with
  | .found l e => .ok {
      frames := [⟨Text.unquote path, 0, Content.ofEntry e⟩]
      base := Path.parent (Path.join workingPath (Text.unquote path))
      entered := [l] }
  | _ => .error (.sourceOpen (Text.unquote path))

/-- Open the primary source. Quotes around the path are left out. -/
def openPrimary (fs : FileSystem) (path : Text) : Except Fault SourceStack :=
  ofPrimary fs.workingPath path (fs.lookup (Path.join fs.workingPath (Text.unquote path)))

/-- A primary source in memory; includes are seen from `base`. -/
def ofText (base name text : Text) : SourceStack where
  frames := [⟨name, 0, .lines (Line.ofText text)⟩]
  base := base
  entered := []

def depth (s : SourceStack) : Nat := s.frames.length

/-- The next line or failure, and the sources that stay open. Exhausted sources are closed on the way. -/
def take : List Frame → Option (Except Fault Line) × List Frame
  | [] => (none, [])
  | f :: fs =>
    match f.content with
    | .unreadable => (some (.error (.fileRead f.name)), fs)
    | .lines [] => take fs
    | .lines (text :: rest) =>
      (some (.ok ⟨f.name, f.taken + 1, text⟩), { f with taken := f.taken + 1, content := .lines rest } :: fs)

def next (s : SourceStack) : Option (Except Fault Line) × SourceStack :=
  ((take s.frames).1, { s with frames := (take s.frames).2 })

/-- The path under which an included file is looked for. -/
def target (s : SourceStack) (path : Text) : Text := Path.join s.base (Text.unquote path)

/-- Whether the parts of a path are the location of a file that was entered. -/
def names (s : SourceStack) (path : Text) : Bool :=
  match Path.parts? path with
  | some l => s.entered.contains l
  | none => false

/-- Whether what a path gives was entered before. A path that leads nowhere counts by its parts, so that a slash behind
the name of a file that was entered does no harm. -/
def isEntered (s : SourceStack) (path : Text) : Lookup → Bool
  | .nowhere => s.names path
  | .barred l => s.entered.contains l
  | .found l _ => s.entered.contains l

/-- Enter an included file, where `lookup` is what the target path gives. The answer tells whether it was entered or
passed over. -/
def enter (s : SourceStack) (path : Text) (lookup : Lookup) : Except Fault (Bool × SourceStack) :=
  if s.isEntered (s.target path) lookup then .ok (false, s)
  else match lookup with
    | .found l e => .ok (true, { s with
        frames := ⟨s.target path, 0, Content.ofEntry e⟩ :: s.frames
        entered := l :: s.entered })
    | _ => .error (.sourceOpen (Text.unquote path))

/-- Number of lines and failures that open sources still give. -/
def pending : List Frame → Nat
  | [] => 0
  | f :: fs => f.content.items + pending fs

def items (s : SourceStack) : Nat := pending s.frames

/-- Number of files not yet entered and of lines and failures in them. -/
def outstanding (entered : List Location) : List (Location × Entry) → Nat
  | [] => 0
  | x :: xs => (if x.1 ∈ entered then 0 else (Content.ofEntry x.2).items + 1) + outstanding entered xs

/-- A bound on the number of lines and failures still to come, whatever is included. -/
def weight (fs : FileSystem) (s : SourceStack) : Nat := outstanding s.entered fs.entries + s.items

theorem pending_take {frames rest : List Frame} {item : Except Fault Line} (h : take frames = (some item, rest)) :
    pending frames = pending rest + 1 := by
  induction frames with
  | nil => simp [take] at h
  | cons f fs ih =>
    unfold take at h
    split at h
    · next hc =>
      obtain ⟨-, rfl⟩ := Prod.mk.inj h
      simp only [pending, hc, Content.items]
      omega
    · next hc =>
      simpa [pending, hc, Content.items] using ih h
    · next hc =>
      obtain ⟨-, rfl⟩ := Prod.mk.inj h
      simp only [pending, hc, Content.items, List.length_cons]
      omega

/-- Taking a line or a failure lowers the weight by one. -/
theorem weight_next (fs : FileSystem) {s s' : SourceStack} {item : Except Fault Line}
    (h : s.next = (some item, s')) : s.weight fs = s'.weight fs + 1 := by
  obtain ⟨h₁, rfl⟩ := Prod.mk.inj h
  have h₂ : take s.frames = (some item, (take s.frames).2) := Prod.ext h₁ rfl
  simp only [weight, items, pending_take h₂]
  omega

theorem outstanding_cons_le (entered : List Location) (l : Location) (entries : List (Location × Entry)) :
    outstanding (l :: entered) entries ≤ outstanding entered entries := by
  induction entries with
  | nil => exact Nat.le_refl _
  | cons x xs ih =>
    simp only [outstanding, List.mem_cons]
    by_cases he : x.1 ∈ entered
    · simpa [he] using ih
    · rw [if_neg he]
      split <;> omega

theorem outstanding_entered {entered : List Location} {l : Location} {e : Entry} (hl : l ∉ entered)
    {entries : List (Location × Entry)} (hm : (l, e) ∈ entries) :
    outstanding (l :: entered) entries + ((Content.ofEntry e).items + 1) ≤ outstanding entered entries := by
  induction entries with
  | nil => cases hm
  | cons x xs ih =>
    simp only [outstanding, List.mem_cons]
    rcases List.mem_cons.mp hm with rfl | hm
    · have hle := outstanding_cons_le entered l xs
      rw [if_pos (Or.inl rfl), if_neg hl]
      dsimp only
      omega
    · have ih := ih hm
      by_cases he : x.1 ∈ entered
      · simpa [he] using ih
      · rw [if_neg he]
        split <;> omega

/-- Entering a file of the file system does not raise the weight, whether the file is new or passed over. -/
theorem weight_enter_le {fs : FileSystem} {s s' : SourceStack} {path : Text} {lookup : Lookup} {new : Bool}
    (hlookup : ∀ l e, lookup = .found l e → (l, e) ∈ fs.entries) (h : s.enter path lookup = .ok (new, s')) :
    s'.weight fs ≤ s.weight fs := by
  unfold enter at h
  split at h
  · cases h
    exact Nat.le_refl _
  · next hne =>
    split at h
    · next l e =>
      cases h
      have hl : l ∉ s.entered := by simpa [isEntered] using hne
      have := outstanding_entered hl (hlookup l e rfl)
      simp only [weight, items, pending]
      omega
    · cases h

end SourceStack

end R64
