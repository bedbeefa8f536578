import R64.Text
/-!
A file system as a finite table. A location is the list of names from the root; the table says what stands there. A path
is followed part by part, and every part but the last has to lead through a directory.
-/
namespace R64

abbrev Location := List Text

inductive Entry where
  | file (bytes : List UInt8)
  | directory
  deriving DecidableEq

/-- What following a path gives. -/
inductive Lookup where
  /-- the path leads nowhere -/
  | nowhere
  /-- it leads to a location, but nothing can be opened by it -/
  | barred (l : Location)
  /-- it opens what is at a location -/
  | found (l : Location) (e : Entry)
  deriving DecidableEq

structure FileSystem where
  entries : List (Location × Entry)
  workingDirectory : Location
  deriving DecidableEq

namespace FileSystem

def entry? (fs : FileSystem) (l : Location) : Option Entry := fs.entries.lookup l

def isDirectory (fs : FileSystem) (l : Location) : Bool := fs.entry? l == some .directory

def nameLimit : Nat := 255

def pathLimit : Nat := 4095

/-- Follow the parts of a path from a location to one where something is. -/
def walk (fs : FileSystem) : Location → List Text → Option (Location × Entry)
  | here, [] => (fs.entry? here).map fun e => (here, e)
  | here, part :: parts =>
    if !fs.isDirectory here then none
    else if part = [] ∨ part = "." then fs.walk here parts
    else if part = ".." then fs.walk here.dropLast parts
    else if nameLimit < part.byteLength then none
    else fs.walk (here ++ [part]) parts

def start (fs : FileSystem) (path : Text) : Location :=
  if path.head? = some '/' then [] else fs.workingDirectory

/-- Paths that can lead somewhere at all. -/
def isUsable (path : Text) : Bool := path != [] && !path.contains '\x00'

/-- Paths that are short enough to open a file by. -/
def isShort (path : Text) : Bool := path.byteLength ≤ pathLimit

/-- Where a path leads and what is there. A path of any length can be followed. -/
def locate? (fs : FileSystem) (path : Text) : Option (Location × Entry) :=
  if isUsable path then fs.walk (fs.start path) (path.split '/') else none

/-- Open what a path leads to. Directories can be opened. -/
def lookup (fs : FileSystem) (path : Text) : Lookup :=
  match fs.locate? path with
  | none => .nowhere
  | some (l, e) => if isShort path then .found l e else .barred l

theorem mem_of_lookup {l : Location} {e : Entry} {entries : List (Location × Entry)}
    (h : entries.lookup l = some e) : (l, e) ∈ entries := by
  induction entries with
  | nil => cases h
  | cons x xs ih =>
    obtain ⟨l', e'⟩ := x
    rw [List.lookup_cons] at h
    split at h
    · next heq =>
      cases h
      rw [eq_of_beq heq]
      exact List.mem_cons_self
    · exact List.mem_cons_of_mem _ (ih h)

theorem mem_of_walk {fs : FileSystem} {here l : Location} {parts : List Text} {e : Entry}
    (h : fs.walk here parts = some (l, e)) : (l, e) ∈ fs.entries := by
  induction parts generalizing here with
  | nil =>
    obtain ⟨e', he, h⟩ := Option.map_eq_some_iff.mp h
    cases h
    exact mem_of_lookup he
  | cons part parts ih =>
    unfold walk at h
    split at h
    · cases h
    · split at h
      · exact ih h
      · split at h
        · exact ih h
        · split at h
          · cases h
          · exact ih h

theorem mem_of_locate? {fs : FileSystem} {path : Text} {l : Location} {e : Entry}
    (h : fs.locate? path = some (l, e)) : (l, e) ∈ fs.entries := by
  unfold locate? at h
  split at h
  · exact mem_of_walk h
  · cases h

/-- What can be opened is in the table. -/
theorem mem_of_found {fs : FileSystem} {path : Text} {l : Location} {e : Entry}
    (h : fs.lookup path = .found l e) : (l, e) ∈ fs.entries := by
  unfold lookup at h
  split at h
  · cases h
  · next hl =>
    split at h
    · cases h
      exact mem_of_locate? hl
    · cases h

/-- The location of a file that a path names, whether it exists or not; its directory has to exist. -/
def target? (fs : FileSystem) (path : Text) : Option Location :=
  match (path.split '/').reverse with
  | [] => none
  | name :: directories =>
    if !isUsable path || !isShort path || name == [] || name == "." || name == ".." ||
        decide (nameLimit < name.byteLength) then none
    else (fs.walk (fs.start path) directories.reverse).bind fun (l, e) =>
      if e = .directory then some (l ++ [name]) else none

/-- Put an entry at a location, in the place of one that is there. -/
def put (fs : FileSystem) (l : Location) (e : Entry) : FileSystem :=
  if fs.entries.any fun x => x.1 == l then
    { fs with entries := fs.entries.map fun x => if x.1 = l then (l, e) else x }
  else { fs with entries := fs.entries ++ [(l, e)] }

/-- Write a whole file. An old file is replaced, a directory is not. -/
def create? (fs : FileSystem) (path : Text) (bytes : List UInt8) : Option FileSystem :=
  (fs.target? path).bind fun l => if fs.isDirectory l then none else some (fs.put l (.file bytes))

def workingPath (fs : FileSystem) : Text := "/" ++ List.intercalate "/" fs.workingDirectory

end FileSystem

end R64
