import R64.Assembly.Basic
import R64.Source.Stack
/-!
Whole runs. Lines are processed until every source is exhausted; then labels are resolved and the memory image is made.
A run ends on every file system, however files include each other, because each is entered once.
-/
namespace R64

/-- The outcome of a run. There is an image exactly if no error was reported. -/
structure Report where
  image : Option (Array Word)
  diagnostics : Array Diagnostic
  segments : Array Segment
  symbols : Array (Text × Word)
  deriving DecidableEq

namespace Report

def count (r : Report) (level : Level) : Nat := r.diagnostics.countP fun d => d.level == level

end Report

/-- A run in progress: what is still to be read and what has been made of the rest. -/
structure Session where
  source : SourceStack
  assembly : Assembly
  deriving DecidableEq

namespace Session

/-- Process a line or failure that was taken from the sources. When the line includes a file, the line and the path are
returned, and the file is to be entered before the next line is taken. -/
def absorb (memorySize : Nat) (s : Session) : Except Fault Line → Session × Option (Line × Text)
  | .error fault => ({ s with assembly := s.assembly.report [.error fault none] }, none)
  | .ok line =>
    let processed := s.assembly.process memorySize line
    ({ s with assembly := processed.1 }, processed.2.map fun path => (line, path))

/-- Enter the file that a line includes, where `lookup` is what its path gives. -/
def resolve (s : Session) (line : Line) (path : Text) (lookup : Lookup) : Session :=
  match s.source.enter path lookup with
  | .error fault => { s with assembly := s.assembly.reject line [fault] }
  | .ok (_, source) => { s with source }

section Steps

variable {m : Type → Type} [Monad m] (find : Text → m Lookup) (memorySize : Nat) (s : Session)

/-- Process a line or failure and enter the file that it includes, where `find` tells what a path gives. -/
def handleM (item : Except Fault Line) : m Session :=
  match s.absorb memorySize item with
  | (s, none) => return s
  | (s, some (line, path)) => do
    let lookup ← find (s.source.target path)
    return s.resolve line path lookup

/-- Take the next line or failure and process it. There is no step when everything is read. -/
def stepM : m (Option Session) :=
  match s.source.next with
  | (none, _) => return none
  | (some item, source) => do
    let s ← handleM find memorySize { s with source } item
    return some s

end Steps

def handle (fs : FileSystem) (memorySize : Nat) (s : Session) (item : Except Fault Line) : Session :=
  Id.run (s.handleM (fun path => return fs.lookup path) memorySize item)

def step (fs : FileSystem) (memorySize : Nat) (s : Session) : Option Session :=
  Id.run (s.stepM (fun path => return fs.lookup path) memorySize)

theorem handle_eq (fs : FileSystem) (memorySize : Nat) (s : Session) (item : Except Fault Line) :
    s.handle fs memorySize item =
      match s.absorb memorySize item with
      | (s, none) => s
      | (s, some (line, path)) => s.resolve line path (fs.lookup (s.source.target path)) := by
  unfold handle handleM
  split <;> rfl

theorem step_of_none {fs : FileSystem} {memorySize : Nat} {s : Session} {source : SourceStack}
    (h : s.source.next = (none, source)) : s.step fs memorySize = none := by
  rw [step, stepM, h]
  rfl

theorem step_of_some {fs : FileSystem} {memorySize : Nat} {s : Session} {item : Except Fault Line}
    {source : SourceStack} (h : s.source.next = (some item, source)) :
    s.step fs memorySize = some (handle fs memorySize { s with source } item) := by
  rw [step, stepM, h]
  rfl

theorem source_absorb (memorySize : Nat) (s : Session) (item : Except Fault Line) :
    (s.absorb memorySize item).1.source = s.source := by
  cases item <;> rfl

theorem weight_resolve_le (fs : FileSystem) (s : Session) (line : Line) (path : Text) :
    (s.resolve line path (fs.lookup (s.source.target path))).source.weight fs ≤ s.source.weight fs := by
  unfold resolve
  split
  · exact Nat.le_refl _
  · next he => exact SourceStack.weight_enter_le (fun _ _ => FileSystem.mem_of_found) he

/-- Nothing that a line does gives the sources more than they have. -/
theorem weight_handle_le (fs : FileSystem) (memorySize : Nat) (s : Session) (item : Except Fault Line) :
    (s.handle fs memorySize item).source.weight fs ≤ s.source.weight fs := by
  have hs := source_absorb memorySize s item
  rw [handle_eq]
  split
  · next s₁ ha =>
    rw [ha] at hs
    exact Nat.le_of_eq (congrArg (SourceStack.weight fs) hs)
  · next s₁ line path ha =>
    rw [ha] at hs
    exact Nat.le_trans (weight_resolve_le fs s₁ line path) (Nat.le_of_eq (congrArg (SourceStack.weight fs) hs))

/-- Every line or failure that is processed has been taken from the sources. -/
theorem weight_handle_lt (fs : FileSystem) (memorySize : Nat) {s : Session} {item : Except Fault Line}
    {source : SourceStack} (h : s.source.next = (some item, source)) :
    (handle fs memorySize { s with source } item).source.weight fs < s.source.weight fs := by
  have h₁ := SourceStack.weight_next fs h
  have h₂ := weight_handle_le fs memorySize { s with source } item
  dsimp only at h₂
  omega

theorem weight_step_lt (fs : FileSystem) (memorySize : Nat) {s t : Session} (h : s.step fs memorySize = some t) :
    t.source.weight fs < s.source.weight fs := by
  rcases hnext : s.source.next with ⟨_ | item, source⟩
  · rw [step_of_none hnext] at h
    cases h
  · rw [step_of_some hnext] at h
    cases h
    exact weight_handle_lt fs memorySize hnext

def scan (fs : FileSystem) (memorySize : Nat) (s : Session) : Assembly :=
  match h : s.step fs memorySize with
  | none => s.assembly
  | some t =>
    have := weight_step_lt fs memorySize h
    scan fs memorySize t
termination_by s.source.weight fs

end Session

namespace Assembly

/-- Resolve the labels and make the memory image. -/
def finish (memorySize : Nat) (a : Assembly) : Report :=
  let code := a.code.link
  let linked := a.report a.code.unresolved
  let outcome := code.image memorySize
  let final := match outcome with
    | .ok _ => linked
    | .error fault => linked.report [.error fault none]
  { image := if final.diagnostics.any Diagnostic.isError then none else outcome.toOption
    diagnostics := final.diagnostics
    segments := a.segments
    symbols := code.symbols }

def memoryLimit : Nat := 0x4000000

def defaultMemorySize : Nat := 4096

/-- Assemble everything that a stack of sources gives, where `scan` processes what is left of a session. -/
def runM {m : Type → Type} [Monad m] (scan : Session → m Assembly) (memorySize : Nat) (source : SourceStack) :
    m Report := do
  if memoryLimit < memorySize then
    return {
      image := none
      diagnostics := #[.error (.memorySize memorySize memoryLimit) none]
      segments := #[]
      symbols := #[] }
  else
    let assembly ← scan ⟨source, .empty⟩
    return assembly.finish memorySize

def run (fs : FileSystem) (memorySize : Nat) (source : SourceStack) : Report :=
  Id.run (runM (fun s => return s.scan fs memorySize) memorySize source)

theorem run_eq (fs : FileSystem) (memorySize : Nat) (source : SourceStack) :
    run fs memorySize source =
      if memoryLimit < memorySize then
        { image := none
          diagnostics := #[.error (.memorySize memorySize memoryLimit) none]
          segments := #[]
          symbols := #[] }
      else (Session.scan fs memorySize ⟨source, .empty⟩).finish memorySize := by
  unfold run runM
  split <;> rfl

/-- Assemble a file and what it includes. Only a primary file that cannot be opened leaves no report. -/
def runFile (fs : FileSystem) (memorySize : Nat) (path : Text) : Except Fault Report :=
  (SourceStack.openPrimary fs path).map (run fs memorySize)

end Assembly

end R64
