import R64.Command.Options
import R64.Listing
/-!
The command: assemble the source, tell what happened, and write the image. Nothing is written unless the run succeeds.
-/
namespace R64

namespace Options

/-- The lines before the first step. -/
def opening (o : Options) : List Text := ["R64 Assembler", "1. Assemble", "  < " ++ o.source]

def summary (r : Report) : Text :=
  match r.image with
  | some _ => Terminal.emphasised .green "Compilation succeeded!"
  | none =>
    Terminal.emphasised .red ("Compilation failed with " ++ Text.decimal (r.count .error) ++ " error(s)!")

/-- The lines about a run: its diagnostics, the summary, and the listing if it is wanted. -/
def account (o : Options) (r : Report) : List Text :=
  r.diagnostics.toList.flatMap Diagnostic.render ++ [summary r] ++ if o.dump then Listing.lines r else []

def complaint (f : Fault) : List Text := (Diagnostic.error f none).render

/-- Where the image goes: as given, or the path of the source without its extension. -/
def destination (o : Options) : Text := o.dest.getD (Path.withoutExtension (Text.unquote o.source))

def exporting : Text := "2. Export"

def written (path : Text) : Text := "  > " ++ path

end Options

/-- What a command asks of the machine that it runs on. -/
structure Host (m : Type → Type) where
  workingPath : m Text
  find : Text → m Lookup
  /-- take the steps of a session until there are no more -/
  scan : Nat → Session → m Assembly
  print : List Text → m Unit
  /-- write a whole file, or tell why that is impossible -/
  write : Text → List UInt8 → m (Option Fault)

namespace Command

/-- Carry out what the options ask for. The exit code is returned. -/
def performM {m : Type → Type} [Monad m] (host : Host m) (o : Options) : m Nat := do
  host.print o.opening
  let workingPath ← host.workingPath
  let lookup ← host.find (Path.join workingPath (Text.unquote o.source))
  match SourceStack.ofPrimary workingPath o.source lookup with
  | .error fault =>
    host.print (Options.complaint fault)
    return 1
  | .ok source =>
    let report ← Assembly.runM (host.scan o.memorySize) o.memorySize source
    host.print (o.account report)
    match report.image with
    | none => return 1
    | some image =>
      host.print [Options.exporting]
      match ← o.format.saveM host.write image.toList o.destination with
      | .error fault =>
        host.print (Options.complaint fault)
        return 1
      | .ok path =>
        host.print [Options.written path]
        return 0

end Command

/-- A machine that consists of its files and the lines printed on it. -/
structure Machine where
  files : FileSystem
  printed : List Text

def Machine.host : Host (StateM Machine) where
  workingPath := return (← get).files.workingPath
  find path := return (← get).files.lookup path
  scan memorySize s := return s.scan (← get).files memorySize
  print lines := modify fun machine => { machine with printed := machine.printed ++ lines }
  write path bytes := do
    match (← get).files.create? path bytes with
    | none => return some (.fileCreate path)
    | some files =>
      modify fun machine => { machine with files }
      return none

/-- What a command leaves behind: its exit code, the lines that it has printed, unless its arguments ended it, and the
files. -/
structure Outcome where
  exit : Nat
  printed : Option (List Text)
  files : FileSystem
  deriving DecidableEq

namespace Command

def perform (fs : FileSystem) (o : Options) : Outcome :=
  let (exit, machine) := Id.run ((performM Machine.host o).run ⟨fs, []⟩)
  ⟨exit, some machine.printed, machine.files⟩

def run (fs : FileSystem) (args : List Text) : Outcome :=
  match Options.parse args with
  | .ok o => perform fs o
  | .error halt => ⟨halt.exit, none, fs⟩

end Command

end R64
