import R64.Command.Basic
/-!
The command on the files of the machine that it runs on.
-/
namespace R64.Main

def find (path : Text) : IO Lookup := do
  if !FileSystem.isUsable path then return .nowhere
  let resolved ← try IO.FS.realPath (String.ofList path) catch _ => return .nowhere
  let location := (Text.split '/' resolved.toString.toList).filter (· ≠ [])
  if !FileSystem.isShort path then return .barred location
  try
    if ← resolved.isDir then return .found location .directory
    let bytes ← IO.FS.readBinFile resolved
    return .found location (.file bytes.toList)
  catch _ => return .barred location

partial def scan (memorySize : Nat) (s : Session) : IO Assembly := do
  match ← s.stepM find memorySize with
  | none => return s.assembly
  | some t => scan memorySize t

def create (path : Text) : IO (Option IO.FS.Handle) := do
  try
    let handle ← IO.FS.Handle.mk (String.ofList path) .write
    return some handle
  catch _ => return none

def write (path : Text) (bytes : List UInt8) : IO (Option Fault) := do
  match ← create path with
  | none => return some (.fileCreate path)
  | some handle =>
    try
      handle.write (ByteArray.mk bytes.toArray)
      handle.flush
      return none
    catch _ => return some (.fileWrite path)

def host : Host IO where
  workingPath := return (← IO.currentDir).toString.toList
  find := find
  scan := scan
  print lines := lines.forM fun line => IO.println (String.ofList line)
  write := write

def usage : String :=
  "usage: r64 SOURCE [DEST] [-f|--format raw|mif|coe] [-d|--dump] [--memory-size N]"

end R64.Main

open R64 in
def main (args : List String) : IO UInt32 := do
  match Options.parse (args.map String.toList) with
  | .ok o =>
    let exit ← Command.performM Main.host o
    return UInt32.ofNat exit
  | .error halt =>
    match halt with
    | .information => IO.println Main.usage
    | .usage => IO.eprintln Main.usage
    return UInt32.ofNat halt.exit
