import R64.Text
/-!
Paths as written. Joining and shortening are operations on the text; nothing is normalised, so that a path is shown
exactly as it was put together.
-/
namespace R64.Path

/-- `path` seen from the directory `base`. An absolute path stands for itself. -/
def join (base path : Text) : Text :=
  if path.head? = some '/' then path
  else if base = [] ∨ base.getLast? = some '/' then base ++ path
  else base ++ "/" ++ path

/-- Parts that do not lead anywhere. -/
def isIdle (part : Text) : Bool := part == [] || part == "."

def parts? (path : Text) : Option (List Text) :=
  if path.head? = some '/' then some ((path.split '/').filter fun part => !isIdle part) else none

/-- The directory of an absolute path: its last part is dropped, and idle parts before and behind it. The root has the
empty path as its directory. -/
def parent (path : Text) : Text :=
  match (path.split '/').reverse.dropWhile isIdle with
  | [] => []
  | _ :: parts =>
    match parts.dropWhile isIdle with
    | [] => "/"
    | part :: parts => List.intercalate "/" (part :: parts).reverse

/-- The text before the last dot. -/
def beforeDot? (name : Text) : Option Text :=
  match name.reverse.dropWhile (· != '.') with
  | [] => none
  | _ :: rest => some rest.reverse

/-- A file name without its extension, the part from the last dot on. A dot at the start does not begin an extension,
and where only a dot would be left a second one stays. -/
def stem (name : Text) : Text :=
  if name = ".." then name
  else match beforeDot? name with
    | none => name
    | some kept => if kept = [] then name else if kept = "." then ".." else kept

/-- A path whose file name has lost its extension. -/
def withoutExtension (path : Text) : Text :=
  match (path.split '/').reverse with
  | [] => []
  | name :: directories => List.intercalate "/" (stem name :: directories).reverse

end R64.Path
