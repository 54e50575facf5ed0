import Columnar.File

/-! Directories, and the paths that lead through them to files. -/

namespace Columnar

/-- What a name in a directory stands for. -/
inductive Entry
  | file (bytes : Array UInt8)
  | directory (entries : List (String × Entry))

namespace Entry

/-- The most bytes of a name. -/
def nameLimit : Nat := 255

/-- The most bytes of a path. -/
def pathLimit : Nat := 4095

/-- Follows names from `here`, which lies in the directories `above`, the innermost first. A dot
stays, and two dots go up, except at the top. -/
def follow : List String → (here : Entry) → (above : List Entry) → Except FileFault Entry
  | [], here, _ => .ok here
  | _ :: _, file _, _ => .error .notDirectory
  | name :: names, directory entries, above =>
    if name = "." then follow names (directory entries) above
    else if name = ".." then
      match above with
      | [] => follow names (directory entries) []
      | up :: above => follow names up above
    else if nameLimit < name.utf8ByteSize then .error .nameTooLong
    else
      match entries.lookup name with
      | some e => follow names e (directory entries :: above)
      | none => .error .notFound

/-- The names in a path. A slash at the end asks for a directory, as a dot behind it would. -/
def names (path : String) : List String :=
  (path.splitOn "/").filter (· ≠ "") ++ if path.endsWith "/" then ["."] else []

/-- The file at a path, which starts from `here` or, behind a slash, from the top. -/
def openAt (here : Entry) (above : List Entry) (path : String) : Except Error File :=
  if pathLimit < path.utf8ByteSize then .error (.file .nameTooLong)
  else
    let found :=
      if path.startsWith "/" then follow (names path) (above.getLastD here) []
      else follow (names path) here above
    match found with
    | .ok (file bytes) => .ok (.onDisk bytes)
    | .ok (directory _) => .error (.file .isDirectory)
    | .error fault => .error (.file fault)

end Entry

end Columnar
