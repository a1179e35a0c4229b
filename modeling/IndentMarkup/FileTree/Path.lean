import IndentMarkup.Bytes.Basic

/-!
# Paths

A path is a text of names with slashes between them. The names `.` and `..` stand for the
directory itself and for the one above it. A path is *clean* if it has no name that could
be left out: `Path.clean` takes them off without a look at the files.
-/

namespace IndentMarkup.Path

/-- The name of a directory in itself. -/
def here : Bytes := "."

/-- The name of the directory above. -/
def parent : Bytes := ".."

/-- The names in a path. Some are empty where slashes follow each other. -/
def names (path : Bytes) : List Bytes := Bytes.pieces Byte.slash path

/-- Whether a path starts from the root of all files. -/
def isRooted (path : Bytes) : Bool := path.head? == some Byte.slash

/-- The clean names `out`, the last one first, with one more name. -/
def push (rooted : Bool) (out : List Bytes) (name : Bytes) : List Bytes :=
  if name.isEmpty ∨ name = here then out
  else if name = parent then
    match out with
    | [] => if rooted then [] else [name]
    | last :: rest => if last = parent then name :: out else rest
  else name :: out

/-- The shortest path that leads to the same place, judged by the names alone. -/
def clean (path : Bytes) : Bytes :=
  let out := ((names path).foldl (push (isRooted path)) []).reverse
  if isRooted path then Byte.slash :: Bytes.join "/" out
  else if out.isEmpty then here
  else Bytes.join "/" out

/-- The clean path of a name in a directory. -/
def join (dir name : Bytes) : Bytes :=
  if dir.isEmpty then clean name else clean (dir ++ "/" ++ name)

end IndentMarkup.Path
