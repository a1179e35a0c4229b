import IndentMarkup.FileTree.Basic

/-!
# The file system

A process sees one tree with all files in it, and has a working directory, at which the paths
start that are not rooted. A path leads to a location by way of directories that exist
(`FileSystem.locate`). Above the root there is nothing: the name `..` leads from the root to the
root. Where a name is that of a link, the way goes on along the target of the link, but only
through so many links (`maxLinks`).
-/

namespace IndentMarkup

/-- The reasons why a path cannot be used. -/
inductive PathError where
  /-- There is nothing. -/
  | notFound
  /-- There is a file where a directory is needed. -/
  | notDirectory
  /-- There is a directory where a file is needed. -/
  | isDirectory
  /-- There are more links on the way than one goes through. -/
  | tooManyLinks
  /-- The file cannot be written. -/
  | denied
  deriving DecidableEq

/-- The error in words. -/
def PathError.text : PathError → Bytes
  | notFound => "no such file or directory"
  | notDirectory => "not a directory"
  | isDirectory => "is a directory"
  | tooManyLinks => "too many levels of symbolic links"
  | denied => "permission denied"

namespace FileTree

/-- The target of the link at a location. -/
def linkAt? (t : FileTree) (loc : Location) : Option Bytes :=
  match t.get? loc with
  | some (link target) => some target
  | _ => none

/-- The location that the names `ns` lead to from the location `loc`. All but the last name
    have to lead to directories. At a link, `jump` goes on with the names of its target before
    those that are left, but a link at the end is where the names lead to unless they go
    `through` it. -/
def walk (t : FileTree) (through : Bool)
    (jump : Location → List Bytes → Except PathError Location) (loc : Location) :
    List Bytes → Except PathError Location
  | [] => .ok loc
  | n :: ns =>
    match t.get? loc with
    | none => .error .notFound
    | some (file _) | some (link _) => .error .notDirectory
    | some (dir _) =>
      if n.isEmpty ∨ n = Path.here then walk t through jump loc ns
      else if n = Path.parent then walk t through jump loc.dropLast ns
      else
        match t.linkAt? (loc ++ [n]) with
        | none => walk t through jump (loc ++ [n]) ns
        | some target =>
          if ns.isEmpty && !through then .ok (loc ++ [n])
          else jump (if Path.isRooted target then [] else loc) (Path.names target ++ ns)

/-- The location that names lead to from the location `loc`, through at most `links` links. -/
def follow (t : FileTree) (through : Bool) :
    (links : Nat) → (loc : Location) → List Bytes → Except PathError Location
  | 0 => walk t through fun _ _ => .error .tooManyLinks
  | links + 1 => walk t through (follow t through links)

end FileTree

/-- The files as a process sees them. -/
structure FileSystem where
  /-- All files, from the root on. -/
  tree : FileTree
  /-- The working directory. -/
  cwd : Location
  /-- The locations at which no file can be written. -/
  locked : List Location

namespace FileSystem

/-- The number of links that a path may go through. -/
def maxLinks : Nat := 40

/-- The directory that a path starts at. -/
def start (fs : FileSystem) (path : Bytes) : Location :=
  if Path.isRooted path then [] else fs.cwd

/-- The location that a path leads to, where a link at its end is only followed if it is gone
    `through`. -/
def resolve (fs : FileSystem) (through : Bool) (path : Bytes) : Except PathError Location :=
  if path.isEmpty then .error .notFound
  else fs.tree.follow through maxLinks (fs.start path) (Path.names path)

/-- The location that a path leads to. There need not be anything. -/
def locate (fs : FileSystem) (path : Bytes) : Except PathError Location := fs.resolve true path

/-- What there is at the location that a path leads to. -/
def entry (fs : FileSystem) (through : Bool) (path : Bytes) : Except PathError FileTree := do
  let loc ← fs.resolve through path
  match fs.tree.get? loc with
  | some e => return e
  | none => .error .notFound

/-- The entry that a path leads to. -/
def find (fs : FileSystem) (path : Bytes) : Except PathError FileTree := fs.entry true path

/-- The entry that a path leads to, which is the link itself if it ends with one. -/
def status (fs : FileSystem) (path : Bytes) : Except PathError FileTree := fs.entry false path

/-- The content of the file that a path leads to. -/
def read (fs : FileSystem) (path : Bytes) : Except PathError Bytes := do
  match ← fs.find path with
  | .file c => return c
  | .dir _ => .error .isDirectory
  | .link _ => .error .notFound

/-- The content of the file that a path leads to, which is empty if there is none. -/
def load (fs : FileSystem) (path : Bytes) : Bytes := (fs.read path).toOption.getD []

/-- The file system after a file is written, in a directory that exists. -/
def write (fs : FileSystem) (path content : Bytes) : Except PathError FileSystem := do
  let loc ← fs.locate path
  if (fs.tree.get? loc).any FileTree.isDir then .error .isDirectory
  else if loc ∈ fs.locked then .error .denied
  else return { fs with tree := fs.tree.put loc (.file content) }

end FileSystem

end IndentMarkup
