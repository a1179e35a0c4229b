import IndentMarkup.Bytes.Space
import IndentMarkup.FileTree.System

/-!
# Source files

The arguments of the command are patterns for source files, which are the files with the
extension `.hamlbars`: a file stands for itself, a directory for the sources in it, and a
directory followed by `/...` also for those in the directories below it. Hidden
directories and those with packages are left out (`isSkipped`). Links are not followed where
directories are listed: a link is an entry that is not a directory.

The sources of all patterns are compiled in the order of their paths, each path once
(`Sources.collect`).
-/

namespace IndentMarkup

/-- The extension of source files. -/
def sourceExt : Bytes := ".hamlbars"

/-- The extension of template files. -/
def templateExt : Bytes := ".hbs"

/-- The path of the template for a source file. -/
def templatePath (path : Bytes) : Bytes := Bytes.dropEnd path sourceExt ++ templateExt

/-- The reasons why a pattern does not stand for source files. -/
inductive SourceError where
  /-- A path that does not lead to anything. -/
  | stat (path : Bytes) (e : PathError)
  /-- A search that cannot go on, as the given call fails for a path. -/
  | walk (root call path : Bytes) (e : PathError)
  /-- A file without the extension of source files. -/
  | notSource (path : Bytes)
  deriving DecidableEq

/-- The error on one line. -/
def SourceError.message : SourceError → Bytes
  | stat path e => "stat " ++ path ++ ": " ++ e.text
  | walk root call path e =>
    "cannot walk '" ++ root ++ "': " ++ call ++ " " ++ path ++ ": " ++ e.text
  | notSource path => "not a " ++ sourceExt ++ " file: " ++ path

namespace Sources

/-- Whether a directory is left out of a search, by its name. -/
def isSkipped (name : Bytes) : Bool := name.head? == some Byte.dot || name == "node_modules"

mutual

/-- The source files at or below the entry with the given path. -/
def below (path : Bytes) : FileTree → List Bytes
  | .file _ | .link _ => if Bytes.endsWith path sourceExt then [path] else []
  | .dir es => belowAll path es

/-- The source files at or below the entries of the directory with the given path. -/
def belowAll (path : Bytes) : List (Bytes × FileTree) → List Bytes
  | [] => []
  | (n, t) :: es =>
    (if t.isDir && isSkipped n then [] else below (Path.join path n) t) ++ belowAll path es

end

/-- The entries of the directory with the given path, for a search. -/
def entries (fs : FileSystem) (root path : Bytes) :
    Except SourceError (List (Bytes × FileTree)) := do
  match ← (fs.find path).mapError (.walk root "open" path) with
  | .dir es => return FileTree.inOrder es
  | .file _ | .link _ => .error (.walk root "readdirent" path .notDirectory)

/-- The source files at or below an entry of the root of a search. A directory is looked up
    again by its clean path, which leads to another one where the path of the root goes up from
    the target of a link. From there on all paths are clean already. -/
def branch (fs : FileSystem) (root : Bytes) (e : Bytes × FileTree) :
    Except SourceError (List Bytes) := do
  let path := Path.join root e.1
  if e.2.isDir then
    if isSkipped e.1 then return []
    else return belowAll path (← entries fs root path)
  else return below path e.2

/-- The source files at or below the root of a search. -/
def search (fs : FileSystem) (root : Bytes) : Except SourceError (List Bytes) := do
  let e ← (fs.status root).mapError (.walk root "lstat" root)
  if e.isDir then
    let found ← (← entries fs root root).mapM (branch fs root)
    return found.flatten
  else return below root e

/-- The source files that are entries of the directory with the given path. -/
def inside (path : Bytes) (es : List (Bytes × FileTree)) : List Bytes :=
  (es.filter fun e => !e.2.isDir && Bytes.endsWith e.1 sourceExt).map (Path.join path ·.1)

/-- The directory to search, if a pattern asks for a search. -/
def searchRoot? (pattern : Bytes) : Option Bytes :=
  if pattern = "..." ∨ Bytes.endsWith pattern "/..." then
    let root := Bytes.dropEnd (Bytes.dropEnd pattern "...") "/"
    some (if root.isEmpty then Path.here else root)
  else none

/-- The source files that a pattern stands for. -/
def ofPattern (fs : FileSystem) (pattern : Bytes) : Except SourceError (List Bytes) :=
  match searchRoot? pattern with
  | some root => search fs root
  | none => do
    match ← (fs.find pattern).mapError (.stat pattern) with
    | .dir es => return inside pattern es
    | .file _ | .link _ =>
      if Bytes.endsWith pattern sourceExt then return [pattern]
      else .error (.notSource pattern)

/-- An increasing list of texts with one more text, unless it is there already. -/
def insert (t : Bytes) : List Bytes → List Bytes
  | [] => [t]
  | u :: us => if t < u then t :: u :: us else if t = u then u :: us else u :: insert t us

/-- The source files that some patterns stand for, in increasing order. White space around
    a pattern is taken off, and empty ones stand for nothing. -/
def collect (fs : FileSystem) (patterns : List Bytes) : Except SourceError (List Bytes) := do
  let found ← ((patterns.map Bytes.trim).filter (!·.isEmpty)).mapM (ofPattern fs)
  return found.flatten.foldr insert []

end Sources

end IndentMarkup
