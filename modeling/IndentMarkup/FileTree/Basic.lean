import IndentMarkup.FileTree.Path

/-!
# Trees of files

Files are in directories, which form a tree. Every entry of a tree has a *location*, the names
that lead to it from the root. A directory may also have symbolic links as entries. A link has a
path as its target, and what is below the target is not below the link in the tree: only those
who follow a path go through a link (`FileSystem.locate`).
-/

namespace IndentMarkup

/-- A file, a directory or a link. -/
inductive FileTree where
  /-- A file. -/
  | file (content : Bytes)
  /-- A directory with its entries by name. -/
  | dir (entries : List (Bytes × FileTree))
  /-- A symbolic link. -/
  | link (target : Bytes)

/-- The names from the root of a tree to one of its entries. -/
abbrev Location := List Bytes

namespace FileTree

/-- The tree without any file. -/
def empty : FileTree := dir []

/-- Whether an entry is a directory. -/
def isDir : FileTree → Bool
  | dir _ => true
  | file _ | link _ => false

/-! ## Locations -/

/-- The entry at a location. -/
def get? : FileTree → Location → Option FileTree
  | t, [] => some t
  | dir es, n :: ns => (es.lookup n).bind (get? · ns)
  | file _, _ :: _ | link _, _ :: _ => none

/-- The entries with the one of the given name changed by `f`, which gets an empty
    directory if there is none. -/
def alter (f : FileTree → FileTree) (name : Bytes) :
    List (Bytes × FileTree) → List (Bytes × FileTree)
  | [] => [(name, f empty)]
  | (n, t) :: es => if n = name then (n, f t) :: es else (n, t) :: alter f name es

/-- The tree with the entry `new` at a location. Directories on the way are made if they
    are missing; below a file or a link nothing can be put. -/
def put : FileTree → Location → FileTree → FileTree
  | _, [], new => new
  | dir es, n :: ns, new => dir (alter (put · ns new) n es)
  | file c, _ :: _, _ => file c
  | link target, _ :: _, _ => link target

mutual

/-- The files of a tree, with their locations. -/
def files : FileTree → List (Location × Bytes)
  | file c => [([], c)]
  | dir es => filesOfAll es
  | link _ => []

/-- The files of the entries of a directory, with their locations from there. -/
def filesOfAll : List (Bytes × FileTree) → List (Location × Bytes)
  | [] => []
  | (n, t) :: es => (files t).map (fun f => (n :: f.1, f.2)) ++ filesOfAll es

end

/-! ## Listings -/

/-- Entries in the order of their names with one more. -/
def insertEntry (e : Bytes × FileTree) : List (Bytes × FileTree) → List (Bytes × FileTree)
  | [] => [e]
  | e' :: es => if e'.1 < e.1 then e' :: insertEntry e es else e :: e' :: es

/-- The entries of a directory in the order of their names. -/
def inOrder (es : List (Bytes × FileTree)) : List (Bytes × FileTree) := es.foldr insertEntry []

end FileTree

end IndentMarkup
