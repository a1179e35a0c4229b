import IndentMarkup.Command.Run

/-!
# The executable

Loads the part of the file system that the arguments ask for, or the standard input, runs the
command on it (`Command.run`), and carries out what has become of it: the files that have
changed are written, and so are the output and the messages.

Directories are listed when a path leads through them (`loadPath`), so that a path may start at
the root and go up from the working directory. All files are taken to be writable.
-/

namespace IndentMarkup.Main

/-- A text as a string, for the names of files. -/
def string (t : Bytes) : String := (String.fromUTF8? t.toByteArray).getD ""

/-- The path of a location. -/
def pathOf (loc : Location) : String := "/" ++ string (Bytes.join "/" loc)

/-- The location of a path without links in it. -/
def locationOf (path : String) : Location :=
  (Path.names (Bytes.ofString path)).filter (!·.isEmpty)

/-! ## Loading -/

/-- An entry of a directory, not yet with what is in it. The target of a link is what it leads
    to in the end, or a name that no file has. -/
def loadEntry (e : IO.FS.DirEntry) : IO (Bytes × FileTree) := do
  let name := Bytes.ofString e.fileName
  match (← e.path.symlinkMetadata).type with
  | .dir => return (name, .empty)
  | .symlink =>
    let target ← try pure (← IO.FS.realPath e.path).toString catch _ => pure "/\x00"
    return (name, .link (Bytes.ofString target))
  | _ => return (name, .file [])

/-- The tree with the entries of the directory at a location, if they are not there yet. -/
def loadDir (t : FileTree) (loc : Location) : IO FileTree := do
  match t.get? loc with
  | some (.dir []) =>
    let entries ← (System.mkFilePath [pathOf loc]).readDir
    return t.put loc (.dir (← entries.toList.mapM loadEntry))
  | _ => return t

/-- The tree with all that is below a location. -/
partial def loadBelow (t : FileTree) (loc : Location) : IO FileTree := do
  let t ← loadDir t loc
  match t.get? loc with
  | some (.dir es) => es.foldlM (fun t e => loadBelow t (loc ++ [e.1])) t
  | _ => return t

/-- The tree with all directories that names lead through from a location. -/
partial def loadNames (t : FileTree) (loc : Location) : List Bytes → IO FileTree
  | [] => loadDir t loc
  | n :: ns => do
    let t ← loadDir t loc
    if n.isEmpty || n == Path.here then loadNames t loc ns
    else if n == Path.parent then loadNames t loc.dropLast ns
    else
      match t.get? (loc ++ [n]) with
      | some (.link target) => loadNames t [] (Path.names target ++ ns)
      | some (.dir _) => loadNames t (loc ++ [n]) ns
      | _ => return t

/-- The file system with all directories that a path leads through. -/
def loadPath (fs : FileSystem) (path : Bytes) : IO FileSystem := do
  return { fs with tree := ← loadNames fs.tree (fs.start path) (Path.names path) }

/-- The file system with all that is below the location of a path. -/
def loadAll (fs : FileSystem) (path : Bytes) : IO FileSystem := do
  let fs ← loadPath fs path
  match fs.locate path with
  | .ok loc => return { fs with tree := ← loadBelow fs.tree loc }
  | .error _ => return fs

/-- The file system with all that a pattern is about. -/
def loadPattern (fs : FileSystem) (pattern : Bytes) : IO FileSystem := do
  match Sources.searchRoot? pattern with
  | none => loadPath fs pattern
  | some root =>
    let fs ← loadAll fs root
    match fs.find root with
    | .ok (.dir es) => es.foldlM (fun fs e => loadAll fs (Path.join root e.1)) fs
    | _ => return fs

/-- The file system with a source, and the directories that its template is written through. -/
def loadSource (fs : FileSystem) (path : Bytes) : IO FileSystem := do
  let fs ← loadPath (← loadPath fs path) (templatePath path)
  match fs.locate path with
  | .error _ => return fs
  | .ok loc =>
    match fs.tree.get? loc with
    | some (.file _) =>
      let content ← IO.FS.readBinFile (pathOf loc)
      return { fs with tree := fs.tree.put loc (.file content.toList) }
    | _ => return fs

/-- The file system as far as it matters for some patterns. -/
def load (patterns : List Bytes) : IO FileSystem := do
  let cwd := locationOf (← IO.FS.realPath (← IO.currentDir)).toString
  let fs : FileSystem := ⟨← loadNames .empty [] cwd, cwd, []⟩
  let fs ← patterns.foldlM (fun fs x => loadPattern fs x.trim) fs
  match Sources.collect fs patterns with
  | .ok paths => paths.foldlM loadSource fs
  | .error _ => return fs

/-- All that is left to read from a stream, after what was read already. -/
partial def readAll (input : IO.FS.Stream) (done : ByteArray) : IO Bytes := do
  let chunk ← input.read 65536
  if chunk.isEmpty then return done.toList else readAll input (done ++ chunk)

/-! ## Writing -/

/-- Writes the files of `new` that `old` does not have. -/
def writeChanges (old new : FileTree) : IO Unit := do
  for (loc, content) in new.files do
    let same := match old.get? loc with
      | some (.file c) => c == content
      | _ => false
    unless same do
      IO.FS.writeBinFile (pathOf loc) content.toByteArray

end IndentMarkup.Main

open IndentMarkup in
/-- Runs the command and returns its exit code. -/
def main (args : List String) : IO UInt32 := do
  let args := args.map Bytes.ofString
  let (files, stdin) ← match Flags.parse args with
    | .compile _ [] => pure (⟨.empty, [], []⟩, ← Main.readAll (← IO.getStdin) .empty)
    | .compile _ patterns => pure (← Main.load patterns, [])
    | _ => pure (⟨.empty, [], []⟩, [])
  let r := Command.run files args stdin
  Main.writeChanges files.tree r.files.tree
  (← IO.getStdout).write r.stdout.toByteArray
  (← IO.getStderr).write r.stderr.toByteArray
  return r.code.toUInt32
