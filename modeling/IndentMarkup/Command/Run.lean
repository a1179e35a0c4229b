import IndentMarkup.Command.Flags
import IndentMarkup.Command.Sources
import IndentMarkup.Compile
import IndentMarkup.Diagnostic.Explain

/-!
# The command

The command compiles source files to templates beside them, or its input to its output if
it gets no paths. It runs in a file system and leaves it with the templates that it has written
(`Command.run`). A source that cannot be compiled is reported, and the others
are compiled all the same; the exit code then is 1. It is 2 if the flags make no sense.
-/

namespace IndentMarkup.Command

/-- How the command is used. -/
def usage : Bytes :=
  "Usage: hamlbars [flags] [paths...]\n" ++
  "\n" ++
  "Compiles each *.hamlbars file into a *.hbs file next to it.\n" ++
  "Reads stdin and writes stdout if no paths are given.\n" ++
  "\n" ++
  "Paths:\n" ++
  "  - ./dir           only that directory (non-recursive)\n" ++
  "  - ./dir/...       recurse from that directory\n" ++
  "  - ./x.hamlbars    only that file\n" ++
  "  -stdout\n" ++
  "    \twrite all templates to stdout instead of *.hbs files\n" ++
  "  -target string\n" ++
  "    \tEmber release to compile for, e.g. v1.13 " ++
    "(bindings become plain attributes from v1.11 on)\n" ++
  "  -v\tlog every compiled file\n"

/-- The name of the input in positions. -/
def stdinName : Bytes := "<stdin>"

/-- The reasons why a source file is not compiled. -/
inductive FileError where
  /-- The source cannot be opened. -/
  | unreadable (path : Bytes) (e : PathError)
  /-- There is no template. -/
  | transpile (e : TranspileError)
  /-- The template cannot be written. -/
  | unwritable (path : Bytes) (e : PathError)

/-- What the command has done so far. -/
structure State where
  /-- The output. -/
  stdout : Bytes
  /-- The messages. -/
  stderr : Bytes
  /-- The files. -/
  files : FileSystem

namespace State

/-- The state with a line logged, if that is asked for. -/
def log (s : State) (flags : Flags) (line : Bytes) : State :=
  if flags.verbose then { s with stderr := s.stderr ++ "hamlbars: " ++ line ++ "\n" } else s

/-- The state with an error reported: with excerpts of the source if it has a place. -/
def report (s : State) (message : Bytes) (d : Option Diagnostic) : State :=
  let text := match d with
    | some d => d.explain s.files.load
    | none => message
  { s with stderr := s.stderr ++ text ++ "\n" }

/-- The state with a text added to the output. -/
def print (s : State) (t : Bytes) : State := { s with stdout := s.stdout ++ t }

end State

namespace FileError

/-- The error on one line. -/
def message : FileError → Bytes
  | unreadable path e => "open " ++ path ++ ": " ++ e.text
  | transpile e => e.message
  | unwritable path e => "cannot write template: open " ++ path ++ ": " ++ e.text

/-- The diagnostic of an error that has a place. -/
def diagnostic? : FileError → Option Diagnostic
  | transpile e => e.diagnostic?
  | unreadable _ _ | unwritable _ _ => none

end FileError

/-- What is read from an entry that is opened by the given path. A directory can be opened, but
    not read. -/
def input (path : Bytes) : FileTree → Except Bytes Bytes
  | .file c => .ok c
  | .dir _ | .link _ => .error ("read " ++ path ++ ": " ++ PathError.isDirectory.text)

/-- The state after a source file is compiled, and why it is not, if so. The template is
    only written if there is a whole one. -/
def compileFile (flags : Flags) (s : State) (path : Bytes) : State × Option FileError :=
  match s.files.find path with
  | .error e => (s, some (.unreadable path e))
  | .ok e =>
    let out := templatePath path
    let destination : Bytes := if flags.toStdout then "stdout" else out
    let s := s.log flags (path ++ " -> " ++ destination)
    match transpile path (input path e) none ⟨[], flags.target⟩ with
    | .error e => (s, some (.transpile e))
    | .ok template =>
      if flags.toStdout then (s.print (template ++ [Byte.lf]), none)
      else
        match s.files.write out (template ++ [Byte.lf]) with
        | .error e => (s, some (.unwritable out e))
        | .ok files => ({ s with files }, none)

/-- The state after source files are compiled, and whether all of them are. -/
def compileFiles (flags : Flags) (s : State) : List Bytes → State × Bool
  | [] => (s, true)
  | path :: paths =>
    match compileFile flags s path with
    | (s, none) => compileFiles flags s paths
    | (s, some e) => ((compileFiles flags (s.report e.message e.diagnostic?) paths).1, false)

/-- The state after the files that patterns stand for are compiled, and whether all are. -/
def compilePatterns (flags : Flags) (s : State) (patterns : List Bytes) : State × Bool :=
  match Sources.collect s.files patterns with
  | .error e => (s.report e.message none, false)
  | .ok paths =>
    let found := "found " ++ Bytes.ofNat paths.length ++ " " ++ sourceExt ++ " file(s)"
    compileFiles flags (s.log flags found) paths

/-- The state after the input is compiled, and whether it is. -/
def compileInput (flags : Flags) (s : State) (stdin : Bytes) : State × Bool :=
  match transpile stdinName (.ok stdin) none ⟨[], flags.target⟩ with
  | .error e => (s.report e.message e.diagnostic?, false)
  | .ok template => (s.print template, true)

/-- What the command leaves behind. -/
structure Outcome where
  /-- The exit code. -/
  code : Nat
  /-- The output. -/
  stdout : Bytes
  /-- The messages. -/
  stderr : Bytes
  /-- The files. -/
  files : FileSystem

/-- The outcome of a state, in which all is compiled or not. -/
def State.outcome (s : State) (ok : Bool) : Outcome :=
  ⟨if ok then 0 else 1, s.stdout, s.stderr, s.files⟩

/-- What the command does in a file system, with the given arguments and input. -/
def run (files : FileSystem) (args : List Bytes) (stdin : Bytes) : Outcome :=
  let s : State := ⟨[], [], files⟩
  match Flags.parse args with
  | .help => ⟨0, [], usage, files⟩
  | .invalid e => ⟨2, [], e.message ++ "\n" ++ usage, files⟩
  | .compile flags [] =>
    let (s, ok) := compileInput flags s stdin
    s.outcome ok
  | .compile flags patterns =>
    let (s, ok) := compilePatterns flags s patterns
    s.outcome ok

end IndentMarkup.Command
