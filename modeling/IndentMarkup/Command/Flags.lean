import IndentMarkup.Bytes.Quoted

/-!
# Flags

The command takes flags before its paths: `-v` and `-stdout`, which are on or off, and
`-target` with a value. A flag starts with one or two dashes, and its value follows an
equals sign or, for `-target`, may be the next argument. The first argument that is no
flag, or the one after `--`, ends them.
-/

namespace IndentMarkup

/-- What the flags say. -/
structure Flags where
  /-- Whether every compiled file is logged. -/
  verbose : Bool
  /-- The target, possibly empty. -/
  target : Bytes
  /-- Whether the templates are written to the output instead of files. -/
  toStdout : Bool
  deriving DecidableEq

/-- What can be wrong with the flags. -/
inductive FlagError where
  /-- Dashes without a name after them. -/
  | malformed (arg : Bytes)
  /-- A flag that does not exist. -/
  | undefined (name : Bytes)
  /-- A flag without the value that it needs. -/
  | missingValue (name : Bytes)
  /-- A value that is neither true nor false. -/
  | invalidBool (value name : Bytes)
  deriving DecidableEq

/-- The error on one line. -/
def FlagError.message : FlagError → Bytes
  | malformed arg => "bad flag syntax: " ++ arg
  | undefined name => "flag provided but not defined: -" ++ name
  | missingValue name => "flag needs an argument: -" ++ name
  | invalidBool value name =>
    "invalid boolean value " ++ value.quoted ++ " for -" ++ name ++ ": parse error"

/-- What the arguments ask for. -/
inductive Request where
  /-- To compile the given paths, or the input if there are none. -/
  | compile (flags : Flags) (paths : List Bytes)
  /-- To show how the command is used. -/
  | help
  /-- Nothing that makes sense. -/
  | invalid (e : FlagError)
  deriving DecidableEq

namespace Flags

/-- The flags before any argument is read. -/
def initial : Flags := ⟨false, [], false⟩

/-- The truth value that a text denotes. -/
def bool? (t : Bytes) : Option Bool :=
  if t ∈ (["1", "t", "T", "true", "TRUE", "True"] : List Bytes) then some true
  else if t ∈ (["0", "f", "F", "false", "FALSE", "False"] : List Bytes) then some false
  else none

/-- The name of a flag and its value, if it has one, after the dashes. -/
def split (t : Bytes) : Bytes × Option Bytes :=
  (t.takeWhile (· != Byte.eq), (t.dropWhile (· != Byte.eq)).tail?)

/-- A flag without its dashes. -/
def undash (arg : Bytes) : Bytes := (Bytes.after? "--" arg).getD (arg.drop 1)

/-- What the arguments ask for, after some flags. -/
def parseFrom (flags : Flags) : List Bytes → Request
  | [] => .compile flags []
  | arg :: args =>
    if arg.length < 2 ∨ arg.head? ≠ some Byte.dash then .compile flags (arg :: args)
    else if arg = "--" then .compile flags args
    else if (undash arg).head? ∈ [none, some Byte.dash, some Byte.eq] then
      .invalid (.malformed arg)
    else
      let (name, value) := split (undash arg)
      if name = "v" ∨ name = "stdout" then
        match bool? (value.getD "true") with
        | none => .invalid (.invalidBool (value.getD []) name)
        | some b =>
          parseFrom (if name = "v" then { flags with verbose := b }
            else { flags with toStdout := b }) args
      else if name = "target" then
        match value, args with
        | some target, args => parseFrom { flags with target } args
        | none, target :: args => parseFrom { flags with target } args
        | none, [] => .invalid (.missingValue name)
      else if name = "help" ∨ name = "h" then .help
      else .invalid (.undefined name)

/-- What the arguments of the command ask for. -/
def parse (args : List Bytes) : Request := parseFrom initial args

end Flags

end IndentMarkup
