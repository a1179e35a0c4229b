import IndentMarkup.Position

/-!
# Diagnostics

A diagnostic says what is wrong at which places of a source. It has a list of
details, each a message at a range, the kind of the problem, and possibly a hint
at what to do about it. There are two ways to show one:

* `Diagnostic.message`, on one line, for the first detail alone;
* `Diagnostic.explain`, an excerpt of the source for each detail, with carets
  under the range.
-/

namespace IndentMarkup

/-- The kinds of problems. -/
inductive Kind where
  /-- Lines that are not indented as the document's other lines, skip a level or
      are nested where nothing can be. -/
  | indentation
  /-- An interpolation without its closing brace. -/
  | unterminatedInterpolation
  /-- A broken element header: its names, ids, attributes, bindings or helpers. -/
  | malformedAttribute
  /-- An else without the block it belongs to. -/
  | unexpectedElse
  /-- A block with an unknown keyword, or without or with one argument too many. -/
  | malformedBlock
  /-- Nothing where an expression should be. -/
  | emptyExpression
  /-- A target that is no version. -/
  | invalidTarget
  deriving DecidableEq

/-- The name of a kind in messages. -/
def Kind.text : Kind → Bytes
  | indentation => "indentation error"
  | unterminatedInterpolation => "unterminated interpolation"
  | malformedAttribute => "malformed attribute"
  | unexpectedElse => "unexpected else"
  | malformedBlock => "malformed block"
  | emptyExpression => "empty expression"
  | invalidTarget => "invalid target version"

/-- A message about a range of a source. -/
structure Detail where
  /-- The range, if the message is about one. -/
  range : Option Range
  /-- What there is to say. -/
  message : Bytes
  /-- The line of the source on which the range starts. If it is empty, the line
      is looked up in the file of the range. -/
  source : Bytes
  deriving DecidableEq

/-- The place of a detail, all zero if it has no range. -/
def Detail.pos (d : Detail) : Pos := (d.range.getD default).start

/-- What is wrong, and where. -/
structure Diagnostic where
  /-- The messages, the main one first. -/
  details : List Detail
  /-- The kind of problem, if it is one of the known kinds. -/
  kind : Option Kind
  /-- What to do about it, possibly empty. -/
  hint : Bytes
  deriving DecidableEq

namespace Diagnostic

/-- The place of the first detail, all zero if there is none. -/
def pos (d : Diagnostic) : Pos := (d.details.head?.map Detail.pos).getD default

/-- The diagnostic on one line: the place and the message of the first detail,
    and the kind. -/
def message (d : Diagnostic) : Bytes :=
  let first : Bytes :=
    match d.details with
    | [] => []
    | x :: _ => if x.range.isSome then x.pos.text ++ ": " ++ x.message else x.message
  match d.kind with
  | none => first
  | some k => first ++ ": " ++ k.text

end Diagnostic

end IndentMarkup
