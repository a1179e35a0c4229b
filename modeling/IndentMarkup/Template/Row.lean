import IndentMarkup.Bytes.Basic

/-!
# Rows

A template consists of rows, each at a level of indentation, with a line feed between each two
of them.
-/

namespace IndentMarkup

/-- A line of a template. -/
structure Row where
  /-- The level of indentation. -/
  level : Nat
  /-- The text, without indentation. -/
  text : Bytes
  deriving DecidableEq

/-- A row as it is written: two spaces for each level, but none before an empty text. -/
def Row.bytes (r : Row) : Bytes :=
  if r.text.isEmpty then [] else Bytes.spaces (2 * r.level) ++ r.text

end IndentMarkup
