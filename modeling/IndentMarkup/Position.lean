import IndentMarkup.Bytes.Basic

/-!
# Positions

A position names a line of a file and a column on it, both counted from 1 and
the column in bytes; the file name is empty for a source without one. A range is
the positions from its start up to, and not including, its stop.

Lines and columns are 64-bit integers of either sign, so that a range may be
given by hand as well as found in a source. What is computed from columns given by
hand is brought back to 64 bits (`wrap64`): the width of a range (`Range.width`),
and the columns of a range that was moved (`Range.wrap`). The columns of a text in
memory are far too small for that to change them.
-/

namespace IndentMarkup

/-- The 64-bit integer that agrees with a number in its last 64 bits, so that the
    smallest one comes after the largest one. -/
def wrap64 (n : Int) : Int := n.bmod 0x10000000000000000

theorem wrap64_eq_self {n : Int} (h : -0x8000000000000000 ≤ n) (h' : n < 0x8000000000000000) :
    wrap64 n = n :=
  Int.bmod_eq_of_le (by omega) (by omega)

/-- A place in a source. -/
structure Pos where
  /-- The name of the file, possibly empty. -/
  file : Bytes
  /-- The line, counted from 1. -/
  line : Int
  /-- The column, counted from 1 in bytes. -/
  col : Int
  deriving DecidableEq, Inhabited

namespace Pos

/-- The position as it is written in messages: line and column, after the file
    if it has a name. -/
def text (p : Pos) : Bytes :=
  let place := Bytes.ofInt p.line ++ ":" ++ Bytes.ofInt p.col
  if p.file.isEmpty then place else p.file ++ ":" ++ place

end Pos

/-- The places from `start` up to, and not including, `stop`. -/
structure Range where
  /-- The first place. -/
  start : Pos
  /-- The place after the last one. -/
  stop : Pos
  deriving DecidableEq, Inhabited

namespace Range

/-- The columns `first` up to `last` on one line of a file. -/
def onLine (file : Bytes) (line first last : Int) : Range :=
  ⟨⟨file, line, first⟩, ⟨file, line, last⟩⟩

/-- The number of columns from start to stop, as a 64-bit integer. -/
def width (r : Range) : Int := wrap64 (r.stop.col - r.start.col)

/-- The range with its columns brought back to 64 bits. -/
def wrap (r : Range) : Range where
  start := { r.start with col := wrap64 r.start.col }
  stop := { r.stop with col := wrap64 r.stop.col }

end Range

end IndentMarkup
