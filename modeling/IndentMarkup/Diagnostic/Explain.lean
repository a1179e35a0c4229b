import IndentMarkup.Diagnostic.Basic

/-!
# Excerpts

The long form of a diagnostic shows, for each of its details, the line of the
source and under it the range, marked by carets, with the message. The lines are
numbered in a gutter as wide as the longest number (`Diagnostic.gutter`), which
ends in a bar. Below the excerpts stand the kind and the hint.

```
demo:3:5
  |
3 |  %p(a) text
  |    ^~~~ unexpected token
  = malformed attribute
```
-/

namespace IndentMarkup

/-- The marks under a range: carets under two or more columns, otherwise a caret
    with a tail. -/
def Range.underline (r : Range) : Bytes :=
  if r.width ≤ 1 then "^~~~" else List.replicate r.width.toNat Byte.caret

namespace Detail

/-- The line of the source that a detail is about: the one it carries or, if that
    is empty, the line of that number in the file that `load` gives, without the
    carriage returns at its end. -/
def sourceLine (load : Bytes → Bytes) (d : Detail) : Bytes :=
  if d.source.isEmpty then
    let lines := Bytes.pieces Byte.lf (load d.pos.file)
    if 1 ≤ d.pos.line then
      let line := lines.getD (d.pos.line - 1).toNat []
      (line.reverse.dropWhile (· == Byte.cr)).reverse
    else []
  else d.source

/-- The rows of a detail in a gutter of width `w`: an empty one, the line of the
    source, and the marks under the range followed by the message. -/
def excerpt (load : Bytes → Bytes) (w : Nat) (d : Detail) : List Bytes :=
  let number := Bytes.ofInt d.pos.line
  [Bytes.spaces w ++ " |",
    Bytes.spaces (w - number.length) ++ number ++ " |" ++ d.sourceLine load,
    Bytes.spaces w ++ " |" ++ Bytes.spaces (d.pos.col - 1).toNat ++
      (d.range.getD default).underline ++ " " ++ d.message]

end Detail

namespace Diagnostic

/-- The width of the line numbers: that of the longest one. -/
def gutter (d : Diagnostic) : Nat :=
  (d.details.map fun x => (Bytes.ofInt x.pos.line).length).foldl max 0

/-- The rows of the details `ds` in a gutter of width `w`, after a detail in the
    file `shown`: the place of a detail is shown where the file changes, and an
    ellipsis stands between two details. -/
def excerpts (load : Bytes → Bytes) (w : Nat) (shown : Option Bytes) : List Detail → List Bytes
  | [] => []
  | d :: ds =>
    (if shown = some d.pos.file then [] else [d.pos.text]) ++ d.excerpt load w ++
      (if ds.isEmpty then [] else [Bytes.spaces w ++ "..."]) ++
      excerpts load w (some d.pos.file) ds

/-- The rows below the excerpts: the kind and the hint. -/
def remarks (d : Diagnostic) (w : Nat) : List Bytes :=
  (match d.kind with
    | none => []
    | some k => [Bytes.spaces w ++ " = " ++ k.text]) ++
  (if d.hint.isEmpty then []
    else [Bytes.spaces w ++ " |", Bytes.spaces w ++ " = hint: " ++ d.hint])

/-- The rows of a diagnostic. -/
def rows (load : Bytes → Bytes) (d : Diagnostic) : List Bytes :=
  excerpts load d.gutter none d.details ++ d.remarks d.gutter

/-- The diagnostic with excerpts of the source, where `load` gives the content of
    a file, which is empty if the file cannot be read. -/
def explain (load : Bytes → Bytes) (d : Diagnostic) : Bytes :=
  (d.rows load).flatMap (· ++ [Byte.lf])

end Diagnostic

end IndentMarkup
