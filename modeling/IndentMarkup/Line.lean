import IndentMarkup.Bytes.Space
import IndentMarkup.Fault

/-!
# Lines

A document is cut into lines, each at a depth given by its indentation
(`Line.split`). The blanks around a line's text are not part of it, and a line of
nothing but blanks is *blank*: it has no depth and counts for nothing.

The first indented line fixes the unit of indentation, and every other indented
line has to fit that unit (`IndentUnit.level`).
-/

namespace IndentMarkup

/-- The depth of a line indented by `lead`, which is not empty, in a document
    with the given unit of indentation, if it has one yet, and the unit from
    there on. -/
def IndentUnit.level (unit : Option IndentUnit) (lead : Bytes) :
    Except Problem (Nat × IndentUnit) :=
  let unit := unit.getD (ofLead lead)
  if Byte.tab ∈ lead ∧ Byte.space ∈ lead then .error .mixedIndent
  else if unit.byte ∉ lead then .error (.foreignIndent unit)
  else if lead.length % unit.width ≠ 0 then .error (.unevenIndent lead.length unit)
  else .ok (lead.length / unit.width, unit)

/-- A line of a source. -/
structure Line where
  /-- The name of the file, possibly empty. -/
  file : Bytes
  /-- The number of the line, counted from 1. -/
  number : Nat
  /-- The level of indentation. -/
  depth : Nat
  /-- The number of bytes that the line is indented by. -/
  indent : Nat
  /-- The line without the blanks around it. -/
  text : Bytes
  /-- The line as it is in the source, without what ends it. -/
  raw : Bytes
  deriving DecidableEq

namespace Line

/-- Whether there is nothing but blanks on the line. -/
def isBlank (l : Line) : Bool := l.text.isEmpty

/-- Where the text of the line is. -/
def range (l : Line) : Range :=
  .onLine l.file l.number (l.indent + 1) (l.indent + l.text.length + 1)

/-- The diagnostic of a fault in the text of the line. -/
def diagnostic (l : Line) (f : Fault) : Diagnostic :=
  f.diagnostic l.file l.number l.indent l.raw

/-- The line `raw` in a document with the given unit of indentation, if it has
    one yet, and the unit from there on. -/
def place (file : Bytes) (unit : Option IndentUnit) (number : Nat) (raw : Bytes) :
    Except Diagnostic (Line × Option IndentUnit) :=
  let body := Bytes.dropTrailingBlanks raw
  let lead := body.takeWhile Bytes.isBlank
  let line : Line :=
    { file, number, depth := 0, indent := lead.length, text := Bytes.dropBlanks body, raw }
  if lead.isEmpty then .ok (line, unit)
  else
    match IndentUnit.level unit lead with
    | .ok (depth, unit) => .ok ({ line with depth }, some unit)
    | .error p => .error (p.diagnostic (.onLine file number 1 (lead.length + 1)) raw)

/-- The lines `raws`, counted from `number`, in a document with the given unit of
    indentation, if it has one yet. -/
def placeAll (file : Bytes) (unit : Option IndentUnit) (number : Nat) :
    List Bytes → Except Diagnostic (List Line)
  | [] => .ok []
  | raw :: raws => do
    let (line, unit) ← place file unit number raw
    let lines ← placeAll file unit (number + 1) raws
    return line :: lines

/-- The lines of a source as they are written: the pieces between line feeds,
    each without a carriage return at its end. An empty source has no line. -/
def raws (src : Bytes) : List Bytes :=
  if src.isEmpty then [] else (Bytes.pieces Byte.lf src).map (Bytes.dropEnd · [Byte.cr])

/-- The lines of a source. -/
def split (file src : Bytes) : Except Diagnostic (List Line) := placeAll file none 1 (raws src)

end Line

end IndentMarkup
