import IndentMarkup.Bytes.Quoted
import IndentMarkup.Diagnostic.Basic
import IndentMarkup.Indent
import IndentMarkup.Keyword

/-!
# What can be wrong with a source

Every way in which a source can be wrong is a `Problem`. Its kind, its message
and its hint are functions of the problem, so two sources are wrong in the same
way exactly if their problems are equal.

A `Fault` is a problem at some columns of a line's text, counted from the first
byte of the text. It does not know the line, its number or its indentation: those
are added when the fault is reported (`Fault.diagnostic`).
-/

namespace IndentMarkup

/-- What could stand in the place of an unexpected token of an attribute group. -/
inductive Expectation where
  /-- Nothing is said about it: another attribute or the end of the group. -/
  | unsaid
  /-- The equals sign and the value after an attribute's key. -/
  | assignment
  /-- The value after an equals sign. -/
  | value
  deriving DecidableEq

/-- The expectation as it is added to a message. -/
def Expectation.text : Expectation → Bytes
  | unsaid => ""
  | assignment => " (expected \"=\" AttrValue)"
  | value => " (expected AttrValue)"

/-- The ways in which a source can be wrong. -/
inductive Problem where
  /-- Both tabs and spaces in the indentation of one line. -/
  | mixedIndent
  /-- Indentation by the other character than the document's unit. -/
  | foreignIndent (unit : IndentUnit)
  /-- Indentation by a number of bytes that is not a multiple of the unit. -/
  | unevenIndent (width : Nat) (unit : IndentUnit)
  /-- A line more than one level deeper than its parent. -/
  | skippedLevel (levels : Int)
  /-- A line nested in a text or an expression. -/
  | nestedInLeaf
  /-- A line nested in an element that has content on its own line. -/
  | nestedInInline (tag : Bytes)
  /-- An else that does not follow a block it could belong to. -/
  | strayElse
  /-- A tree with such an else. -/
  | orphanElse
  /-- A dash that no keyword follows. -/
  | missingKeyword
  /-- A word after a dash that is no keyword. -/
  | unknownKeyword (name : Bytes)
  /-- An else with an argument. -/
  | elseArgument
  /-- Another block without an argument. -/
  | missingArgument (keyword : Bytes)
  /-- An equals sign that no expression follows. -/
  | missingExpression
  /-- An interpolation that is not closed. -/
  | openInterpolation
  /-- An interpolation of nothing. -/
  | emptyInterpolation
  /-- A percent sign that no tag follows. -/
  | missingTag
  /-- A second id, after the given one. -/
  | repeatedId (id : Bytes)
  /-- A hash sign or dot that no name follows. -/
  | missingName (sigil : UInt8)
  /-- A group that is not closed. -/
  | openGroup (opening closing : UInt8)
  /-- A helper call of nothing. -/
  | emptyHelper
  /-- A second group of bindings. -/
  | repeatedBindings
  /-- A group of bindings after a helper call. -/
  | lateBindings
  /-- A text from which on a group cannot be cut into tokens. -/
  | invalidInput (rest : Bytes)
  /-- A token that no attribute can have in its place. -/
  | unexpectedToken (token : Bytes) (expected : Expectation)
  deriving DecidableEq

namespace Problem

/-- The kind of a problem. -/
def kind : Problem → Kind
  | mixedIndent | foreignIndent _ | unevenIndent _ _ => .indentation
  | skippedLevel _ | nestedInLeaf | nestedInInline _ => .indentation
  | strayElse | orphanElse => .unexpectedElse
  | missingKeyword | unknownKeyword _ | elseArgument | missingArgument _ => .malformedBlock
  | missingExpression | emptyInterpolation => .emptyExpression
  | openInterpolation => .unterminatedInterpolation
  | missingTag | repeatedId _ | missingName _ | openGroup _ _ => .malformedAttribute
  | emptyHelper | repeatedBindings | lateBindings => .malformedAttribute
  | invalidInput _ | unexpectedToken _ _ => .malformedAttribute

/-- The problem in words. -/
def message : Problem → Bytes
  | mixedIndent => "indentation mixes tabs and spaces"
  | foreignIndent unit => "indentation must use " ++ unit.text ++ " per level"
  | unevenIndent width unit =>
    "indentation of " ++ Bytes.ofNat width ++ " is not a multiple of " ++ unit.text
  | skippedLevel levels =>
    "line is indented " ++ Bytes.ofInt levels ++ " levels deeper than its parent"
  | nestedInLeaf => "illegal nesting: plain text and expressions cannot contain nested lines"
  | nestedInInline tag => "illegal nesting: %" ++ tag ++ " already has content on its own line"
  | strayElse => "else must directly follow an if or unless block on the same level"
  | orphanElse => "else must directly follow an if or unless block"
  | missingKeyword => "expected a block keyword after '-'"
  | unknownKeyword name =>
    "unknown block keyword '" ++ name ++ "', expected " ++
      Bytes.alternatives (Keyword.known.map Keyword.name)
  | elseArgument => "else does not take an argument"
  | missingArgument keyword => keyword ++ " requires an argument"
  | missingExpression => "expected an expression after '='"
  | openInterpolation => "interpolation is missing its closing '\x7d'"
  | emptyInterpolation => "interpolation is empty"
  | missingTag => "expected a tag name after '%'"
  | repeatedId id => "element already has the id '" ++ id ++ "'"
  | missingName sigil => "expected a name after '" ++ [sigil] ++ "'"
  | openGroup opening closing => "missing '" ++ [closing] ++ "' to close '" ++ [opening] ++ "'"
  | emptyHelper => "empty helper call"
  | repeatedBindings => "element already has a bind-attr group"
  | lateBindings => "bind-attr group must precede helper calls"
  | invalidInput rest => "invalid input text " ++ rest.sample.quoted
  | unexpectedToken token expected => "unexpected token " ++ token.quoted ++ expected.text

/-- What to do about a problem, empty where there is nothing to say. -/
def hint : Problem → Bytes
  | skippedLevel _ => "nested content must be indented by exactly one level"
  | nestedInInline _ => "move the inline content into its own nested line"
  | repeatedId _ => "an element can only have a single id, use a class instead"
  | repeatedBindings => "put all bindings into a single \x7b...\x7d group"
  | _ => ""

/-- The diagnostic of a problem at a range that starts on the line `source`. -/
def diagnostic (p : Problem) (range : Range) (source : Bytes) : Diagnostic where
  details := [⟨some range, p.message, source⟩]
  kind := some p.kind
  hint := p.hint

end Problem

/-- A problem in a line's text. -/
structure Fault where
  /-- The offset of the first byte at fault. -/
  start : Nat
  /-- The offset after the last byte at fault. -/
  stop : Nat
  /-- What is wrong. -/
  problem : Problem
  deriving DecidableEq

namespace Fault

/-- The fault in a text that starts `n` bytes further to the left. -/
def shift (n : Nat) (f : Fault) : Fault := ⟨f.start + n, f.stop + n, f.problem⟩

/-- The offset at which a fault is shown to end. One in no byte at all is shown as if it
    had one. -/
def shownStop (f : Fault) : Nat := max f.stop (f.start + 1)

/-- The range of a fault in a text after the first `col` columns of a line. -/
def range (f : Fault) (file : Bytes) (line col : Int) : Range :=
  .onLine file line (col + f.start + 1) (col + f.shownStop + 1)

/-- The diagnostic of a fault in a text after the first `col` columns of a line. -/
def diagnostic (f : Fault) (file : Bytes) (line col : Int) (source : Bytes) : Diagnostic :=
  f.problem.diagnostic (f.range file line col) source

/-- The diagnostic of a fault in a text that was given its place by hand, so that
    `col` is any sum of 64-bit integers. -/
def diagnosticAt (f : Fault) (file : Bytes) (line col : Int) (source : Bytes) : Diagnostic :=
  f.problem.diagnostic (f.range file line col).wrap source

/-- A place given by hand is like one in a source, as long as the fault ends before the
    largest column. -/
theorem diagnosticAt_eq_diagnostic {f : Fault} {file : Bytes} {line col : Int} {source : Bytes}
    (h : 0 ≤ col) (h' : col + f.shownStop + 1 < 0x8000000000000000) :
    f.diagnosticAt file line col source = f.diagnostic file line col source := by
  have hle : f.start + 1 ≤ f.shownStop := Nat.le_max_right ..
  have hstart : wrap64 (col + f.start + 1) = col + f.start + 1 :=
    wrap64_eq_self (by omega) (by omega)
  have hstop : wrap64 (col + f.shownStop + 1) = col + f.shownStop + 1 :=
    wrap64_eq_self (by omega) h'
  rw [diagnosticAt, diagnostic, Range.wrap, range, Range.onLine, hstart, hstop]

end Fault

end IndentMarkup
