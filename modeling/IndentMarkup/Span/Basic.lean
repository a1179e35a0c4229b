import IndentMarkup.Bytes.Basic

/-!
# Spans

A span is text with interpolated expressions: a sequence of segments, each
literal text or an expression. In a source the expression `e` is written
`#{e}`, in a template `{{e}}`.
-/

namespace IndentMarkup

/-- A part of a span. -/
inductive Segment where
  /-- Text that stands for itself. -/
  | literal (text : Bytes)
  /-- An expression, without what delimits it. -/
  | interpolation (value : Bytes)
  deriving DecidableEq

/-- Text with interpolated expressions. -/
abbrev Span := List Segment

/-- An expression as it is written in a template. -/
def mustache (e : Bytes) : Bytes := "\x7b\x7b" ++ e ++ "\x7d\x7d"

/-- A segment as it is written in a template. -/
def Segment.template : Segment → Bytes
  | literal text => text
  | interpolation value => mustache value

/-- A segment as it is written in a source. -/
def Segment.source : Segment → Bytes
  | literal text => text
  | interpolation value => "#\x7b" ++ value ++ "\x7d"

namespace Span

/-- The span of a literal text, which has no segment if the text is empty. -/
def ofLiteral (t : Bytes) : Span := if t.isEmpty then [] else [.literal t]

/-- Whether there is nothing to see of a span: it has no expression, and no text. -/
def isHollow (s : Span) : Bool := s.all (· matches .literal [])

/-- A span as it is written in a template. -/
def template (s : Span) : Bytes := s.flatMap Segment.template

/-- A span as it is written in a source. -/
def source (s : Span) : Bytes := s.flatMap Segment.source

end Span

end IndentMarkup
