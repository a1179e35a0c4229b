import IndentMarkup.Element.Parser
import IndentMarkup.Line
import IndentMarkup.Node.Basic

/-!
# Nodes of single lines

The beginning of a line's text decides what it is: a block after a dash, an expression
after an equals sign, an element if it starts with a tag or a shorthand, and otherwise
text (`Node.ofLine`).
-/

namespace IndentMarkup

/-- The block that a text starting with a dash denotes: a keyword, after blanks, and its
    argument, after more of them. -/
def Block.parse (t : Bytes) : Except Fault Block :=
  let body := Bytes.dropBlanks (t.drop 1)
  let word := body.takeWhile (!Bytes.isBlank ·)
  let argument := Bytes.trim (body.dropWhile (!Bytes.isBlank ·))
  let start := t.length - body.length
  let stop := start + word.length
  if word.isEmpty then .error ⟨start, stop, .missingKeyword⟩
  else if !Keyword.isKnown ⟨word⟩ then .error ⟨start, stop, .unknownKeyword word⟩
  else if (⟨word⟩ : Keyword) = .elseWord then
    if argument.isEmpty then .ok ⟨⟨word⟩, argument⟩ else .error ⟨stop, t.length, .elseArgument⟩
  else
    if argument.isEmpty then .error ⟨start, stop, .missingArgument word⟩
    else .ok ⟨⟨word⟩, argument⟩

/-- The expression that a text starting with an equals sign denotes. -/
def parseExpression (t : Bytes) : Except Fault Bytes :=
  let value := Bytes.trim (t.drop 1)
  if value.isEmpty then .error ⟨0, 1, .missingExpression⟩ else .ok value

/-- The node that a text denotes, for a line at the given range. -/
def Node.ofText (range : Range) (t : Bytes) : Except Fault Node :=
  if t.head? = some Byte.dash then return .block range (← Block.parse t) []
  else if t.head? = some Byte.eq then return .expression range (← parseExpression t)
  else if t.head? = some Byte.percent || startsShorthand t then
    return .element range (← Element.parse t) []
  else return .text range (← Span.parse t)

/-- The node that a line denotes. -/
def Node.ofLine (l : Line) : Except Fault Node := ofText l.range l.text

end IndentMarkup
