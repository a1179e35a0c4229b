import IndentMarkup.Attribute.Basic

/-!
# Elements

What the header of an element says, which is everything about it but the lines
nested in it: its tag, the id and the classes given by shorthands, the plain and the
bound attributes, the helper calls and the content on the same line.
-/

namespace IndentMarkup

/-- An element, without what is nested in it. -/
structure Element where
  /-- The tag. -/
  tag : Bytes
  /-- The id, empty if there is none. -/
  id : Bytes
  /-- The classes. -/
  classes : List Bytes
  /-- The plain attributes. -/
  attributes : List Attribute
  /-- The bound attributes. -/
  bindings : List Attribute
  /-- The helper calls in the tag. -/
  helpers : List Bytes
  /-- The content on the line of the header. -/
  content : Span
  deriving DecidableEq

/-- The element with the given tag and nothing else. -/
def Element.bare (tag : Bytes) : Element := ⟨tag, [], [], [], [], [], []⟩

/-- The bytes of ids and classes. -/
def isNameByte (b : UInt8) : Bool :=
  Byte.isLetter b || Byte.isDigit b || b == Byte.dash || b == Byte.underscore

/-- The bytes of tags, which may be in a namespace. -/
def isTagByte (b : UInt8) : Bool := isNameByte b || b == Byte.colon

/-- Whether a text starts with an id or a class. -/
def startsShorthand : Bytes → Bool
  | s :: c :: _ => (s == Byte.hash || s == Byte.dot) && isNameByte c
  | _ => false

end IndentMarkup
