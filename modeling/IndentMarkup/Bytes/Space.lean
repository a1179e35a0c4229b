import IndentMarkup.Bytes.Basic

/-!
# White space

Two notions of white space are at work in a line. *Blanks*, the space and the
tab, indent it and separate its parts (`Bytes.isBlank`). *White space* in the
wider sense of Unicode is taken off around expressions, arguments and helper
calls (`Bytes.trim`).

A white space character is recognised by its encoding. That is exact on texts
which are not valid UTF-8, too: no encoding of a character starts in the middle
of another one, so a stray byte never counts as white space.
-/

namespace IndentMarkup.Bytes

/-! ## Blanks -/

/-- The space and the tab. -/
def isBlank (b : UInt8) : Bool := b == Byte.space || b == Byte.tab

/-- The text without the blanks at its beginning. -/
def dropBlanks (t : Bytes) : Bytes := t.dropWhile isBlank

/-- The text without the blanks at its end. -/
def dropTrailingBlanks (t : Bytes) : Bytes := (t.reverse.dropWhile isBlank).reverse

/-! ## White space characters -/

/-- The code points of the white space characters. -/
def whiteCodes : List Nat :=
  [0x09, 0x0A, 0x0B, 0x0C, 0x0D, 0x20, 0x85, 0xA0, 0x1680, 0x2000, 0x2001, 0x2002, 0x2003, 0x2004,
    0x2005, 0x2006, 0x2007, 0x2008, 0x2009, 0x200A, 0x2028, 0x2029, 0x202F, 0x205F, 0x3000]

/-- The encodings of the white space characters. -/
def whites : List Bytes := whiteCodes.map fun c => String.utf8EncodeChar (Char.ofNat c)

/-- The text after the first of the texts `ws` that it starts with. -/
def dropOne? (ws : List Bytes) (t : Bytes) : Option Bytes := ws.findSome? (after? · t)

/-- The text without the members of `ws` at its beginning, taken off one by one
    as long as the text gets shorter. -/
def dropAll (ws : List Bytes) (t : Bytes) : Bytes :=
  match dropOne? ws t with
  | some rest => if rest.length < t.length then dropAll ws rest else t
  | none => t
termination_by t.length

/-- The text without the white space at its beginning. -/
def trimLeft (t : Bytes) : Bytes := dropAll whites t

/-- The text without the white space at its end. -/
def trimRight (t : Bytes) : Bytes := (dropAll (whites.map List.reverse) t.reverse).reverse

/-- The text without the white space around it. -/
def trim (t : Bytes) : Bytes := trimRight (trimLeft t)

end IndentMarkup.Bytes
