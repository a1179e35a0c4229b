import IndentMarkup.Bytes.Basic

/-!
# Units of indentation

The first indented line of a document decides what one level of indentation is:
one tab, or as many spaces as that line starts with. All other lines are indented
by that unit, as often as they are deep.
-/

namespace IndentMarkup

/-- What a line is indented by for each level. -/
inductive IndentUnit where
  /-- One tab. -/
  | tab
  /-- A number of spaces. -/
  | spaces (n : Nat)
  deriving DecidableEq

namespace IndentUnit

/-- The byte that the unit is made of. -/
def byte : IndentUnit → UInt8
  | tab => Byte.tab
  | spaces _ => Byte.space

/-- The number of bytes in the unit. -/
def width : IndentUnit → Nat
  | tab => 1
  | spaces n => n

/-- The unit in words. -/
def text : IndentUnit → Bytes
  | tab => "one tab"
  | spaces 1 => "one space"
  | spaces n => Bytes.ofNat n ++ " spaces"

/-- The unit that a document has if `lead` is what its first indented line is
    indented by. -/
def ofLead (lead : Bytes) : IndentUnit :=
  if lead.head? = some Byte.tab then tab else spaces lead.length

end IndentUnit

end IndentMarkup
