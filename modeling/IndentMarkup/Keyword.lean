import IndentMarkup.Bytes.Basic

/-!
# Block keywords

A block is opened by a keyword. Four of them have a meaning in a source:
`if`, `unless`, `each` and `else`. A tree built by hand may carry any other.
-/

namespace IndentMarkup

/-- The word that opens a block. -/
structure Keyword where
  /-- The word as it is written. -/
  name : Bytes
  deriving DecidableEq

namespace Keyword

/-- The keyword of a block for a condition that holds. -/
def ifWord : Keyword := ⟨"if"⟩

/-- The keyword of a block for a condition that does not hold. -/
def unlessWord : Keyword := ⟨"unless"⟩

/-- The keyword of a block repeated for each member of a list. -/
def eachWord : Keyword := ⟨"each"⟩

/-- The keyword of the other branch of a condition. -/
def elseWord : Keyword := ⟨"else"⟩

/-- The keywords that a source may use, in the order in which messages list them. -/
def known : List Keyword := [ifWord, unlessWord, eachWord, elseWord]

/-- Whether a source may use the keyword. -/
def isKnown (k : Keyword) : Bool := k ∈ known

/-- Whether an else may follow a block with this keyword. -/
def takesElse (k : Keyword) : Bool := k = ifWord || k = unlessWord

end Keyword

end IndentMarkup
