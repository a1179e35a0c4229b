import IndentMarkup.Attribute.Basic
import IndentMarkup.Attribute.Token
import IndentMarkup.Fault

/-!
# Reading attributes

White space apart, an attribute group is a sequence of assignments: a word, an
equals sign, and a word or a quoted literal. The first token that does not fit is
reported (`Attribute.assignments`); if the group cannot even be cut into tokens,
that is reported instead, wherever it happens (`Attribute.parse`).

A group in braces holds bindings if it starts like an assignment, otherwise a
helper call (`Attribute.startsBinding`).
-/

namespace IndentMarkup.Attribute

/-- The fault of finding the first of the tokens `ks`, or the end of the group at the
    offset `len`, in the place of what was expected. -/
def unexpected (len : Nat) (expected : Expectation) : List (Nat × Token) → Fault
  | [] => ⟨len, len + 1, .unexpectedToken "<EOF>" expected⟩
  | (off, k) :: _ => ⟨off, off + 1, .unexpectedToken k.text expected⟩

/-- The attributes that the tokens of a group of length `len` assign, which do not
    include white space. -/
def assignments (len : Nat) : List (Nat × Token) → Except Fault (List Attribute)
  | [] => .ok []
  | (_, .word key) :: (_, .assign) :: (_, .literal t) :: ks => do
    return ⟨key, unquote t, true⟩ :: (← assignments len ks)
  | (_, .word key) :: (_, .assign) :: (_, .word value) :: ks => do
    return ⟨key, value, false⟩ :: (← assignments len ks)
  | (_, .word _) :: (_, .assign) :: ks => .error (unexpected len .value ks)
  | (_, .word _) :: ks => .error (unexpected len .assignment ks)
  | ks => .error (unexpected len .unsaid ks)

/-- The attributes of a group. -/
def parse (t : Bytes) : Except Fault (List Attribute) :=
  match Token.scan t with
  | (ks, []) => assignments t.length ((Token.locate 0 ks).filter (!·.2.isGap))
  | (_, rest) =>
    let off := t.length - rest.length
    .error ⟨off, off + 1, .invalidInput rest⟩

/-- Whether a group starts with a word and an equals sign. -/
def startsBinding (t : Bytes) : Bool :=
  match (Token.scan t).1.filter (!·.isGap) with
  | .word _ :: .assign :: _ => true
  | _ => false

end IndentMarkup.Attribute
