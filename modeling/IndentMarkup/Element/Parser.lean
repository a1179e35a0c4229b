import IndentMarkup.Attribute.Parser
import IndentMarkup.Element.Basic
import IndentMarkup.Element.Group
import IndentMarkup.Span.Parser

/-!
# Reading headers

The header of an element is read from left to right: the tag, the shorthands for id
and classes, the groups, and the content of the element. Each part is optional, but a
header has a tag or a shorthand.

```
%button#save.primary(type='submit'){disabled=isSaving}{action "save"} Save
```

A group in parentheses holds plain attributes. A group in braces holds the bindings,
of which there is at most one group before all helper calls, or else a helper call.
The content is an expression after an equals sign, or else a span.

The functions below read what is left, `t`, of a header of length `len`, so they are
at the offset `len - t.length`.
-/

namespace IndentMarkup.Element

/-- The tag of an element that does not say it. -/
def defaultTag : Bytes := "div"

/-- The element with the tag that the header starts with, and what is left. -/
def readTag (t : Bytes) : Except Fault (Element × Bytes) :=
  match t with
  | Byte.percent :: rest =>
    let tag := rest.takeWhile isTagByte
    if tag.isEmpty then .error ⟨0, 1, .missingTag⟩
    else .ok (bare tag, rest.dropWhile isTagByte)
  | _ => .ok (bare defaultTag, t)

/-- The element with the ids and classes that follow, and what is left. -/
def readShorthands (len : Nat) (el : Element) (t : Bytes) : Except Fault (Element × Bytes) :=
  match t with
  | s :: c :: t =>
    if (s = Byte.hash ∨ s = Byte.dot) ∧ isNameByte c then
      let name := c :: t.takeWhile isNameByte
      let rest := t.dropWhile isNameByte
      have := (List.dropWhile_suffix isNameByte (l := t)).length_le
      if s = Byte.dot then readShorthands len { el with classes := el.classes ++ [name] } rest
      else if el.id.isEmpty then readShorthands len { el with id := name } rest
      else .error ⟨len - (t.length + 2), len - rest.length, .repeatedId el.id⟩
    else .ok (el, s :: c :: t)
  | t => .ok (el, t)
termination_by t.length

/-- The hash sign or dot that a text starts with. A hash sign before a brace starts
    an interpolation and does not count. -/
def danglingSigil? : Bytes → Option UInt8
  | [] => none
  | b :: t =>
    if b = Byte.dot ∨ (b = Byte.hash ∧ t.head? ≠ some Byte.lbrace) then some b else none

/-- The element with what a group in braces says, which is at the given offsets. -/
def addBraces (start stop : Nat) (el : Element) (inner : Bytes) : Except Fault Element :=
  if Attribute.startsBinding inner then
    if !el.bindings.isEmpty then .error ⟨start, stop, .repeatedBindings⟩
    else if !el.helpers.isEmpty then .error ⟨start, stop, .lateBindings⟩
    else do
      let bindings ← (Attribute.parse inner).mapError (Fault.shift (start + 1))
      return { el with bindings }
  else
    let helper := Bytes.trim inner
    if helper.isEmpty then .error ⟨start, stop, .emptyHelper⟩
    else .ok { el with helpers := el.helpers ++ [helper] }

/-- The element with what a group in parentheses says, which is at the given offset. -/
def addParens (start : Nat) (el : Element) (inner : Bytes) : Except Fault Element := do
  let attributes ← (Attribute.parse inner).mapError (Fault.shift (start + 1))
  return { el with attributes := el.attributes ++ attributes }

/-- The element with the groups that follow, and what is left. -/
def readGroups (len : Nat) (el : Element) (t : Bytes) : Except Fault (Element × Bytes) :=
  let start := len - t.length
  match t.head? with
  | some Byte.lparen =>
    match h : Bracket.round.group start t with
    | .error f => .error f
    | .ok (inner, rest) =>
      have := Bracket.length_of_group h
      match addParens start el inner with
      | .error f => .error f
      | .ok el => readGroups len el rest
  | some Byte.lbrace =>
    match h : Bracket.curly.group start t with
    | .error f => .error f
    | .ok (inner, rest) =>
      have := Bracket.length_of_group h
      match addBraces start (len - rest.length) el inner with
      | .error f => .error f
      | .ok el => readGroups len el rest
  | _ => .ok (el, t)
termination_by t.length

/-- The content that the rest of a header denotes. -/
def readContent (len : Nat) (t : Bytes) : Except Fault Span :=
  match t with
  | Byte.eq :: rest =>
    let value := Bytes.trim rest
    if value.isEmpty then .error ⟨len - t.length, len - t.length + 1, .missingExpression⟩
    else .ok [.interpolation value]
  | _ =>
    let content := Bytes.dropBlanks t
    Span.parseFrom (len - content.length) content

/-- The element that a header denotes. -/
def parse (t : Bytes) : Except Fault Element := do
  let (el, rest) ← readTag t
  let (el, rest) ← readShorthands t.length el rest
  match danglingSigil? rest with
  | some sigil =>
    let off := t.length - rest.length
    .error ⟨off, off + 1, .missingName sigil⟩
  | none =>
    let (el, rest) ← readGroups t.length el rest
    let content ← readContent t.length rest
    return { el with content }

end IndentMarkup.Element
