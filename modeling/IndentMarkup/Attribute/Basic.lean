import IndentMarkup.Span.Basic

/-!
# Attributes

An attribute is a key with a value, which in the source may be quoted or bare. It
is written in three ways:

* `Attribute.text`, as a plain attribute of a tag, always quoted;
* `Attribute.helperText`, as an argument of the helper `bind-attr`, quoted if it
  was so in the source;
* `Attribute.boundText`, as an attribute of a tag that is bound to a bare value.
-/

namespace IndentMarkup

/-- A key and its value. -/
structure Attribute where
  /-- The name of the attribute. -/
  key : Bytes
  /-- The value, without quotes. -/
  value : Bytes
  /-- Whether the value was quoted. -/
  quoted : Bool
  deriving DecidableEq

namespace Attribute

/-- The attribute in a tag. Double quotes in the value are written as `&quot;`. -/
def text (a : Attribute) : Bytes :=
  a.key ++ "=\"" ++ Bytes.replace Byte.dquote "&quot;" a.value ++ "\""

/-- The value as an argument of a helper: between the quotes that do not occur in it
    or, if both occur, double quotes with a backslash before those inside. -/
def helperValue (a : Attribute) : Bytes :=
  if !a.quoted then a.value
  else if Byte.dquote ∉ a.value then "\"" ++ a.value ++ "\""
  else if Byte.squote ∉ a.value then "'" ++ a.value ++ "'"
  else "\"" ++ Bytes.replace Byte.dquote "\\\"" a.value ++ "\""

/-- The attribute as an argument of a helper. -/
def helperText (a : Attribute) : Bytes := a.key ++ "=" ++ a.helperValue

/-- The attribute in a tag, where a bare value is an expression. -/
def boundText (a : Attribute) : Bytes :=
  if a.quoted then a.text else a.key ++ "=" ++ mustache a.value

/-- The attributes in a tag, with a space between each two of them. -/
def textOfList (as : List Attribute) : Bytes := Bytes.join " " (as.map text)

end Attribute

end IndentMarkup
