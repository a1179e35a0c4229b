import IndentMarkup.Element.Basic

/-!
# Tags

The opening and the closing tag of an element. There are two ways to write bindings: all
of them in one call of the helper `bind-attr`, or each as an attribute that is bound to its
value (`BindingStyle`).
-/

namespace IndentMarkup

/-- How the bindings of an element are written. -/
inductive BindingStyle where
  /-- In one call of a helper. -/
  | oneHelper
  /-- As bound attributes. -/
  | boundAttributes
  deriving DecidableEq

/-- The bindings of an element in its opening tag. -/
def BindingStyle.text (style : BindingStyle) (bindings : List Attribute) : Bytes :=
  match style with
  | oneHelper => mustache ("bind-attr " ++ Bytes.join " " (bindings.map Attribute.helperText))
  | boundAttributes => Bytes.join " " (bindings.map Attribute.boundText)

namespace Element

/-- The parts of the opening tag: the tag, then the id, the classes, the attributes and the
    bindings where there are any, and the helper calls. -/
def tagParts (style : BindingStyle) (el : Element) : List Bytes :=
  let classes := Bytes.join " " el.classes
  [el.tag] ++
  (if el.id.isEmpty then [] else [Attribute.text ⟨"id", el.id, false⟩]) ++
  (if el.classes.isEmpty then [] else [Attribute.text ⟨"class", classes, false⟩]) ++
  (if el.attributes.isEmpty then [] else [Attribute.textOfList el.attributes]) ++
  (if el.bindings.isEmpty then [] else [style.text el.bindings]) ++
  el.helpers.map mustache

/-- The opening tag. -/
def openTag (style : BindingStyle) (el : Element) : Bytes :=
  "<" ++ Bytes.join " " (el.tagParts style) ++ ">"

/-- The closing tag. -/
def closeTag (el : Element) : Bytes := "</" ++ el.tag ++ ">"

end Element

end IndentMarkup
