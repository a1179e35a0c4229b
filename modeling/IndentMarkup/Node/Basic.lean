import IndentMarkup.Element.Basic
import IndentMarkup.Keyword
import IndentMarkup.Position

/-!
# Trees of nodes

A document is a forest of nodes. Elements and blocks have nodes nested in them; texts
and expressions have not. A tree built by hand may hold more than a source can denote:
a document inside another one, a node that is missing (`Node.absent`), an else anywhere.
-/

namespace IndentMarkup

/-- What the line of a block says. -/
structure Block where
  /-- The word that opens the block. -/
  keyword : Keyword
  /-- The condition or list that the block is about, empty for an else. -/
  argument : Bytes
  deriving DecidableEq

/-- A node of a document. -/
inductive Node where
  /-- An element. -/
  | element (range : Range) (head : Element) (children : List Node)
  /-- A line of text. -/
  | text (range : Range) (span : Span)
  /-- An expression on a line of its own. -/
  | expression (range : Range) (value : Bytes)
  /-- A block. -/
  | block (range : Range) (head : Block) (children : List Node)
  /-- A whole document. -/
  | document (range : Range) (children : List Node)
  /-- No node. -/
  | absent

instance : Inhabited Node := ⟨.absent⟩

/-- A document. -/
structure Document where
  /-- Where its lines are. -/
  range : Range
  /-- Its nodes on the outermost level. -/
  children : List Node

namespace Node

/-- Where the node's own line is, all zero if there is no node. -/
def range : Node → Range
  | element r _ _ | text r _ | expression r _ | block r _ _ | document r _ => r
  | absent => default

/-- The nodes nested in a node. -/
def children : Node → List Node
  | element _ _ cs | block _ _ cs | document _ cs => cs
  | text _ _ | expression _ _ | absent => []

/-- The node with other nodes nested in it, if it can have any. -/
def withChildren (cs : List Node) : Node → Node
  | element r el _ => element r el cs
  | block r b _ => block r b cs
  | document r _ => document r cs
  | n => n

/-- Whether a node is an else. -/
def isElse : Node → Bool
  | block _ b _ => b.keyword = .elseWord
  | _ => false

/-- Whether a node is a block that an else may follow. -/
def takesElse : Node → Bool
  | block _ b _ => b.keyword.takesElse
  | _ => false

end Node

end IndentMarkup
