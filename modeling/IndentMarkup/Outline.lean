import IndentMarkup.Node.Parser

/-!
# Outlines

The nodes of a document are nested as its lines are indented. The lines are attached one
after the other to the *outline* of the lines before, which is the chain of nodes that are
still open, from the last node up to the document. A line first closes the nodes that are
not shallower than itself (`Outline.closeTo`), and is then attached to the last node that
is left, if the node admits it (`Outline.attach`). The whole source is rejected at the
first line that cannot be attached (`Document.parse`).
-/

namespace IndentMarkup

/-- A node that is still open. -/
structure OpenNode where
  /-- The depth of its line, and -1 for the document. -/
  depth : Int
  /-- The node itself, with nothing nested in it. -/
  node : Node
  /-- The nodes nested in it that are already closed, the last one first. -/
  closed : List Node

namespace OpenNode

/-- The node with what is nested in it. -/
def close (o : OpenNode) : Node := o.node.withChildren o.closed.reverse

/-- The open node with one more node nested in it. -/
def add (o : OpenNode) (n : Node) : OpenNode := { o with closed := n :: o.closed }

end OpenNode

/-- The chain of the open nodes: the last one, and those that it is nested in, from the
    inside out. -/
structure Outline where
  /-- The last node. -/
  top : OpenNode
  /-- The nodes that it is nested in. -/
  below : List OpenNode

namespace Outline

/-- The outline of no lines: only the document is open. -/
def start (file : Bytes) : Outline :=
  ⟨⟨-1, .document ⟨⟨file, 1, 1⟩, ⟨file, 1, 1⟩⟩ [], []⟩, []⟩

/-- The outline after closing all nodes that are at least as deep as `depth`. The outermost
    node is never closed. -/
def closeTo (depth : Int) (top : OpenNode) : List OpenNode → Outline
  | [] => ⟨top, []⟩
  | o :: below =>
    if depth ≤ top.depth then closeTo depth (o.add top.close) below else ⟨top, o :: below⟩

/-- What keeps lines from being nested in a node, if anything does. -/
def refusal? : Node → Option Problem
  | .text _ _ | .expression _ _ => some .nestedInLeaf
  | .element _ el _ => if el.content.isEmpty then none else some (.nestedInInline el.tag)
  | _ => none

/-- The outline with one more line. -/
def attach (o : Outline) (l : Line) : Except Fault Outline :=
  let ⟨top, below⟩ := closeTo l.depth o.top o.below
  if top.depth + 1 < l.depth then .error ⟨0, 1, .skippedLevel (l.depth - top.depth)⟩
  else
    match refusal? top.node with
    | some p => .error ⟨0, l.text.length, p⟩
    | none => do
      let node ← Node.ofLine l
      if node.isElse && !(top.closed.head?.any Node.takesElse) then
        .error ⟨0, l.text.length, .strayElse⟩
      else return ⟨⟨l.depth, node, []⟩, top :: below⟩

/-- The nodes on the outermost level, after closing all nodes. -/
def finish (top : OpenNode) : List OpenNode → List Node
  | [] => top.closed.reverse
  | o :: below => finish (o.add top.close) below

/-- The outline of the lines `ls`, none of which is blank, after the outline `o`. -/
def attachAll (o : Outline) : List Line → Except Diagnostic Outline
  | [] => .ok o
  | l :: ls => do
    let o ← (o.attach l).mapError l.diagnostic
    o.attachAll ls

end Outline

/-- The document that a source denotes. -/
def Document.parse (file src : Bytes) : Except Diagnostic Document := do
  let lines ← Line.split file src
  let content := lines.filter (!·.isBlank)
  let outline ← (Outline.start file).attachAll content
  let start : Pos := ⟨file, 1, 1⟩
  let stop := (content.getLast?.map (·.range.stop)).getD start
  return ⟨⟨start, stop⟩, Outline.finish outline.top outline.below⟩

end IndentMarkup
