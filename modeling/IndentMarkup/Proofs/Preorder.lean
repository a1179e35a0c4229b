import IndentMarkup.Proofs.Nesting
import Mathlib.Data.List.Forall2

/-!
# Documents in the order of their lines

A document is traversed in *preorder*: every node comes before the nodes nested in it, and these
come before its next sibling (`Document.preorder`). The traversal of the document of a source
gives back the lines of the source that are not blank, in their order, as no line is lost,
repeated or nested in another node than its depth says (`Document.preorder_of_parse`).
-/

namespace IndentMarkup

namespace Node

mutual

/-- A node at depth `k`, followed by all that is nested in it, each with its depth. -/
def preorder (k : Nat) : Node → List (Nat × Node)
  | element r el cs => (k, element r el cs) :: preorderAll (k + 1) cs
  | text r s => [(k, text r s)]
  | expression r v => [(k, expression r v)]
  | block r b cs => (k, block r b cs) :: preorderAll (k + 1) cs
  | document r cs => (k, document r cs) :: preorderAll (k + 1) cs
  | absent => [(k, absent)]

/-- Siblings at depth `k`, each followed by all that is nested in it. -/
def preorderAll (k : Nat) : List Node → List (Nat × Node)
  | [] => []
  | n :: ns => preorder k n ++ preorderAll k ns

end

theorem preorder_eq (k : Nat) (n : Node) :
    n.preorder k = (k, n) :: preorderAll (k + 1) n.children := by
  cases n <;> rfl

end Node

/-- The nodes of a document in preorder, those on the outermost level at depth 0. -/
def Document.preorder (d : Document) : List (Nat × Node) := Node.preorderAll 0 d.children

/-- A line is where a node of a traversal says it is, at the same depth, and denotes the node
    without what is nested in it. -/
def Line.Starts (l : Line) (x : Nat × Node) : Prop :=
  x.1 = l.depth ∧ Node.ofLine l = .ok (x.2.withChildren []) ∧ x.2.range = l.range

/-- The lines of a nesting start its nodes, in preorder. -/
theorem Nesting.forall₂_preorderAll {k : Nat} {e : Bool} {ls : List Line} {ns : List Node}
    (h : Nesting k e ls ns) :
    List.Forall₂ Line.Starts ls (Node.preorderAll k ns) := by
  induction h with
  | nil => exact .nil
  | @cons k e l n inner rest cs ns depth node leads admits children siblings ihc ihs =>
    rw [Node.preorderAll, Node.preorder_eq, children_withChildren node admits children]
    have hstart : l.Starts (k, n.withChildren cs) := by
      refine ⟨depth.symm, ?_, ?_⟩
      · rw [Node.withChildren_withChildren, Node.withChildren_nil node, node]
      · rw [Node.range_withChildren, Node.range_of_ofLine node]
    exact List.rel_append (.cons hstart ihc) ihs

/-- The nodes of the document of a source are, in preorder, those of the lines that are not
    blank, each at the depth of its line; the document goes up to the end of the last one. -/
theorem Document.preorder_of_parse {file src : Bytes} {d : Document}
    (h : Document.parse file src = .ok d) :
    ∃ lines, Line.split file src = .ok lines ∧
      List.Forall₂ Line.Starts (Line.content lines) d.preorder ∧
      d.range.start = ⟨file, 1, 1⟩ ∧
      d.range.stop = ((Line.content lines).getLast?.map (·.range.stop)).getD ⟨file, 1, 1⟩ := by
  obtain ⟨lines, o, hl, ho, rfl⟩ := parse_eq_ok h
  have hn := (Outline.isOutlineOf_attachAll (Outline.isOutlineOf_start file) ho).finish
  exact ⟨lines, hl, hn.forall₂_preorderAll, rfl, rfl⟩

/-- A line that ends three levels at once: its node is on the outermost level again. -/
theorem Document.preorder_of_parse_dedent :
    ∃ d lines, Document.parse "a" "%ul\n\t-if b\n\t\t%li\n\t\t\tc\n \n%p d" = .ok d ∧
      Line.split "a" "%ul\n\t-if b\n\t\t%li\n\t\t\tc\n \n%p d" = .ok lines ∧
      List.Forall₂ Line.Starts (Line.content lines) d.preorder ∧
      d.preorder.map Prod.fst = [0, 1, 2, 3, 0] ∧ d.range.stop = ⟨"a", 6, 5⟩ := by
  have hrun : (Document.parse "a" "%ul\n\t-if b\n\t\t%li\n\t\t\tc\n \n%p d").toOption.map
      (fun d => (d.preorder.map Prod.fst, d.range.stop)) =
      some ([0, 1, 2, 3, 0], ⟨"a", 6, 5⟩) := by decide +kernel
  obtain ⟨d, hd, hv⟩ := toOption_map_eq_some_iff.1 hrun
  obtain ⟨lines, hl, hn, -, -⟩ := preorder_of_parse hd
  exact ⟨d, lines, hd, hl, hn, congrArg Prod.fst hv, congrArg Prod.snd hv⟩

end IndentMarkup
