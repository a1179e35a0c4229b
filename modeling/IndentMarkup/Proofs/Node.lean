import IndentMarkup.Node.Parser
import IndentMarkup.Proofs.Basic
import Mathlib.Data.List.Basic
import Mathlib.Tactic.SplitIfs

/-!
# Nodes of lines

What is known of the node of a line before it is nested: it is a block, an expression, an
element or a text (`Node.ofText_eq_ok`), with nothing nested in it (`Node.withChildren_nil`).
Where a node is needed whether or not the line denotes one, `Line.node` gives it.
-/

namespace IndentMarkup

/-! ## Nodes with other nodes nested in them -/

namespace Node

@[simp] theorem isElse_withChildren (n : Node) (cs : List Node) :
    (n.withChildren cs).isElse = n.isElse := by cases n <;> rfl

@[simp] theorem takesElse_withChildren (n : Node) (cs : List Node) :
    (n.withChildren cs).takesElse = n.takesElse := by cases n <;> rfl

@[simp] theorem range_withChildren (n : Node) (cs : List Node) :
    (n.withChildren cs).range = n.range := by cases n <;> rfl

@[simp] theorem withChildren_withChildren (n : Node) (cs ds : List Node) :
    (n.withChildren cs).withChildren ds = n.withChildren ds := by cases n <;> rfl

/-- A text that denotes a node is a block, an expression, an element or a text. -/
theorem ofText_eq_ok {r : Range} {t : Bytes} {n : Node} (h : ofText r t = .ok n) :
    (∃ b, Block.parse t = .ok b ∧ n = .block r b []) ∨
      (∃ v, parseExpression t = .ok v ∧ n = .expression r v) ∨
      (∃ el, Element.parse t = .ok el ∧ n = .element r el []) ∨
      ∃ s, Span.parse t = .ok s ∧ n = .text r s := by
  rw [ofText] at h
  split_ifs at h
  · obtain ⟨b, hb, h⟩ := bind_eq_ok_iff.1 h
    cases h
    exact .inl ⟨b, hb, rfl⟩
  · obtain ⟨v, hv, h⟩ := bind_eq_ok_iff.1 h
    cases h
    exact .inr (.inl ⟨v, hv, rfl⟩)
  · obtain ⟨el, hel, h⟩ := bind_eq_ok_iff.1 h
    cases h
    exact .inr (.inr (.inl ⟨el, hel, rfl⟩))
  · obtain ⟨s, hs, h⟩ := bind_eq_ok_iff.1 h
    cases h
    exact .inr (.inr (.inr ⟨s, hs, rfl⟩))

theorem withChildren_nil {l : Line} {n : Node} (h : ofLine l = .ok n) :
    n.withChildren [] = n := by
  obtain ⟨_, _, rfl⟩ | ⟨_, _, rfl⟩ | ⟨_, _, rfl⟩ | ⟨_, _, rfl⟩ := ofText_eq_ok h <;> rfl

theorem range_of_ofLine {l : Line} {n : Node} (h : ofLine l = .ok n) : n.range = l.range := by
  obtain ⟨_, _, rfl⟩ | ⟨_, _, rfl⟩ | ⟨_, _, rfl⟩ | ⟨_, _, rfl⟩ := ofText_eq_ok h <;> rfl

end Node

/-! ## Nodes of lines that may be at fault -/

namespace Line

/-- The node that a line denotes, and no node at all if something is wrong with the line. -/
def node (l : Line) : Node := (Node.ofLine l).toOption.getD .absent

theorem node_eq {l : Line} {n : Node} (h : Node.ofLine l = .ok n) : l.node = n := by
  rw [node, h]
  rfl

/-- The lines that are not blank. -/
def content (ls : List Line) : List Line := ls.filter (!·.isBlank)

theorem text_ne_nil {ls : List Line} {l : Line} (h : l ∈ content ls) : l.text ≠ [] := by
  simpa [isBlank] using (List.mem_filter.1 h).2

end Line

end IndentMarkup
