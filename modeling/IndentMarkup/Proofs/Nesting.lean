import IndentMarkup.Outline
import IndentMarkup.Proofs.Node

/-!
# How lines are nested

`Nesting k e ls ns` says that the lines `ls`, the outermost of which are at depth `k`, denote
the nodes `ns`, without a word about how they are read: the lines after a line that are deeper
than it are nested in its node, which has to admit them, and an else follows a block that takes
it.

The outline that is kept while lines are read is a nesting with its last branch left open
(`IsOutlineOf`): what is closed in each open node is the nesting of some of the lines, and all
lines are accounted for in their order. Closing nodes does not change the lines that an outline
is of, and attaching a line adds it to them, so the document of a source is a nesting of its
lines (`Document.nesting_of_parse`).
-/

namespace IndentMarkup

/-- The lines `ls`, of which the outermost are at depth `k`, denote the nodes `ns`. The flag
    `e` says whether the first node may be an else. -/
inductive Nesting : Nat → Bool → List Line → List Node → Prop
  | nil {k : Nat} {e : Bool} : Nesting k e [] []
  | cons {k : Nat} {e : Bool} {l : Line} {n : Node} {inner rest : List Line} {cs ns : List Node}
      (depth : l.depth = k) (node : Node.ofLine l = .ok n) (leads : n.isElse → e)
      (admits : inner ≠ [] → Outline.refusal? n = none)
      (children : Nesting (k + 1) false inner cs) (siblings : Nesting k n.takesElse rest ns) :
      Nesting k e (l :: inner ++ rest) (n.withChildren cs :: ns)

namespace Nesting

variable {k : Nat} {e : Bool} {ls ls' : List Line} {ns ns' : List Node}

/-- Siblings may go on after a nesting, with an else if the last node takes one. -/
theorem append (h : Nesting k e ls ns)
    (h' : Nesting k ((ns.getLast?.map Node.takesElse).getD e) ls' ns') :
    Nesting k e (ls ++ ls') (ns ++ ns') := by
  induction h with
  | nil => exact h'
  | @cons k e l n inner rest cs ns depth node leads admits children siblings _ ih =>
    rw [List.append_assoc, List.cons_append]
    refine cons depth node leads admits children (ih ?_)
    -- The flag after `n :: ns` is that after `ns`, where `n` comes first.
    convert h' using 1
    cases ns <;> simp [List.getLast?_cons]

/-- One more node after siblings that are listed with the last one first. -/
theorem snoc {closed cs : List Node} {l : Line} {n : Node} {inner : List Line}
    (h : Nesting k false ls closed.reverse) (depth : l.depth = k) (node : Node.ofLine l = .ok n)
    (leads : n.isElse → closed.head?.any Node.takesElse)
    (admits : inner ≠ [] → Outline.refusal? n = none)
    (children : Nesting (l.depth + 1) false inner cs) :
    Nesting k false (ls ++ l :: inner) (n.withChildren cs :: closed).reverse := by
  subst depth
  rw [List.reverse_cons]
  refine h.append ?_
  have leads' : n.isElse → (closed.reverse.getLast?.map Node.takesElse).getD false := by
    rw [List.getLast?_reverse]
    cases hc : closed.head? <;> simpa [hc] using leads
  simpa using cons rfl node leads' admits children nil

theorem nil_iff (h : Nesting k e ls ns) : ls = [] ↔ ns = [] := by
  cases h <;> simp

/-- Nothing that is nested in the node of a line is lost. -/
theorem children_withChildren {l : Line} {n : Node} (node : Node.ofLine l = .ok n)
    (admits : ls ≠ [] → Outline.refusal? n = none) (h : Nesting k e ls ns) :
    (n.withChildren ns).children = ns := by
  by_cases hls : ls = []
  · rw [h.nil_iff.1 hls]
    obtain ⟨_, _, rfl⟩ | ⟨_, _, rfl⟩ | ⟨_, _, rfl⟩ | ⟨_, _, rfl⟩ := Node.ofText_eq_ok node <;> rfl
  · have hr := admits hls
    obtain ⟨_, _, rfl⟩ | ⟨_, _, rfl⟩ | ⟨_, _, rfl⟩ | ⟨_, _, rfl⟩ := Node.ofText_eq_ok node
    · rfl
    · cases hr
    · rfl
    · cases hr

/-- Every line of a nesting denotes a node, and none is shallower than the outermost ones. -/
theorem of_mem (h : Nesting k e ls ns) :
    ∀ l ∈ ls, k ≤ l.depth ∧ ∃ n, Node.ofLine l = .ok n := by
  induction h with
  | nil => exact fun _ hl => absurd hl List.not_mem_nil
  | cons depth node _ _ _ _ ihc ihs =>
    intro m hm
    rcases List.mem_append.1 hm with hm | hm
    · rcases List.mem_cons.1 hm with rfl | hm
      · exact ⟨Nat.le_of_eq depth.symm, _, node⟩
      · exact (ihc m hm).imp_left Nat.le_of_succ_le
    · exact ihs m hm

end Nesting

/-! ## Outlines -/

/-- The open node `top`, in the nodes `below`, is what the lines `ls` leave open: the lines of
    the open nodes and of the nodes closed in them are `ls`, in their order. -/
inductive IsOutlineOf : OpenNode → List OpenNode → List Line → Prop
  | document {r : Range} {closed : List Node} {ls : List Line}
      (children : Nesting 0 false ls closed.reverse) :
      IsOutlineOf ⟨-1, .document r [], closed⟩ [] ls
  | line {p : OpenNode} {below : List OpenNode} {l : Line} {n : Node} {closed : List Node}
      {ls inner : List Line} (parent : IsOutlineOf p below ls) (depth : l.depth = p.depth + 1)
      (node : Node.ofLine l = .ok n) (leads : n.isElse → p.closed.head?.any Node.takesElse)
      (admits : Outline.refusal? p.node = none)
      (children : Nesting (l.depth + 1) false inner closed.reverse)
      (nests : inner ≠ [] → Outline.refusal? n = none) :
      IsOutlineOf ⟨l.depth, n, closed⟩ (p :: below) (ls ++ l :: inner)

namespace IsOutlineOf

variable {top p : OpenNode} {below : List OpenNode} {ls : List Line}

/-- Closing the last node keeps the lines: it becomes the last sibling in its parent. -/
theorem close (h : IsOutlineOf top (p :: below) ls) : IsOutlineOf (p.add top.close) below ls := by
  cases h with
  | line parent depth node leads admits children nests =>
    -- The node is one more sibling after those that are closed in its parent.
    cases parent with
    | document siblings =>
      exact document (siblings.snoc (by simpa using depth) node leads nests children)
    | line parent' depth' node' leads' admits' siblings nests' =>
      rw [List.append_assoc, List.cons_append]
      exact line parent' depth' node' leads' admits'
        (siblings.snoc (Int.ofNat.inj depth) node leads nests children) fun _ => admits

/-- What an outline is of does not change when nodes are closed. -/
theorem closeTo (h : IsOutlineOf top below ls) (d : Int) :
    IsOutlineOf (Outline.closeTo d top below).top (Outline.closeTo d top below).below ls := by
  induction below generalizing top with
  | nil => exact h
  | cons p below ih =>
    rw [Outline.closeTo]
    split_ifs with hd
    · exact ih h.close
    · exact h

/-- Only nodes shallower than a line are open after the others are closed. -/
theorem depth_closeTo_lt (h : IsOutlineOf top below ls) (d : Nat) :
    (Outline.closeTo d top below).top.depth < d := by
  induction below generalizing top with
  | nil =>
    cases h with
    | document =>
      change (-1 : Int) < d
      omega
  | cons p below ih =>
    rw [Outline.closeTo]
    split_ifs with hd
    · exact ih h.close
    · exact Int.not_le.1 hd

/-- The nodes on the outermost level, once all are closed, are the nesting of the lines. -/
theorem finish (h : IsOutlineOf top below ls) :
    Nesting 0 false ls (Outline.finish top below) := by
  induction below generalizing top with
  | nil =>
    cases h with
    | document children => exact children
  | cons p below ih => exact ih h.close

end IsOutlineOf

namespace Outline

/-- A line that is attached is at most one level deeper than the node that it is nested in,
    which admits it, it denotes a node, and if that is an else, it follows a block. -/
theorem attach_eq_ok {o o' : Outline} {l : Line} (h : o.attach l = .ok o') :
    ∃ top below n, closeTo l.depth o.top o.below = ⟨top, below⟩ ∧ l.depth ≤ top.depth + 1 ∧
      refusal? top.node = none ∧ Node.ofLine l = .ok n ∧
      (n.isElse → top.closed.head?.any Node.takesElse) ∧
      o' = ⟨⟨l.depth, n, []⟩, top :: below⟩ := by
  rw [attach] at h
  split at h
  rename_i top below hc
  split_ifs at h with hd
  split at h
  · cases h
  · rename_i hr
    obtain ⟨n, hn, h⟩ := bind_eq_ok_iff.1 h
    split_ifs at h with he
    cases h
    exact ⟨top, below, n, hc, Int.not_lt.1 hd, hr, hn, by simpa using he, rfl⟩

/-- Attaching a line adds it to the lines that the outline is of. -/
theorem isOutlineOf_attach {o o' : Outline} {l : Line} {ls : List Line}
    (ho : IsOutlineOf o.top o.below ls) (h : o.attach l = .ok o') :
    IsOutlineOf o'.top o'.below (ls ++ [l]) := by
  obtain ⟨top, below, n, hc, hd, hr, hn, he, rfl⟩ := attach_eq_ok h
  have hlt := ho.depth_closeTo_lt l.depth
  have hclosed := ho.closeTo l.depth
  rw [hc] at hlt hclosed
  have hdepth : (l.depth : Int) = top.depth + 1 := Int.le_antisymm hd (Int.add_one_le_of_lt hlt)
  exact .line hclosed hdepth hn he hr .nil fun h => absurd rfl h

theorem isOutlineOf_attachAll {o o' : Outline} {ls ms : List Line}
    (ho : IsOutlineOf o.top o.below ls) (h : o.attachAll ms = .ok o') :
    IsOutlineOf o'.top o'.below (ls ++ ms) := by
  induction ms generalizing o ls with
  | nil =>
    cases h
    rwa [List.append_nil]
  | cons m ms ih =>
    obtain ⟨o₁, h₁, h⟩ := bind_eq_ok_iff.1 h
    rw [← List.singleton_append, ← List.append_assoc]
    exact ih (isOutlineOf_attach ho (mapError_eq_ok_iff.1 h₁)) h

theorem isOutlineOf_start (file : Bytes) : IsOutlineOf (start file).top (start file).below [] :=
  .document .nil

end Outline

namespace Document

theorem parse_eq_ok {file src : Bytes} {d : Document} (h : parse file src = .ok d) :
    ∃ lines o, Line.split file src = .ok lines ∧
      (Outline.start file).attachAll (Line.content lines) = .ok o ∧
      d = ⟨⟨⟨file, 1, 1⟩, ((Line.content lines).getLast?.map (·.range.stop)).getD ⟨file, 1, 1⟩⟩,
        Outline.finish o.top o.below⟩ := by
  obtain ⟨lines, hl, h⟩ := bind_eq_ok_iff.1 h
  obtain ⟨o, ho, h⟩ := bind_eq_ok_iff.1 h
  cases h
  exact ⟨lines, o, hl, ho, rfl⟩

/-- The document of a source is a nesting of those of its lines that are not blank. -/
theorem nesting_of_parse {file src : Bytes} {d : Document} (h : parse file src = .ok d) :
    ∃ lines, Line.split file src = .ok lines ∧
      Nesting 0 false (Line.content lines) d.children := by
  obtain ⟨lines, o, hl, ho, rfl⟩ := parse_eq_ok h
  exact ⟨lines, hl, (Outline.isOutlineOf_attachAll (Outline.isOutlineOf_start file) ho).finish⟩

end Document

end IndentMarkup
