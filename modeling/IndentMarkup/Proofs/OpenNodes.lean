import IndentMarkup.Proofs.Nesting
import Mathlib.Data.List.Chain
import Mathlib.Logic.Function.Iterate

/-!
# The open nodes while a source is read

The nodes that are open while the lines of a source are attached are a stack (`Outline.stack`), with
the document at the bottom. Each of them is the last node that is nested in the one below it, and
their depths are -1, 0, 1, … from the bottom up.

A line closes nodes one after the other, as long as the last one is not shallower than the line
(`Outline.pop`). The document cannot be closed, so this would go on for ever if it came to that. It
never does (`Outline.stack_of_reaches`): the depth of the document is below that of any line, and no
depth is left out on the way down to it.
-/

namespace IndentMarkup

namespace Outline

/-- The open nodes with all that is nested in them so far, and their depths, from the document up to
    the last node. -/
def stackOf (top : OpenNode) : List OpenNode → List (Int × Node)
  | [] => [(top.depth, top.close)]
  | o :: below => stackOf (o.add top.close) below ++ [(top.depth, top.close)]

/-- The open nodes of an outline. -/
def stack (o : Outline) : List (Int × Node) := stackOf o.top o.below

theorem getLast?_stackOf (top : OpenNode) (below : List OpenNode) :
    (stackOf top below).getLast? = some (top.depth, top.close) := by
  cases below <;> simp [stackOf]

/-- The outline with its last node closed. The document stays open. -/
def pop (o : Outline) : Outline :=
  match o.below with
  | [] => o
  | p :: below => ⟨p.add o.top.close, below⟩

/-- The outlines that reading a source goes through, each with the lines that are not attached yet.
    Before a line is attached, the last node is closed as long as it is not shallower than the
    line. -/
inductive Reaches (file src : Bytes) : Outline → List Line → Prop
  | start {lines : List Line} (h : Line.split file src = .ok lines) :
      Reaches file src (Outline.start file) (Line.content lines)
  | pop {o : Outline} {l : Line} {ls : List Line} (h : Reaches file src o (l :: ls))
      (hdepth : l.depth ≤ o.top.depth) : Reaches file src o.pop (l :: ls)
  | attach {o o' : Outline} {l : Line} {ls : List Line} (h : Reaches file src o (l :: ls))
      (hdepth : o.top.depth < l.depth) (hattach : o.attach l = .ok o') : Reaches file src o' ls

end Outline

/-! ## The stack of an outline -/

namespace IsOutlineOf

variable {top p : OpenNode} {below : List OpenNode} {ls : List Line}

theorem depth_eq (h : IsOutlineOf top below ls) : top.depth = below.length - 1 := by
  induction h with
  | document => rfl
  | line _ depth _ _ _ _ _ ih =>
    simp only [depth, ih, List.length_cons]
    omega

/-- Nothing that is nested in an open node is lost when it is closed. -/
theorem children_close (h : IsOutlineOf top (p :: below) ls) (n : Node) :
    (p.add n).close.children = p.closed.reverse ++ [n] := by
  rw [← List.reverse_cons]
  cases h with
  | line parent depth node leads admits children nests =>
    cases parent with
    | document => rfl
    | line _ _ node' =>
      obtain ⟨_, _, rfl⟩ | ⟨_, _, rfl⟩ | ⟨_, _, rfl⟩ | ⟨_, _, rfl⟩ := Node.ofText_eq_ok node'
      · rfl
      · cases admits
      · rfl
      · cases admits

theorem map_fst_stackOf (h : IsOutlineOf top below ls) :
    (Outline.stackOf top below).map Prod.fst =
      (List.range (below.length + 1)).map fun i : Nat => (i : Int) - 1 := by
  induction below generalizing top with
  | nil =>
    rw [Outline.stackOf, List.map_singleton, h.depth_eq]
    rfl
  | cons p below ih =>
    rw [Outline.stackOf, List.map_append, ih h.close, List.map_singleton, h.depth_eq,
      List.length_cons, List.range_succ (n := below.length + 1), List.map_append,
      List.map_singleton]

theorem head?_stackOf (h : IsOutlineOf top below ls) :
    ∃ r, (Outline.stackOf top below).head? = some (-1, .document r (Outline.finish top below)) := by
  induction below generalizing top with
  | nil =>
    cases h with
    | @document r => exact ⟨r, rfl⟩
  | cons p below ih =>
    obtain ⟨r, hr⟩ := ih h.close
    exact ⟨r, by rw [Outline.stackOf, List.head?_append, hr]; rfl⟩

theorem isChain_stackOf (h : IsOutlineOf top below ls) :
    (Outline.stackOf top below).IsChain fun a b => a.2.children.getLast? = some b.2 := by
  induction below generalizing top with
  | nil => exact .singleton _
  | cons p below ih =>
    refine (ih h.close).append (.singleton _) ?_
    rw [Outline.getLast?_stackOf]
    rintro a ⟨rfl⟩ b ⟨rfl⟩
    rw [h.children_close, List.getLast?_concat]

end IsOutlineOf

/-! ## Closing nodes -/

namespace Outline

variable {file src : Bytes} {o o' : Outline} {l : Line} {ls done rest : List Line}

/-- Closing the last node `n` times: as long as the depth of the last node is at least `depth`, and
    no more, and never the document. -/
structure ClosesIn (depth : Int) (o : Outline) (n : Nat) : Prop where
  /-- Each time, the last node is not shallower, and is not the document. -/
  goes : ∀ i < n, depth ≤ (pop^[i] o).top.depth ∧ (pop^[i] o).below ≠ []
  /-- In the end, the last node is shallower. -/
  stops : (pop^[n] o).top.depth < depth

theorem isOutlineOf_pop (h : IsOutlineOf o.top o.below ls) :
    IsOutlineOf o.pop.top o.pop.below ls := by
  obtain ⟨top, below⟩ := o
  cases below with
  | nil => exact h
  | cons p below => exact h.close

theorem stack_pop_isPrefix (o : Outline) : o.pop.stack <+: o.stack := by
  obtain ⟨top, below⟩ := o
  cases below with
  | nil => exact List.prefix_refl _
  | cons p below => exact List.prefix_append _ _

theorem stack_iterate_pop_isPrefix (n : Nat) (o : Outline) : (pop^[n] o).stack <+: o.stack := by
  induction n generalizing o with
  | zero => exact List.prefix_refl _
  | succ n ih => exact (ih o.pop).trans o.stack_pop_isPrefix

/-- All nodes that are not shallower than a line are closed one after the other. -/
theorem exists_closesIn {top : OpenNode} {below : List OpenNode} (h : IsOutlineOf top below ls)
    (d : Nat) :
    ∃ n, ClosesIn d ⟨top, below⟩ n ∧ pop^[n] ⟨top, below⟩ = closeTo d top below ∧
      (pop^[n] ⟨top, below⟩).top.depth = min top.depth (d - 1) := by
  induction below generalizing top with
  | nil =>
    -- Only the document is left, and its depth is less than that of any line.
    have hdepth : top.depth = -1 := h.depth_eq
    refine ⟨0, ⟨fun i hi => absurd hi (Nat.not_lt_zero i), ?_⟩, rfl, ?_⟩
    · change top.depth < d
      omega
    · change top.depth = _
      omega
  | cons p below ih =>
    have hdepth : top.depth = (p.add top.close).depth + 1 := by
      rw [h.depth_eq, h.close.depth_eq, List.length_cons]
      omega
    by_cases hd : (d : Int) ≤ top.depth
    -- The node below is one level shallower, so it has not gone beyond `d - 1` yet.
    · obtain ⟨n, hn, hclose, hmin⟩ := ih h.close
      refine ⟨n + 1, ⟨fun i hi => ?_, hn.stops⟩, ?_, ?_⟩
      · cases i with
        | zero => exact ⟨hd, List.cons_ne_nil p below⟩
        | succ i => exact hn.goes i (Nat.lt_of_succ_lt_succ hi)
      · rw [closeTo, if_pos hd, ← hclose]
        rfl
      · rw [Function.iterate_succ_apply]
        refine hmin.trans ?_
        omega
    · refine ⟨0, ⟨fun i hi => absurd hi (Nat.not_lt_zero i), Int.not_le.1 hd⟩, ?_, ?_⟩
      · rw [closeTo, if_neg hd]
        rfl
      · change top.depth = _
        omega

/-! ## Reading a source -/

theorem Reaches.isOutlineOf (h : Reaches file src o ls) : ∃ ms, IsOutlineOf o.top o.below ms := by
  induction h with
  | start => exact ⟨[], isOutlineOf_start file⟩
  | pop _ _ ih => exact ih.imp fun _ => isOutlineOf_pop
  | attach _ _ hattach ih =>
    obtain ⟨ms, hms⟩ := ih
    exact ⟨_, isOutlineOf_attach hms hattach⟩

theorem closeTo_of_lt {top : OpenNode} {d : Int} (h : top.depth < d) (below : List OpenNode) :
    closeTo d top below = ⟨top, below⟩ := by
  cases below with
  | nil => rfl
  | cons p below => rw [closeTo, if_neg (Int.not_le.2 h)]

/-- A line is attached to what is left after nodes are closed. -/
theorem attach_congr (h : closeTo l.depth o.top o.below = closeTo l.depth o'.top o'.below) :
    o.attach l = o'.attach l := by
  rw [attach, attach, h]

theorem Reaches.iterate_pop {n : Nat} (h : Reaches file src o (l :: ls))
    (hn : ∀ i < n, (l.depth : Int) ≤ (Outline.pop^[i] o).top.depth) :
    Reaches file src (Outline.pop^[n] o) (l :: ls) := by
  induction n with
  | zero => exact h
  | succ n ih =>
    rw [Function.iterate_succ_apply']
    exact (ih fun i hi => hn i (Nat.lt_succ_of_lt hi)).pop (hn n (Nat.lt_succ_self n))

/-- Attaching a line first closes nodes one after the other. -/
theorem Reaches.attachLine (h : Reaches file src o (l :: ls)) (hattach : o.attach l = .ok o') :
    Reaches file src o' ls := by
  obtain ⟨ms, hms⟩ := h.isOutlineOf
  obtain ⟨n, hn, hclose, -⟩ := exists_closesIn hms l.depth
  have hreaches := h.iterate_pop fun i hi => (hn.goes i hi).1
  refine hreaches.attach hn.stops (hattach ▸ attach_congr ?_)
  rw [closeTo_of_lt hn.stops, ← hclose]

theorem Reaches.attachAll (h : Reaches file src o (done ++ rest))
    (hattach : o.attachAll done = .ok o') : Reaches file src o' rest := by
  induction done generalizing o with
  | nil =>
    cases hattach
    exact h
  | cons l done ih =>
    obtain ⟨o₁, h₁, hattach⟩ := bind_eq_ok_iff.1 hattach
    exact ih (h.attachLine (mapError_eq_ok_iff.1 h₁)) hattach

/-- The open nodes while a source is read. There always are some, at the depths -1, 0, … from the
    bottom up, the document at the bottom, and each other one the last node in the one below it.
    Whatever the depth of the next line, nodes are closed one after the other until the last one is
    shallower, and this comes to an end without a try to close the document: what is left is the
    lower part of the stack, up to the depth of the line less one. All outlines between two lines
    of the source are among those that are meant here. -/
theorem stack_of_reaches (file src : Bytes) :
    (∀ o ls, Reaches file src o ls →
      o.stack ≠ [] ∧ o.stack.getLast? = some (o.top.depth, o.top.close) ∧
      o.stack.map Prod.fst = (List.range o.stack.length).map (fun i : Nat => (i : Int) - 1) ∧
      (∃ r, o.stack.head? = some (-1, .document r (finish o.top o.below))) ∧
      o.stack.IsChain (fun a b => a.2.children.getLast? = some b.2) ∧
      ∀ d : Nat, ∃ n, ClosesIn d o n ∧ pop^[n] o = closeTo d o.top o.below ∧
        (pop^[n] o).stack <+: o.stack ∧
        (pop^[n] o).stack.getLast?.map Prod.fst = some (min o.top.depth (d - 1))) ∧
    ∀ lines done rest o, Line.split file src = .ok lines → Line.content lines = done ++ rest →
      (Outline.start file).attachAll done = .ok o → Reaches file src o rest := by
  refine ⟨fun o ls h => ?_, fun lines done rest o hlines hcontent hattach => ?_⟩
  · obtain ⟨ms, hms⟩ := h.isOutlineOf
    have hlast : o.stack.getLast? = some (o.top.depth, o.top.close) := getLast?_stackOf _ _
    have hdepths : o.stack.map Prod.fst = _ := hms.map_fst_stackOf
    have hlength : o.stack.length = o.below.length + 1 := by
      simpa using congrArg List.length hdepths
    refine ⟨fun hnil => ?_, hlast, by rw [hdepths, hlength], hms.head?_stackOf, hms.isChain_stackOf,
      fun d => ?_⟩
    · rw [hnil] at hlast
      cases hlast
    · obtain ⟨n, hn, hclose, hmin⟩ := exists_closesIn hms d
      refine ⟨n, hn, hclose, stack_iterate_pop_isPrefix n o, ?_⟩
      rw [stack, getLast?_stackOf, Option.map_some, hmin]
  · have hstart : Reaches file src (Outline.start file) (done ++ rest) :=
      hcontent ▸ .start hlines
    exact hstart.attachAll hattach

/-- A line that ends three levels at once, with the lines before it attached. -/
theorem stack_of_reaches_dedent :
    ∃ o n, Reaches "a" "%ul\n\t-if b\n\t\t%li\n%p d" o [⟨"a", 4, 0, 0, "%p d", "%p d"⟩] ∧
      o.stack.map Prod.fst = [-1, 0, 1, 2] ∧
      (∃ r, o.stack.head? = some (-1, .document r (finish o.top o.below))) ∧
      o.stack.IsChain (fun a b => a.2.children.getLast? = some b.2) ∧ ClosesIn 0 o n ∧
      pop^[n] o = closeTo 0 o.top o.below ∧
      (pop^[n] o).stack.getLast?.map Prod.fst = some (-1) := by
  have hsplit : Line.split "a" "%ul\n\t-if b\n\t\t%li\n%p d" =
      .ok [⟨"a", 1, 0, 0, "%ul", "%ul"⟩, ⟨"a", 2, 1, 1, "-if b", "\t-if b"⟩,
        ⟨"a", 3, 2, 2, "%li", "\t\t%li"⟩, ⟨"a", 4, 0, 0, "%p d", "%p d"⟩] :=
    toOption_eq_some_iff.1 (by decide +kernel)
  have hrun : ((Outline.start "a").attachAll [⟨"a", 1, 0, 0, "%ul", "%ul"⟩,
      ⟨"a", 2, 1, 1, "-if b", "\t-if b"⟩, ⟨"a", 3, 2, 2, "%li", "\t\t%li"⟩]).toOption.map
      (fun o => (o.top.depth, o.stack.map Prod.fst)) = some (2, [-1, 0, 1, 2]) := by decide +kernel
  obtain ⟨o, ho, hv⟩ := toOption_map_eq_some_iff.1 hrun
  have hreaches := (stack_of_reaches "a" _).2 _ _ [⟨"a", 4, 0, 0, "%p d", "%p d"⟩] o hsplit rfl ho
  obtain ⟨-, -, -, hdocument, hchain, hcloses⟩ := (stack_of_reaches "a" _).1 o _ hreaches
  obtain ⟨n, hn, hclose, -, hdepth⟩ := hcloses 0
  have htop : o.top.depth = 2 := congrArg Prod.fst hv
  rw [htop] at hdepth
  exact ⟨o, n, hreaches, congrArg Prod.snd hv, hdocument, hchain, hn, hclose, hdepth⟩

end Outline

end IndentMarkup
