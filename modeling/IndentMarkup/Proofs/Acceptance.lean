import IndentMarkup.Proofs.Relocation

/-!
# Sources that are accepted

The document of a source is a nesting of its lines. Here is the other direction: lines that have a
nesting are accepted (`Document.parse_of_nesting`). Which nodes are nested need not be said again,
as a template is written in a single pass over the lines (`compile_of_nesting`); what is left is
that no line of a nesting has a fault. A line is attached if the lines before it admit lines at its
depth (`Line.Admits`), which is kept on the way into the lines nested in it and on to its siblings.

So a source is accepted by giving a nesting for it, and nestings can be put together. They depend
on the depths and texts of lines only, and may be moved to other depths (`Nesting.deepen`).
-/

namespace IndentMarkup

namespace Line

/-- Lines at the depth `k` may come after the lines `before`: what they are nested in is one level
    shallower and admits them, and `e` says whether their preceding sibling takes an else. -/
structure Admits (before : List Line) (k : Nat) (e : Bool) : Prop where
  level : ∀ l : Line, l.depth = k → l.parentDepth before + 1 = k
  parent : ∀ l : Line, l.depth = k → l.parentFault? before = none
  sibling : ∀ l : Line, l.depth = k → (l.sibling? before).any (·.node.takesElse) = e

variable {before inner ls ms : List Line} {l : Line} {k : Nat} {e : Bool}

theorem firstFault?_append (h : firstFault? before ls = none) :
    firstFault? before (ls ++ ms) = firstFault? (before ++ ls) ms := by
  induction ls generalizing before with
  | nil => rw [List.nil_append, List.append_nil]
  | cons m ls ih =>
    rw [firstFault?] at h
    rw [List.cons_append, firstFault?]
    cases hm : m.fault? before with
    | some f =>
      rw [hm] at h
      cases h
    | none =>
      rw [hm] at h
      rw [List.append_cons before m ls]
      exact ih h

namespace Admits

/-- The outermost lines of a document are at depth 0, and the first of them is no else. -/
theorem nil : Admits [] 0 false where
  level _ hl := by
    rw [parentDepth, parent?, List.reverse_nil, List.find?_nil]
    rfl
  parent _ _ := rfl
  sibling _ _ := rfl

/-- Lines nested in a line may come right after it. -/
theorem children (hl : l.depth = k) (hr : Outline.refusal? l.node = none) :
    Admits (before ++ [l]) (k + 1) false := by
  have hlt : ∀ m : Line, m.depth = k + 1 → l.depth < m.depth := fun m hm => by
    rw [hl, hm]
    exact Nat.lt_succ_self k
  refine ⟨fun m hm => ?_, fun m hm => ?_, fun m hm => ?_⟩
  · rw [parentDepth, parent?_concat (hlt m hm), Option.map_some, Option.getD_some, hl]
    rfl
  · rw [node_eq_place, Node.refusal?_place] at hr
    rw [parentFault?_eq_map, parent?_concat (hlt m hm), Option.map_some, Option.bind_some, item, hr]
    rfl
  · rw [sibling?_concat (hlt m hm)]
    rfl

/-- The siblings of a line may come after all that is nested in it. -/
theorem siblings (h : Admits before k e) (hl : l.depth = k)
    (hinner : ∀ m ∈ inner, k + 1 ≤ m.depth) :
    Admits (before ++ l :: inner) k l.node.takesElse := by
  have hle : ∀ m : Line, m.depth = k → ∀ p ∈ l :: inner, m.depth ≤ p.depth := by
    intro m hm p hp
    rw [hm]
    rcases List.mem_cons.1 hp with rfl | hp
    · exact hl.ge
    · exact Nat.le_of_succ_le (hinner p hp)
  have hfind : (l :: inner).reverse.find? (·.depth = k) = some l := by
    have hnone : inner.reverse.find? (·.depth = k) = none := by
      rw [List.find?_eq_none]
      intro m hm
      have := hinner m (List.mem_reverse.1 hm)
      simp only [decide_eq_true_eq]
      omega
    rw [List.reverse_cons, List.find?_append, hnone, Option.none_or]
    simp [hl]
  refine ⟨fun m hm => ?_, fun m hm => ?_, fun m hm => ?_⟩
  · rw [parentDepth, parent?_append (hle m hm)]
    exact h.level m hm
  · rw [parentFault?, parent?_append (hle m hm)]
    exact h.parent m hm
  · rw [sibling?_append (hle m hm), hm, hfind]
    rfl

/-- A line at that depth has no fault if it denotes a node, and an else is led by a block. -/
theorem fault?_eq_none {n : Node} (h : Admits before k e) (hl : l.depth = k)
    (node : Node.ofLine l = .ok n) (leads : n.isElse → e) : l.fault? before = none := by
  have hlevel : l.levelFault? before = none := by
    rw [levelFault?, h.level l hl, hl, if_neg (Int.lt_irrefl _)]
  have htext : l.textFault? = none := by
    rw [textFault?, node]
  have helse : l.elseFault? before = none := by
    rw [elseFault?, h.sibling l hl, node_eq node, if_neg]
    rintro ⟨hn, he⟩
    exact he (leads hn)
  rw [fault?, hlevel, h.parent l hl, htext, helse]
  rfl

end Admits

end Line

namespace Nesting

variable {k : Nat} {e : Bool} {ls : List Line} {ns : List Node}

/-- No line of a nesting has a fault. -/
theorem firstFault?_eq_none (h : Nesting k e ls ns) {before : List Line}
    (hb : Line.Admits before k e) : Line.firstFault? before ls = none := by
  induction h generalizing before with
  | nil => rfl
  | @cons k e l n inner rest cs ns depth node leads admits children siblings ihc ihs =>
    have hl : Line.firstFault? before [l] = none := by
      rw [Line.firstFault?, hb.fault?_eq_none depth node leads]
      rfl
    have hinner : Line.firstFault? (before ++ [l]) inner = none := by
      -- A line that admits nothing is fine as long as nothing is nested in it.
      by_cases h : inner = []
      · rw [h]
        rfl
      · have hr := admits h
        rw [← Line.node_eq node] at hr
        exact ihc (.children depth hr)
    have hrest : Line.firstFault? (before ++ l :: inner) rest = none := by
      refine ihs ?_
      rw [← Line.node_eq node]
      exact hb.siblings depth fun m hm => (children.of_mem m hm).1
    rw [List.cons_append, ← List.singleton_append, Line.firstFault?_append hl,
      Line.firstFault?_append hinner, List.append_assoc]
    exact hrest

/-- A nesting that does not start with an else may also come after a block that takes one. -/
theorem weaken (h : Nesting k false ls ns) (e : Bool) : Nesting k e ls ns := by
  cases h with
  | nil => exact .nil
  | cons depth node leads admits children siblings =>
    exact .cons depth node (fun hn => absurd (leads hn) Bool.false_ne_true) admits children siblings

/-- Lines with the same texts at other depths, all of which differ by `j`, have a nesting, too. -/
theorem deepen (h : Nesting k e ls ns) (j : Nat) {ls' : List Line}
    (hls : ls'.map Line.item = ls.map fun l => (l.depth + j, l.text)) :
    ∃ ns', Nesting (k + j) e ls' ns' := by
  induction h generalizing ls' with
  | nil =>
    obtain rfl : ls' = [] := List.map_eq_nil_iff.1 hls
    exact ⟨[], .nil⟩
  | @cons k e l n inner rest cs ns depth node leads admits children siblings ihc ihs =>
    rw [List.map_append, List.map_cons] at hls
    obtain ⟨ls₁, rest', rfl, hls₁, hrest⟩ := List.map_eq_append_iff.1 hls
    obtain ⟨l', inner', rfl, hl, hinner⟩ := List.map_eq_cons_iff.1 hls₁
    obtain ⟨cs', hcs⟩ := ihc hinner
    obtain ⟨ns', hns⟩ := ihs hrest
    obtain ⟨hdepth, htext⟩ := Prod.mk.inj hl
    -- The text is the same, so the line denotes the same node in another place.
    have hnode : Node.ofLine l' = .ok (n.place l'.range) := by
      rw [Node.ofLine, htext, Node.ofText_eq_map l'.range l.range, ← Node.ofLine, node]
      rfl
    have hadmits : inner' ≠ [] → Outline.refusal? (n.place l'.range) = none := fun hne => by
      rw [Node.refusal?_place]
      refine admits fun h => hne ?_
      rw [h] at hinner
      exact List.map_eq_nil_iff.1 hinner
    rw [Nat.add_right_comm] at hcs
    rw [← Node.takesElse_place l'.range] at hns
    rw [depth] at hdepth
    rw [← Node.isElse_place l'.range] at leads
    exact ⟨_, .cons hdepth hnode leads hadmits hcs hns⟩

end Nesting

/-- A source that can be cut into lines with a nesting has a document. -/
theorem Document.parse_of_nesting {file src : Bytes} {lines : List Line} {ns : List Node}
    (hl : Line.split file src = .ok lines) (h : Nesting 0 false (Line.content lines) ns) :
    ∃ d, Document.parse file src = .ok d :=
  parse_ok_iff.2 ⟨lines, hl, h.firstFault?_eq_none .nil⟩

/-- A source with a nesting is compiled to the rows of the single pass. -/
theorem compile_of_nesting {opts : Options} {src : Bytes} {style : BindingStyle}
    {lines : List Line} {ns : List Node} (hs : Target.style opts.target = .ok style)
    (hl : Line.split opts.file src = .ok lines) (h : Nesting 0 false (Line.content lines) ns) :
    compile opts src = .ok (Bytes.join [Byte.lf]
      ((pass style [] ((Line.content lines).map Line.item)).map Row.bytes)) := by
  obtain ⟨d, hd⟩ := Document.parse_of_nesting hl h
  obtain ⟨lines', hl', hrows, -⟩ := Document.rows_of_parse hd style
  cases hl.symm.trans hl'
  rw [compile_of_parse hs hd, Rendering.text, hrows]

/-- A source that is compiled has a nesting, and none of the rows of its template is empty. -/
theorem nesting_of_compile {opts : Options} {src out : Bytes} (h : compile opts src = .ok out) :
    ∃ style lines ns, Target.style opts.target = .ok style ∧
      Line.split opts.file src = .ok lines ∧ Nesting 0 false (Line.content lines) ns ∧
      out = Bytes.join [Byte.lf]
        ((pass style [] ((Line.content lines).map Line.item)).map Row.bytes) ∧
      ∀ r ∈ pass style [] ((Line.content lines).map Line.item), r.IsLine := by
  obtain ⟨style, d, hs, hd, rfl⟩ := compile_eq_ok h
  obtain ⟨lines, hl, hn⟩ := Document.nesting_of_parse hd
  obtain ⟨lines', hl', hrows, hlines⟩ := Document.rows_of_parse hd style
  cases hl.symm.trans hl'
  rw [Rendering.text, hrows]
  rw [hrows] at hlines
  exact ⟨style, lines, d.children, hs, hl, hn, rfl, hlines⟩

end IndentMarkup
