import IndentMarkup.Proofs.Nesting

/-!
# Sources that are rejected

Whether a line can be attached is decided by the outline of the lines before it. Here it is said
by those lines themselves. A line is nested in the nearest line before it that is shallower
(`Line.parent?`), or else in the document, and its preceding sibling is the last line as deep as
itself after that one (`Line.sibling?`). Four things can be wrong with a line, and the first of
them is its fault (`Line.fault?`):

* `Line.levelFault?`: it is more than one level deeper than what it is nested in;
* `Line.parentFault?`: nothing can be nested in the node of its parent;
* `Line.textFault?`: it does not denote a node;
* `Line.elseFault?`: it is an else, and its preceding sibling is no block that takes one.

A source is rejected if it cannot be cut into lines, and otherwise at the first of its lines that
has a fault (`Document.parse_eq_error_iff`).
-/

namespace IndentMarkup

namespace Line

/-- The line that a line after the lines `before` is nested in, if it is not in the document. -/
def parent? (before : List Line) (l : Line) : Option Line :=
  before.reverse.find? (·.depth < l.depth)

/-- The depth of what a line after the lines `before` is nested in, -1 for the document. -/
def parentDepth (before : List Line) (l : Line) : Int :=
  ((l.parent? before).map fun p => (p.depth : Int)).getD (-1)

/-- The line of the preceding sibling of a line after the lines `before`: the last one of its
    depth among those that follow its parent. -/
def sibling? (before : List Line) (l : Line) : Option Line :=
  (before.reverse.takeWhile (l.depth ≤ ·.depth)).find? (·.depth = l.depth)

/-- The fault of a line that skips a level. -/
def levelFault? (before : List Line) (l : Line) : Option Fault :=
  if l.parentDepth before + 1 < l.depth then
    some ⟨0, 1, .skippedLevel (l.depth - l.parentDepth before)⟩
  else none

/-- The fault of a line nested in a text, an expression or an element with content. -/
def parentFault? (before : List Line) (l : Line) : Option Fault :=
  match (l.parent? before).map node with
  | some (.text _ _) | some (.expression _ _) => some ⟨0, l.text.length, .nestedInLeaf⟩
  | some (.element _ el _) =>
    if el.content = [] then none else some ⟨0, l.text.length, .nestedInInline el.tag⟩
  | _ => none

/-- The fault of a line that does not denote a node. -/
def textFault? (l : Line) : Option Fault :=
  match Node.ofLine l with
  | .error f => some f
  | .ok _ => none

/-- The fault of an else that does not follow an if or unless on the same level. -/
def elseFault? (before : List Line) (l : Line) : Option Fault :=
  if l.node.isElse ∧ ¬(l.sibling? before).any (·.node.takesElse) then
    some ⟨0, l.text.length, .strayElse⟩
  else none

/-- The fault of a line after the lines `before`, if anything is wrong with it. -/
def fault? (before : List Line) (l : Line) : Option Fault :=
  l.levelFault? before <|> l.parentFault? before <|> l.textFault? <|> l.elseFault? before

/-- The first of the lines after `before` that has a fault, with its fault. -/
def firstFault? (before : List Line) : List Line → Option (Line × Fault)
  | [] => none
  | l :: ls =>
    match l.fault? before with
    | some f => some (l, f)
    | none => firstFault? (before ++ [l]) ls

theorem firstFault?_eq_none_iff {before ls : List Line} :
    firstFault? before ls = none ↔
      ∀ b l a, ls = b ++ l :: a → l.fault? (before ++ b) = none := by
  induction ls generalizing before with
  | nil => simp [firstFault?]
  | cons m ls ih =>
    rw [firstFault?, forall_split_cons (P := fun b (l : Line) => l.fault? (before ++ b) = none),
      List.append_nil]
    cases hm : m.fault? before with
    | some f => simp
    | none => simp [ih]

theorem firstFault?_eq_some_iff {before ls : List Line} {l : Line} {f : Fault} :
    firstFault? before ls = some (l, f) ↔
      ∃ b a, ls = b ++ l :: a ∧ firstFault? before b = none ∧ l.fault? (before ++ b) = some f := by
  induction ls generalizing before with
  | nil =>
    refine ⟨fun h => (by cases h), ?_⟩
    rintro ⟨b, a, h, -, -⟩
    cases b <;> cases h
  | cons m ls ih =>
    rw [firstFault?]
    cases hm : m.fault? before with
    | some g =>
      refine ⟨fun h => ?_, ?_⟩
      · cases h
        exact ⟨[], ls, rfl, rfl, by rw [List.append_nil, hm]⟩
      · rintro ⟨b, a, hls, hb, hf⟩
        cases b with
        | nil =>
          cases hls
          rw [List.append_nil, hm] at hf
          cases hf
          rfl
        | cons b₀ b =>
          cases hls
          rw [firstFault?, hm] at hb
          cases hb
    | none =>
      refine ih.trans ⟨?_, ?_⟩
      · rintro ⟨b, a, rfl, hb, hf⟩
        refine ⟨m :: b, a, rfl, ?_, ?_⟩
        · rw [firstFault?, hm]
          exact hb
        · rw [List.append_cons]
          exact hf
      · rintro ⟨b, a, hls, hb, hf⟩
        cases b with
        | nil =>
          cases hls
          rw [List.append_nil, hm] at hf
          cases hf
        | cons b₀ b =>
          cases hls
          rw [firstFault?, hm] at hb
          exact ⟨b, a, rfl, hb, by rwa [← List.append_cons]⟩

end Line

/-! ## Parents and siblings in an outline -/

namespace Line

variable {l p : Line} {before inner : List Line}

theorem parent?_append (h : ∀ m ∈ inner, l.depth ≤ m.depth) :
    l.parent? (before ++ inner) = l.parent? before := by
  have hinner : inner.reverse.find? (·.depth < l.depth) = none := by
    rw [List.find?_eq_none]
    intro m hm
    simpa using h m (List.mem_reverse.1 hm)
  rw [parent?, List.reverse_append, List.find?_append, hinner, Option.none_or, parent?]

theorem parent?_concat (h : p.depth < l.depth) : l.parent? (before ++ [p]) = some p := by
  rw [parent?, List.reverse_append, List.reverse_singleton, List.singleton_append]
  exact List.find?_cons_of_pos (by simpa using h)

theorem sibling?_append (h : ∀ m ∈ inner, l.depth ≤ m.depth) :
    l.sibling? (before ++ inner) =
      (inner.reverse.find? (·.depth = l.depth)).or (l.sibling? before) := by
  have hinner : ∀ m ∈ inner.reverse, decide (l.depth ≤ m.depth) := by
    intro m hm
    simpa using h m (List.mem_reverse.1 hm)
  rw [sibling?, List.reverse_append, List.takeWhile_append_of_pos hinner, List.find?_append,
    sibling?]

theorem sibling?_concat (h : p.depth < l.depth) : l.sibling? (before ++ [p]) = none := by
  rw [sibling?, List.reverse_append, List.reverse_singleton, List.singleton_append,
    List.takeWhile_cons_of_neg (by simpa using h), List.find?_nil]

end Line

namespace Nesting

variable {k : Nat} {e : Bool} {ls : List Line} {ns closed : List Node}

/-- The last node of a nesting is that of its last line on the outermost level. -/
theorem map_find?_reverse (h : Nesting k e ls ns) :
    (ls.reverse.find? (·.depth = k)).map (·.node.takesElse) = ns.getLast?.map Node.takesElse := by
  induction h with
  | nil => rfl
  | @cons k e l n inner rest cs ns depth node leads admits children siblings _ ih =>
    have hinner : inner.reverse.find? (·.depth = k) = none := by
      rw [List.find?_eq_none]
      intro m hm
      have := (children.of_mem m (List.mem_reverse.1 hm)).1
      simp only [decide_eq_true_eq]
      omega
    rw [List.reverse_append, List.reverse_cons, List.find?_append, List.find?_append, hinner,
      Option.map_or, ih, List.getLast?_cons]
    cases ns.getLast? <;> simp [depth, Line.node_eq node]

/-- The last node closed in an open node, where a line at the depth `d` looks for it. -/
theorem any_find?_reverse (h : Nesting k e ls closed.reverse) {d : Nat} (hk : k ≤ d)
    (hd : closed = [] ∨ d ≤ k) :
    (ls.reverse.find? (·.depth = d)).any (·.node.takesElse) =
      closed.head?.any Node.takesElse := by
  rcases hd with rfl | hd
  · rw [h.nil_iff.2 rfl]
    rfl
  · have hlast := h.map_find?_reverse
    rw [List.getLast?_reverse, Nat.le_antisymm hk hd] at hlast
    generalize ls.reverse.find? (·.depth = d) = x at hlast ⊢
    cases x <;> cases hh : closed.head? <;> simp_all

/-- The nodes closed in an open node are not shallower than a line that is nested in it, as it is
    the first one there or as deep as they are. -/
theorem depth_le (h : Nesting k e ls closed.reverse) {d : Nat} (hd : closed = [] ∨ d ≤ k) :
    ∀ m ∈ ls, d ≤ m.depth := by
  intro m hm
  rcases hd with rfl | hd
  · rw [h.nil_iff.2 rfl] at hm
    exact absurd hm List.not_mem_nil
  · exact Nat.le_trans hd (h.of_mem m hm).1

end Nesting

namespace IsOutlineOf

variable {top : OpenNode} {below : List OpenNode} {ls : List Line} {l : Line}

/-- The open node that a line is to be nested in is that of its parent. -/
theorem parent?_eq (h : IsOutlineOf top below ls) (hlt : top.depth < l.depth)
    (hc : top.closed = [] ∨ l.depth ≤ top.depth + 1) :
    (∃ r, l.parent? ls = none ∧ top.depth = -1 ∧ top.node = .document r []) ∨
      ∃ p, l.parent? ls = some p ∧ top.depth = p.depth ∧ Node.ofLine p = .ok top.node := by
  cases h with
  | @document r closed _ children =>
    refine .inl ⟨r, ?_, rfl, rfl⟩
    rw [← List.nil_append ls, Line.parent?_append (children.depth_le (hc.imp_right Int.ofNat_le.1))]
    rfl
  | @line _ _ p _ _ _ inner _ depth node _ _ children _ =>
    refine .inr ⟨p, ?_, rfl, node⟩
    rw [List.append_cons, Line.parent?_append (children.depth_le (hc.imp_right Int.ofNat_le.1)),
      Line.parent?_concat (Int.ofNat_lt.1 hlt)]

theorem parentDepth_eq (h : IsOutlineOf top below ls) (hlt : top.depth < l.depth)
    (hc : top.closed = [] ∨ l.depth ≤ top.depth + 1) : l.parentDepth ls = top.depth := by
  obtain ⟨r, hp, hd, -⟩ | ⟨p, hp, hd, -⟩ := h.parent?_eq hlt hc
  · rw [Line.parentDepth, hp, hd]
    rfl
  · rw [Line.parentDepth, hp, hd]
    rfl

theorem parentFault?_eq (h : IsOutlineOf top below ls) (hlt : top.depth < l.depth)
    (hc : top.closed = [] ∨ l.depth ≤ top.depth + 1) :
    l.parentFault? ls = (Outline.refusal? top.node).map fun p => ⟨0, l.text.length, p⟩ := by
  obtain ⟨r, hp, -, hn⟩ | ⟨p, hp, -, hn⟩ := h.parent?_eq hlt hc
  · rw [Line.parentFault?, hp, hn]
    rfl
  · rw [Line.parentFault?, hp, Option.map_some, Line.node_eq hn]
    cases top.node with
    | element r el cs => cases hcon : el.content <;> simp [Outline.refusal?, hcon]
    | _ => rfl

/-- The last node closed in the open node that a line is to be nested in is that of its
    preceding sibling. -/
theorem sibling?_eq (h : IsOutlineOf top below ls) (hlt : top.depth < l.depth)
    (hc : top.closed = [] ∨ l.depth ≤ top.depth + 1) :
    (l.sibling? ls).any (·.node.takesElse) = top.closed.head?.any Node.takesElse := by
  cases h with
  | @document r closed _ children =>
    rw [← List.nil_append ls,
      Line.sibling?_append (children.depth_le (hc.imp_right Int.ofNat_le.1)),
      show l.sibling? [] = none from rfl, Option.or_none]
    exact children.any_find?_reverse (Nat.zero_le _) (hc.imp_right Int.ofNat_le.1)
  | @line _ _ p _ _ _ inner _ depth node _ _ children _ =>
    rw [List.append_cons, Line.sibling?_append (children.depth_le (hc.imp_right Int.ofNat_le.1)),
      Line.sibling?_concat (Int.ofNat_lt.1 hlt), Option.or_none]
    exact children.any_find?_reverse (Int.ofNat_lt.1 hlt) (hc.imp_right Int.ofNat_le.1)

/-- Nothing is closed yet in the last node, so after closing nodes for a line, the first of
    those that are closed is as deep as the line or deeper. -/
theorem closed_closeTo (h : IsOutlineOf top below ls) {d : Int}
    (hc : top.closed = [] ∨ d ≤ top.depth + 1) :
    (Outline.closeTo d top below).top.closed = [] ∨
      d ≤ (Outline.closeTo d top below).top.depth + 1 := by
  induction below generalizing top with
  | nil => exact hc
  | cons p below ih =>
    rw [Outline.closeTo]
    split_ifs with hd
    · refine ih h.close (.inr ?_)
      cases h with
      | line _ depth => exact depth ▸ hd
    · exact hc

end IsOutlineOf

/-! ## Attaching lines -/

namespace Outline

/-- A line is attached unless it has a fault after the lines that the outline is of. -/
theorem attach_eq {o : Outline} {l : Line} {ls : List Line} (ho : IsOutlineOf o.top o.below ls)
    (hfresh : o.top.closed = []) :
    o.attach l =
      match l.fault? ls with
      | some f => .error f
      | none => .ok ⟨⟨l.depth, l.node, []⟩,
          (closeTo l.depth o.top o.below).top :: (closeTo l.depth o.top o.below).below⟩ := by
  have hlt := ho.depth_closeTo_lt l.depth
  have hcl := ho.closed_closeTo (d := l.depth) (.inl hfresh)
  have hof := ho.closeTo l.depth
  unfold attach Line.fault? Line.levelFault? Line.textFault? Line.elseFault?
  generalize closeTo l.depth o.top o.below = c at hlt hcl hof ⊢
  obtain ⟨top, below⟩ := c
  rw [hof.parentDepth_eq hlt hcl, hof.parentFault?_eq hlt hcl, hof.sibling?_eq hlt hcl]
  simp only
  -- From here on, both sides go through the four faults in the same order.
  by_cases hd : top.depth + 1 < l.depth
  · rw [if_pos hd, if_pos hd]
    rfl
  · rw [if_neg hd, if_neg hd]
    cases refusal? top.node with
    | some p => rfl
    | none =>
      cases hn : Node.ofLine l with
      | error f => rfl
      | ok n =>
        rw [Line.node_eq hn]
        change (if _ then _ else _) = _
        cases n.isElse <;> cases top.closed.head?.any Node.takesElse <;> rfl

/-- Attaching lines stops at the first one that has a fault. -/
theorem attachAll_eq {o : Outline} {ls : List Line} (ho : IsOutlineOf o.top o.below ls)
    (hfresh : o.top.closed = []) (ms : List Line) :
    match Line.firstFault? ls ms with
    | some (m, f) => o.attachAll ms = .error (m.diagnostic f)
    | none => ∃ o', o.attachAll ms = .ok o' := by
  induction ms generalizing o ls with
  | nil => exact ⟨o, rfl⟩
  | cons m ms ih =>
    have hm := attach_eq (l := m) ho hfresh
    rw [Line.firstFault?, attachAll]
    cases hf : m.fault? ls with
    | some f =>
      rw [hf] at hm
      rw [hm]
      rfl
    | none =>
      rw [hf] at hm
      have hof := isOutlineOf_attach ho hm
      rw [hm]
      exact ih hof rfl

end Outline

/-! ## Documents -/

namespace Line

variable {before : List Line} {l : Line} {f : Fault}

theorem kind_of_levelFault? (h : l.levelFault? before = some f) :
    (l.diagnostic f).kind = some .indentation := by
  rw [levelFault?] at h
  split_ifs at h
  cases h
  rfl

theorem kind_of_parentFault? (h : l.parentFault? before = some f) :
    (l.diagnostic f).kind = some .indentation := by
  rw [parentFault?] at h
  split at h
  · cases h
    rfl
  · cases h
    rfl
  · split_ifs at h
    cases h
    rfl
  · cases h

theorem kind_of_elseFault? (h : l.elseFault? before = some f) :
    (l.diagnostic f).kind = some .unexpectedElse := by
  rw [elseFault?] at h
  split_ifs at h
  cases h
  rfl

end Line

namespace Document

variable {file src : Bytes}

/-- A source that can be cut into lines is rejected at the first line that has a fault. -/
theorem parse_of_split {lines : List Line} (hl : Line.split file src = .ok lines) :
    match Line.firstFault? [] (Line.content lines) with
    | some (l, f) => parse file src = .error (l.diagnostic f)
    | none => ∃ d, parse file src = .ok d := by
  have hall := Outline.attachAll_eq (Outline.isOutlineOf_start file) rfl (Line.content lines)
  cases hff : Line.firstFault? [] (Line.content lines) with
  | some x =>
    rw [hff] at hall
    exact bind_eq_error_iff.2 (.inr ⟨lines, hl, bind_eq_error_iff.2 (.inl hall)⟩)
  | none =>
    rw [hff] at hall
    obtain ⟨o, ho⟩ := hall
    exact ⟨_, bind_eq_ok_iff.2 ⟨lines, hl, bind_eq_ok_iff.2 ⟨o, ho, rfl⟩⟩⟩

theorem parse_error_iff {e : Diagnostic} :
    parse file src = .error e ↔
      Line.split file src = .error e ∨
      ∃ lines l f, Line.split file src = .ok lines ∧
        Line.firstFault? [] (Line.content lines) = some (l, f) ∧ e = l.diagnostic f := by
  refine ⟨fun h => ?_, ?_⟩
  · cases hl : Line.split file src with
    | error e' =>
      have hp : parse file src = .error e' := bind_eq_error_iff.2 (.inl hl)
      exact .inl (congrArg _ (Except.error.inj (hp.symm.trans h)))
    | ok lines =>
      have hp := parse_of_split hl
      cases hff : Line.firstFault? [] (Line.content lines) with
      | some x =>
        rw [hff] at hp
        exact .inr ⟨lines, x.1, x.2, rfl, hff, Except.error.inj (h.symm.trans hp)⟩
      | none =>
        rw [hff] at hp
        obtain ⟨d, hd⟩ := hp
        cases h.symm.trans hd
  · rintro (hl | ⟨lines, l, f, hl, hff, rfl⟩)
    · exact bind_eq_error_iff.2 (.inl hl)
    · have hp := parse_of_split hl
      rwa [hff] at hp

theorem parse_ok_iff :
    (∃ d, parse file src = .ok d) ↔
      ∃ lines, Line.split file src = .ok lines ∧
        Line.firstFault? [] (Line.content lines) = none := by
  refine ⟨?_, ?_⟩
  · rintro ⟨d, hd⟩
    obtain ⟨lines, o, hl, -, -⟩ := parse_eq_ok hd
    refine ⟨lines, hl, Option.eq_none_iff_forall_not_mem.2 fun x hx => ?_⟩
    have := parse_error_iff.2 (.inr ⟨lines, x.1, x.2, hl, hx, rfl⟩)
    cases hd.symm.trans this
  · rintro ⟨lines, hl, hff⟩
    have hp := parse_of_split hl
    rwa [hff] at hp

end Document

/-- When a source is rejected, and why: it cannot be cut into lines, or else the first of its
    lines that has a fault is reported. It is accepted if there is none. Skipped levels and wrong
    nesting are problems of indentation. -/
theorem Document.parse_eq_error_iff (file src : Bytes) :
    (∀ e, Document.parse file src = .error e ↔
      Line.split file src = .error e ∨
      ∃ lines before l after f, Line.split file src = .ok lines ∧
        Line.content lines = before ++ l :: after ∧
        (∀ b m a, before = b ++ m :: a → m.fault? b = none) ∧
        l.fault? before = some f ∧ e = l.diagnostic f) ∧
    ((∃ d, Document.parse file src = .ok d) ↔
      ∃ lines, Line.split file src = .ok lines ∧
        ∀ b m a, Line.content lines = b ++ m :: a → m.fault? b = none) ∧
    ∀ before (l : Line) f,
      (l.levelFault? before = some f ∨ l.parentFault? before = some f →
        (l.diagnostic f).kind = some .indentation) ∧
      (l.elseFault? before = some f → (l.diagnostic f).kind = some .unexpectedElse) := by
  have hnone : ∀ ls : List Line, Line.firstFault? [] ls = none ↔
      ∀ b m a, ls = b ++ m :: a → m.fault? b = none := fun ls => by
    simp only [Line.firstFault?_eq_none_iff, List.nil_append]
  refine ⟨fun e => parse_error_iff.trans (or_congr_right ⟨?_, ?_⟩), ?_, fun before l f =>
    ⟨?_, Line.kind_of_elseFault?⟩⟩
  · rintro ⟨lines, l, f, hl, hff, rfl⟩
    obtain ⟨before, after, hls, hb, hf⟩ := Line.firstFault?_eq_some_iff.1 hff
    rw [List.nil_append] at hf
    exact ⟨lines, before, l, after, f, hl, hls, (hnone before).1 hb, hf, rfl⟩
  · rintro ⟨lines, before, l, after, f, hl, hls, hb, hf, rfl⟩
    refine ⟨lines, l, f, hl, Line.firstFault?_eq_some_iff.2 ?_, rfl⟩
    refine ⟨before, after, hls, (hnone before).2 hb, ?_⟩
    rwa [List.nil_append]
  · simp only [parse_ok_iff, hnone]
  · rintro (h | h)
    · exact Line.kind_of_levelFault? h
    · exact Line.kind_of_parentFault? h

end IndentMarkup
