import IndentMarkup.Proofs.Rendering
import Mathlib.Data.List.TakeWhile
import Mathlib.Tactic.SplitIfs

/-!
# Rendering with a look ahead

A tree can be rendered without blocks that are left open: a block that takes an else looks at its
next sibling, and is closed after that one if it is an else (`Node.lines`, `Node.linesAll`).

Whether a tree can be rendered is seen on a traversal of it, in which every node comes with the
sibling before it (`Document.visits`): all nodes have to be elements, texts, expressions or blocks,
and every else has to come right after an if or unless. The first node for which this fails is
reported (`Node.offence?`).

A tour of a tree (`Document.tour`) goes through both at once, so that it can be cut off at the first
node that cannot be rendered. What it comes across up to there is the rendering of the tree
(`Document.render_eq_ofEvents`).
-/

namespace IndentMarkup

namespace Node

/-! ## Rows -/

mutual

/-- The rows of a node at the given level. The rows `branch` are those of the else that belongs to
    it, if it is a block that has one. -/
def lines (style : BindingStyle) (level : Nat) (branch : List Row) : Node → List Row
  | element _ el [] => [⟨level, el.openTag style ++ el.content.template ++ el.closeTag⟩]
  | element _ el (c :: cs) =>
    [⟨level, el.openTag style⟩] ++
      (if el.content.isHollow then [] else [⟨level + 1, el.content.template⟩]) ++
      linesAll style (level + 1) (c :: cs) ++ [⟨level, el.closeTag⟩]
  | text _ span => [⟨level, span.template⟩]
  | expression _ value => [⟨level, mustache value⟩]
  | block _ b cs =>
    [⟨level, mustache ("#" ++ b.keyword.name ++ " " ++ b.argument)⟩] ++
      linesAll style (level + 1) cs ++ branch ++ [⟨level, mustache ("/" ++ b.keyword.name)⟩]
  | document _ _ | absent => []

/-- The rows of siblings at the given level. An else right after a node that takes it is a branch
    of that node. -/
def linesAll (style : BindingStyle) (level : Nat) : List Node → List Row
  | [] => []
  | n :: block r e es :: ns =>
    if n.takesElse ∧ e.keyword = .elseWord then
      lines style level (⟨level, mustache "else"⟩ :: linesAll style (level + 1) es) n ++
        linesAll style level ns
    else lines style level [] n ++ linesAll style level (block r e es :: ns)
  | n :: ns => lines style level [] n ++ linesAll style level ns

end

/-! ## Visits -/

mutual

/-- A node with the sibling before it, if there is one, followed by all that is nested in the node,
    each with the sibling before it. -/
def visits (prev : Option Node) : Node → List (Option Node × Node)
  | element r el cs => (prev, element r el cs) :: visitsAll none cs
  | text r s => [(prev, text r s)]
  | expression r v => [(prev, expression r v)]
  | block r b cs => (prev, block r b cs) :: visitsAll none cs
  | document r cs => (prev, document r cs) :: visitsAll none cs
  | absent => [(prev, absent)]

/-- Siblings, each followed by all that is nested in it, where the node `prev` comes before them. -/
def visitsAll (prev : Option Node) : List Node → List (Option Node × Node)
  | [] => []
  | n :: ns => visits prev n ++ visitsAll (some n) ns

end

/-- Whether a node is an element, a text, an expression or a block. -/
def isMarkup : Node → Bool
  | element .. | text .. | expression .. | block .. => true
  | document .. | absent => false

/-- Why a node cannot be rendered after the sibling before it, if so. -/
def offence? (prev : Option Node) : Node → Option RenderError
  | document _ _ => some .nestedDocument
  | absent => some .absentNode
  | block r b _ =>
    if b.keyword = .elseWord ∧ ¬prev.any takesElse then some (.orphanElse r) else none
  | element .. | text .. | expression .. => none

theorem offence?_eq_none_iff {prev : Option Node} {n : Node} :
    n.offence? prev = none ↔ n.isMarkup ∧ (n.isElse → prev.any takesElse) := by
  cases n with
  | block r b cs => simp [offence?, isMarkup, isElse]
  | _ => simp [offence?, isMarkup, isElse]

theorem any_takesElse_iff {prev : Option Node} :
    prev.any takesElse ↔ ∃ r b cs, prev = some (.block r b cs) ∧
      (b.keyword = .ifWord ∨ b.keyword = .unlessWord) := by
  constructor
  · intro h
    cases prev with
    | none => cases h
    | some n =>
      cases n with
      | block r b cs => exact ⟨r, b, cs, rfl, by simpa [takesElse, Keyword.takesElse] using h⟩
      | _ => cases h
  · rintro ⟨r, b, cs, rfl, hb⟩
    simpa [takesElse, Keyword.takesElse] using hb

end Node

/-! ## Tours -/

/-- What is come across on a tour of a tree. -/
inductive Event where
  /-- A node, with the sibling before it, if there is one. -/
  | visit (v : Option Node × Node)
  /-- A row. -/
  | row (r : Row)

namespace Event

/-- The rows that are come across. -/
def rows : List Event → List Row
  | [] => []
  | row r :: evs => r :: rows evs
  | visit _ :: evs => rows evs

/-- The nodes that are come across, each with the sibling before it. -/
def visits : List Event → List (Option Node × Node)
  | [] => []
  | row _ :: evs => visits evs
  | visit v :: evs => v :: visits evs

/-- Why nothing more is rendered, if so. -/
def offence? : Event → Option RenderError
  | visit v => v.2.offence? v.1
  | row _ => none

@[simp] theorem rows_append (evs evs' : List Event) :
    rows (evs ++ evs') = rows evs ++ rows evs' := by
  fun_induction rows evs with
  | case1 => rfl
  | case2 r evs ih => rw [List.cons_append, rows, ih, List.cons_append]
  | case3 v evs ih => rw [List.cons_append, rows, ih]

@[simp] theorem visits_append (evs evs' : List Event) :
    visits (evs ++ evs') = visits evs ++ visits evs' := by
  fun_induction visits evs with
  | case1 => rfl
  | case2 r evs ih => rw [List.cons_append, visits, ih]
  | case3 v evs ih => rw [List.cons_append, visits, ih, List.cons_append]

@[simp] theorem rows_map_visit (vs : List (Option Node × Node)) : rows (vs.map visit) = [] := by
  induction vs with
  | nil => rfl
  | cons v vs ih => rw [List.map_cons, rows, ih]

@[simp] theorem visits_map_visit (vs : List (Option Node × Node)) : visits (vs.map visit) = vs := by
  induction vs with
  | nil => rfl
  | cons v vs ih => rw [List.map_cons, visits, ih]

theorem findSome?_offence? (evs : List Event) :
    evs.findSome? offence? = (visits evs).findSome? fun v => v.2.offence? v.1 := by
  fun_induction visits evs with
  | case1 => rfl
  | case2 r evs ih => rw [List.findSome?_cons, offence?, ih]
  | case3 v evs ih => rw [List.findSome?_cons, List.findSome?_cons, offence?, ih]

end Event

namespace Node

mutual

/-- The tour of a node at the given level, after the sibling `prev`. The events `branch` are those
    of the else that belongs to the node, if it is a block that has one. -/
def tour (style : BindingStyle) (level : Nat) (prev : Option Node) (branch : List Event) :
    Node → List Event
  | element r el [] =>
    [.visit (prev, element r el []),
      .row ⟨level, el.openTag style ++ el.content.template ++ el.closeTag⟩]
  | element r el (c :: cs) =>
    [.visit (prev, element r el (c :: cs)), .row ⟨level, el.openTag style⟩] ++
      (if el.content.isHollow then [] else [.row ⟨level + 1, el.content.template⟩]) ++
      tourAll style (level + 1) none (c :: cs) ++ [.row ⟨level, el.closeTag⟩]
  | text r span => [.visit (prev, text r span), .row ⟨level, span.template⟩]
  | expression r value => [.visit (prev, expression r value), .row ⟨level, mustache value⟩]
  | block r b cs =>
    [.visit (prev, block r b cs),
      .row ⟨level, mustache ("#" ++ b.keyword.name ++ " " ++ b.argument)⟩] ++
      tourAll style (level + 1) none cs ++ branch ++
      [.row ⟨level, mustache ("/" ++ b.keyword.name)⟩]
  | document r cs => .visit (prev, document r cs) :: (visitsAll none cs).map .visit
  | absent => [.visit (prev, absent)]

/-- The tour of siblings at the given level, where the node `prev` comes before them. An else right
    after a node that takes it is toured with that node. -/
def tourAll (style : BindingStyle) (level : Nat) (prev : Option Node) : List Node → List Event
  | [] => []
  | n :: block r e es :: ns =>
    if n.takesElse ∧ e.keyword = .elseWord then
      tour style level prev (.visit (some n, block r e es) :: .row ⟨level, mustache "else"⟩ ::
        tourAll style (level + 1) none es) n ++ tourAll style level (some (block r e es)) ns
    else tour style level prev [] n ++ tourAll style level (some n) (block r e es :: ns)
  | n :: ns => tour style level prev [] n ++ tourAll style level (some n) ns

end

/-- The first of the siblings is no else, if the node before them takes one. -/
def NoElseFor (takes : Bool) (ns : List Node) : Prop := takes → ∀ m ∈ ns.head?, m.isElse = false

theorem noElseFor_false (ns : List Node) : NoElseFor false ns := nofun

theorem exists_of_not_noElseFor {takes : Bool} {ns : List Node} (h : ¬NoElseFor takes ns) :
    takes ∧ ∃ r e es ns', ns = .block r e es :: ns' ∧ e.keyword = .elseWord := by
  obtain ⟨htakes, h⟩ := Classical.not_imp.1 h
  refine ⟨htakes, ?_⟩
  cases ns with
  | nil => exact absurd nofun h
  | cons m ns =>
    have he : m.isElse := by simpa using h
    cases m with
    | block r e es => exact ⟨r, e, es, ns, rfl, by simpa [isElse] using he⟩
    | _ => cases he

theorem sizeOf_children_le (n : Node) : sizeOf n.children ≤ sizeOf n := by
  cases n <;> simp [children] <;> omega

/-- Siblings are taken one by one, and an else together with the node that takes it, each with what
    is nested in it. -/
@[elab_as_elim]
theorem siblings_induct {motive : List Node → Prop} (nil : motive [])
    (taken : ∀ n r e es ns, n.takesElse → e.keyword = .elseWord → motive n.children → motive es →
      motive ns → motive (n :: block r e es :: ns))
    (cons : ∀ n ns, NoElseFor n.takesElse ns → motive n.children → motive ns → motive (n :: ns)) :
    ∀ ns, motive ns
  | [] => nil
  | n :: ns => by
    -- What is nested in an else comes in one step with the node before it, so the size of the
    -- list decreases and not its length.
    have hchildren := n.sizeOf_children_le
    by_cases h : NoElseFor n.takesElse ns
    · exact cons n ns h (siblings_induct nil taken cons n.children)
        (siblings_induct nil taken cons ns)
    · obtain ⟨htakes, r, e, es, ns, rfl, he⟩ := exists_of_not_noElseFor h
      exact taken n r e es ns htakes he (siblings_induct nil taken cons n.children)
        (siblings_induct nil taken cons es) (siblings_induct nil taken cons ns)
termination_by ns => sizeOf ns

section

variable {style : BindingStyle} {level : Nat} {n : Node} {ns : List Node}

theorem NoElseFor.not_takes {r : Range} {e : Block} {es : List Node}
    (h : NoElseFor n.takesElse (block r e es :: ns)) : ¬(n.takesElse ∧ e.keyword = .elseWord) := by
  rintro ⟨htakes, he⟩
  have := h htakes _ rfl
  simp [isElse, he] at this

/-- A node that takes no else is rendered before its siblings. -/
theorem linesAll_cons (h : NoElseFor n.takesElse ns) :
    linesAll style level (n :: ns) = lines style level [] n ++ linesAll style level ns := by
  cases ns with
  | nil => simp [linesAll]
  | cons m ns =>
    cases m with
    | block r e es => rw [linesAll, if_neg h.not_takes]
    | _ =>
      rw [linesAll]
      simp

theorem tourAll_cons (h : NoElseFor n.takesElse ns) (prev : Option Node) :
    tourAll style level prev (n :: ns) =
      tour style level prev [] n ++ tourAll style level (some n) ns := by
  cases ns with
  | nil => simp [tourAll]
  | cons m ns =>
    cases m with
    | block r e es => rw [tourAll, if_neg h.not_takes]
    | _ =>
      rw [tourAll]
      simp

/-- A tour starts with a visit of the node. -/
theorem exists_tour_eq (style : BindingStyle) (level : Nat) (prev : Option Node)
    (branch : List Event) (n : Node) :
    ∃ evs, tour style level prev branch n = .visit (prev, n) :: evs := by
  cases n with
  | element r el cs => cases cs <;> exact ⟨_, rfl⟩
  | _ => exact ⟨_, rfl⟩

end

variable {style : BindingStyle} {n : Node}

/-- The rows on the tour of a node are the rows of the node, if this holds of what is nested in
    it. -/
theorem rows_tour (hcs : ∀ level prev,
      Event.rows (tourAll style level prev n.children) = linesAll style level n.children)
    (level : Nat) (prev : Option Node) (branch : List Event) :
    Event.rows (tour style level prev branch n) = lines style level (Event.rows branch) n := by
  cases n with
  | element r el cs =>
    cases cs with
    | nil => rfl
    | cons c cs =>
      rw [children] at hcs
      rw [tour, lines, ← hcs (level + 1) none]
      split_ifs <;> simp [Event.rows]
  | block r b cs =>
    rw [children] at hcs
    rw [tour, lines, ← hcs (level + 1) none]
    simp [Event.rows]
  | document r cs => simp [tour, lines, Event.rows]
  | _ => rfl

theorem rows_tourAll (level : Nat) (prev : Option Node) (ns : List Node) :
    Event.rows (tourAll style level prev ns) = linesAll style level ns := by
  induction ns using siblings_induct generalizing level prev with
  | nil => rfl
  | taken n r e es ns htakes he hcs hes hns =>
    rw [tourAll, linesAll, if_pos ⟨htakes, he⟩, if_pos ⟨htakes, he⟩, Event.rows_append,
      rows_tour hcs, hns, ← hes (level + 1) none]
    rfl
  | cons n ns h hcs hns =>
    rw [tourAll_cons h, linesAll_cons h, Event.rows_append, rows_tour hcs, hns]
    rfl

/-- The visits on the tour of a node are the visits of the node, if this holds of what is nested in
    it, and then those of its else. -/
theorem visits_tour (hcs : ∀ level prev,
      Event.visits (tourAll style level prev n.children) = visitsAll prev n.children)
    (level : Nat) (prev : Option Node) {branch : List Event}
    (hbranch : n.takesElse = false → branch = []) :
    Event.visits (tour style level prev branch n) = visits prev n ++ Event.visits branch := by
  cases n with
  | element r el cs =>
    rw [hbranch rfl]
    cases cs with
    | nil => rfl
    | cons c cs =>
      rw [children] at hcs
      rw [tour, visits, ← hcs (level + 1) none]
      split_ifs <;> simp [Event.visits]
  | block r b cs =>
    rw [children] at hcs
    rw [tour, visits, ← hcs (level + 1) none]
    simp [Event.visits]
  | document r cs => simp [hbranch rfl, tour, visits, Event.visits]
  | _ =>
    rw [hbranch rfl]
    rfl

theorem visits_tourAll (level : Nat) (prev : Option Node) (ns : List Node) :
    Event.visits (tourAll style level prev ns) = visitsAll prev ns := by
  induction ns using siblings_induct generalizing level prev with
  | nil => rfl
  | taken n r e es ns htakes he hcs hes hns =>
    have hbranch : n.takesElse = false → Event.visit (some n, block r e es) ::
        .row ⟨level, mustache "else"⟩ :: tourAll style (level + 1) none es = [] := by simp [htakes]
    rw [tourAll, visitsAll, visitsAll, visits, if_pos ⟨htakes, he⟩, Event.visits_append,
      visits_tour hcs level prev hbranch, hns, ← hes (level + 1) none]
    simp [Event.visits]
  | cons n ns h hcs hns =>
    rw [tourAll_cons h, visitsAll, Event.visits_append, visits_tour hcs level prev fun _ => rfl,
      hns, Event.visits, List.append_nil]

end Node

/-! ## Tours that are cut off -/

namespace Rendering

/-- The rows before the first event with which the rendering stops, and why it does. -/
def ofEvents (evs : List Event) : Rendering :=
  ⟨Event.rows (evs.takeWhile fun ev => ev.offence?.isNone), evs.findSome? Event.offence?⟩

theorem ofEvents_row (r : Row) (evs : List Event) :
    ofEvents (.row r :: evs) = row r.level r.text ++ ofEvents evs := rfl

theorem ofEvents_visit {v : Option Node × Node} (h : v.2.offence? v.1 = none) (evs : List Event) :
    ofEvents (.visit v :: evs) = ofEvents evs := by
  rw [ofEvents, List.takeWhile_cons, List.findSome?_cons, Event.offence?, h]
  rfl

theorem ofEvents_offence {v : Option Node × Node} {e : RenderError}
    (h : v.2.offence? v.1 = some e) (evs : List Event) : ofEvents (.visit v :: evs) = fail e := by
  rw [ofEvents, List.takeWhile_cons, List.findSome?_cons, Event.offence?, h]
  rfl

theorem ofEvents_content (level : Nat) (content : Span) :
    ofEvents (if content.isHollow then [] else [.row ⟨level, content.template⟩]) =
      if content.isHollow then empty else row level content.template := by
  split_ifs <;> rfl

@[simp] theorem ofEvents_append (evs evs' : List Event) :
    ofEvents (evs ++ evs') = ofEvents evs ++ ofEvents evs' := by
  induction evs with
  | nil => rfl
  | cons ev evs ih =>
    rw [List.cons_append]
    cases ev with
    | row r => rw [ofEvents_row, ofEvents_row, ih, append_assoc]
    | visit v =>
      cases h : v.2.offence? v.1 with
      | none => rw [ofEvents_visit h, ofEvents_visit h, ih]
      | some e => rw [ofEvents_offence h, ofEvents_offence h, fail_append]

end Rendering

namespace Node

variable {style : BindingStyle}

theorem offence?_of_orphan {prev : Option Node} {n : Node} (he : n.isElse)
    (hprev : prev.any takesElse = false) : n.offence? prev = some (.orphanElse n.range) := by
  cases n with
  | block r b cs => exact if_pos ⟨by simpa [isElse] using he, by simp [hprev]⟩
  | _ => cases he

/-- The tour of a node that is no else comes across what the node is rendered to, the branch that it
    may have, and the row that closes it, if what is nested in the node is rendered as its tour
    says. -/
theorem ofEvents_tour {level : Nat} {prev : Option Node} {branch : List Event} {n : Node}
    (hcs : ∀ level, renderAll style level none n.children =
      Rendering.ofEvents (tourAll style level none n.children))
    (he : n.isElse = false) (hbranch : n.opened = none → branch = []) :
    Rendering.ofEvents (tour style level prev branch n) =
      n.render style level ++ (Rendering.ofEvents branch ++ closeBlock level n.opened) := by
  cases n with
  | element r el cs =>
    rw [hbranch rfl]
    cases cs with
    | nil => rfl
    | cons c cs =>
      rw [children] at hcs
      rw [tour, render, hcs, Rendering.ofEvents_append, Rendering.ofEvents_append,
        Rendering.ofEvents_append, Rendering.ofEvents_content]
      exact (Rendering.append_empty _).symm
  | block r b cs =>
    have hvisit : offence? prev (block r b cs) = none :=
      offence?_eq_none_iff.2 ⟨rfl, fun h => absurd (he.symm.trans h) Bool.false_ne_true⟩
    have hopening : b.opening = mustache ("#" ++ b.keyword.name ++ " " ++ b.argument) :=
      if_neg (by simpa [isElse] using he)
    rw [children] at hcs
    rw [tour, render, hcs, hopening, Rendering.ofEvents_append, Rendering.ofEvents_append,
      Rendering.ofEvents_append, Rendering.ofEvents_visit hvisit, Rendering.append_assoc]
    rfl
  | _ =>
    rw [hbranch rfl]
    rfl

/-- The tour of siblings of which the first is an else that belongs to nothing. -/
theorem ofEvents_orphan {level : Nat} {prev : Option Node} {n : Node} (ns : List Node)
    (he : n.isElse) (hprev : prev.any takesElse = false) :
    Rendering.ofEvents (tourAll style level prev (n :: ns)) = .fail (.orphanElse n.range) := by
  obtain ⟨evs, hevs⟩ := exists_tour_eq style level prev [] n
  rw [tourAll_cons (by rw [takesElse_of_isElse he]; exact noElseFor_false ns), hevs,
    List.cons_append, Rendering.ofEvents_offence (offence?_of_orphan he hprev)]

/-- Siblings are rendered as their tour says, after the block before them is closed, which does not
    take the first of them. -/
theorem renderAll_eq_ofEvents {level : Nat} {last : Option Block} {prev : Option Node}
    (hlast : last.any (·.keyword.takesElse) = prev.any takesElse) {ns : List Node}
    (hns : NoElseFor (prev.any takesElse) ns) :
    renderAll style level last ns =
      closeBlock level last ++ Rendering.ofEvents (tourAll style level prev ns) := by
  induction ns using siblings_induct generalizing level last prev with
  | nil => exact (Rendering.append_empty _).symm
  | taken n r e es ns htakes hels ihcs ihes ihns =>
    -- The block is left open, and the else that comes next is rendered before it is closed.
    have he : n.isElse = false :=
      Bool.eq_false_iff.2 fun h => by simp [takesElse_of_isElse h] at htakes
    have he' : isElse (.block r e es) := by simpa [isElse] using hels
    have htakes' : takesElse (.block r e es) = false := takesElse_of_isElse he'
    have hlast' : n.opened.any (·.keyword.takesElse) := (any_opened n).trans htakes
    have hopened : n.opened ≠ none := fun hnone => by simp [hnone] at hlast'
    have hcs := fun level => @ihcs level none none rfl (noElseFor_false _)
    have hes := @ihes (level + 1) none none rfl (noElseFor_false es)
    have hns := @ihns level none (some (.block r e es)) htakes'.symm
      (by rw [Option.any_some, htakes']; exact noElseFor_false ns)
    have hbranch : render style level (.block r e es) = Rendering.ofEvents
        (.visit (some n, .block r e es) :: .row ⟨level, mustache "else"⟩ ::
          tourAll style (level + 1) none es) := by
      have hvisit : offence? (some n) (.block r e es) = none :=
        offence?_eq_none_iff.2 ⟨rfl, fun _ => htakes⟩
      rw [render, hes, Rendering.closeBlock_none_append, Block.opening, if_pos hels,
        Rendering.ofEvents_visit hvisit, Rendering.ofEvents_row]
    rw [renderAll, he, if_neg Bool.false_ne_true, renderAll, if_pos he', if_pos hlast', hbranch,
      hns, Rendering.closeBlock_none_append, tourAll, if_pos ⟨htakes, hels⟩,
      Rendering.ofEvents_append, ofEvents_tour hcs he fun hnone => absurd hnone hopened]
    simp only [Rendering.append_assoc]
  | cons n ns h ihcs ihns =>
    cases he : n.isElse with
    | true =>
      -- No node before the else takes it, so that nothing comes after the closed block.
      have hprev : prev.any takesElse = false :=
        Bool.eq_false_iff.2 fun htakes => absurd (he.symm.trans (hns htakes n rfl)) (by decide)
      rw [renderAll, if_pos he, hlast, hprev, if_neg Bool.false_ne_true,
        ofEvents_orphan ns he hprev]
    | false =>
      have hcs := fun level => @ihcs level none none rfl (noElseFor_false _)
      have hns := @ihns level n.opened (some n) (any_opened n) h
      rw [renderAll, he, if_neg Bool.false_ne_true, hns, tourAll_cons h, Rendering.ofEvents_append,
        ofEvents_tour hcs he fun _ => rfl]
      simp only [Rendering.append_assoc]
      rfl

/-- Siblings that cannot be rendered are reported at the first offence in one of them. -/
theorem error_renderAll (style : BindingStyle) (level : Nat) (ns : List Node) :
    (renderAll style level none ns).error =
      (visitsAll none ns).findSome? fun v => v.2.offence? v.1 := by
  rw [@renderAll_eq_ofEvents style level none none rfl ns nofun, Rendering.closeBlock_none_append,
    ← @visits_tourAll style level none ns, ← Event.findSome?_offence?]
  rfl

/-- A node can be rendered if it is of the right kind and what is nested in it can be rendered. -/
theorem error_render_eq_none_iff (style : BindingStyle) (level : Nat) (n : Node) :
    (n.render style level).error = none ↔
      n.isMarkup ∧ (renderAll style 0 none n.children).error = none := by
  have hlevel : ∀ ns, (renderAll style (level + 1) none ns).error =
      (renderAll style 0 none ns).error := fun ns => by
    rw [error_renderAll, error_renderAll]
  cases n with
  | element r el cs =>
    rw [children, ← hlevel]
    cases cs with
    | nil => simp [render, renderAll, isMarkup]
    | cons c cs =>
      rw [render]
      split_ifs <;> simp [isMarkup]
  | block r b cs => simp [render, isMarkup, children, hlevel]
  | text | expression => simp [render, renderAll, isMarkup, children]
  | document | absent => simp [render, isMarkup]

end Node

namespace Document

/-- The rows of a document. -/
def lines (style : BindingStyle) (d : Document) : List Row := Node.linesAll style 0 d.children

/-- The nodes of a document in the order in which they are rendered, each with the sibling before
    it. -/
def visits (d : Document) : List (Option Node × Node) := Node.visitsAll none d.children

/-- All nodes are elements, texts, expressions or blocks, and every else comes right after an if or
    unless. -/
def IsRenderable (d : Document) : Prop :=
  ∀ v ∈ d.visits, v.2.isMarkup ∧ (v.2.isElse → ∃ r b cs, v.1 = some (.block r b cs) ∧
    (b.keyword = .ifWord ∨ b.keyword = .unlessWord))

theorem isRenderable_iff (d : Document) :
    d.IsRenderable ↔ (d.visits.findSome? fun v => v.2.offence? v.1) = none := by
  rw [List.findSome?_eq_none_iff]
  simp only [Node.offence?_eq_none_iff, Node.any_takesElse_iff]
  rfl

/-- The tour of a document. -/
def tour (style : BindingStyle) (d : Document) : List Event := Node.tourAll style 0 none d.children

theorem rows_tour (style : BindingStyle) (d : Document) :
    Event.rows (d.tour style) = d.lines style :=
  Node.rows_tourAll 0 none d.children

theorem visits_tour (style : BindingStyle) (d : Document) :
    Event.visits (d.tour style) = d.visits :=
  Node.visits_tourAll 0 none d.children

/-- A document is rendered as its tour says, which is cut off at the first offence. -/
theorem render_eq_ofEvents (style : BindingStyle) (d : Document) :
    d.render style = .ofEvents (d.tour style) :=
  @Node.renderAll_eq_ofEvents style 0 none none rfl d.children nofun

theorem render_error (style : BindingStyle) (d : Document) :
    (d.render style).error = d.visits.findSome? fun v => v.2.offence? v.1 :=
  Node.error_renderAll style 0 d.children

/-- A document that can be rendered is rendered as its rows. -/
theorem rows_render {style : BindingStyle} {d : Document} (h : (d.render style).error = none) :
    (d.render style).rows = d.lines style := by
  rw [render_eq_ofEvents] at h ⊢
  rw [← rows_tour, Rendering.ofEvents, List.takeWhile_eq_self_iff.2]
  intro ev hev
  exact Option.isNone_iff_eq_none.2 (List.findSome?_eq_none_iff.1 h ev hev)

end Document

end IndentMarkup
