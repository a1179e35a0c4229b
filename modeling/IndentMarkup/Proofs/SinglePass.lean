import IndentMarkup.Proofs.Compile
import IndentMarkup.Proofs.OneLine

/-!
# Templates in a single pass

A template can be written in one pass over the lines of a source, without building a tree
(`pass`). A line gives one row, and may leave a row to be written later, which closes its node.
The rows that are left are written before the next line that is not nested in their nodes,
innermost first. Only an else holds back the row that closes the block before it, which is left
for after the else branch.

The pass writes what the tree of the lines is rendered to (`Nesting.pass_eq`). While it goes
through the lines nested in a node, the rows that are left from outside belong to shallower nodes,
so none of them is due, and they are taken up again after these lines. A template is thus the rows
of the pass, none of which is empty or goes over more than one line (`compile_eq_pass`).
-/

namespace IndentMarkup

namespace Node

/-- The node that a text denotes, wherever it stands, and no node at all if something is wrong
    with the text. -/
def read (t : Bytes) : Node := (ofText default t).toOption.getD .absent

/-- The row that a line gives, where `nested` says whether anything is nested in its node. An
    element is closed on the same row if nothing is. -/
def rowText (style : BindingStyle) (nested : Bool) : Node → Bytes
  | element _ el _ =>
    if nested then el.openTag style
    else el.openTag style ++ el.content.template ++ ("</" ++ el.tag ++ ">")
  | text _ span => span.template
  | expression _ value => mustache value
  | block _ b _ =>
    if b.keyword = .elseWord then mustache "else"
    else mustache ("#" ++ b.keyword.name ++ " " ++ b.argument)
  | document _ _ | absent => []

/-- The row that closes a node at the given level, which is left to be written after what is
    nested in it. There is none for a node that is closed on its own row, nor for an else. -/
def closingRows (level : Nat) (nested : Bool) : Node → List Row
  | element _ el _ => if nested then [⟨level, "</" ++ el.tag ++ ">"⟩] else []
  | block _ b _ =>
    if b.keyword = .elseWord then [] else [⟨level, mustache ("/" ++ b.keyword.name)⟩]
  | _ => []

end Node

/-- Whether a row that closes a node is due before a line at depth `d` with the text `t`. The
    line is not nested in the node if it is not deeper, and an else at the same depth is a
    further branch of it. -/
def Row.isDue (r : Row) (d : Nat) (t : Bytes) : Bool :=
  if (Node.read t).isElse then d < r.level else d ≤ r.level

/-- The rows of the lines at the given depths and with the given texts, where the rows `pending`
    are left from the lines before, the innermost first. -/
def pass (style : BindingStyle) (pending : List Row) : List (Nat × Bytes) → List Row
  | [] => pending
  | (d, t) :: rest =>
    let nested := rest.head?.any (d < ·.1)
    let left := (Node.read t).closingRows d nested ++ pending.dropWhile (·.isDue d t)
    pending.takeWhile (·.isDue d t) ++ ⟨d, (Node.read t).rowText style nested⟩ ::
      pass style left rest

/-! ## Texts wherever they stand -/

namespace Node

/-- The node at another range. -/
def place (r : Range) : Node → Node
  | element _ el cs => element r el cs
  | text _ s => text r s
  | expression _ v => expression r v
  | block _ b cs => block r b cs
  | document _ cs => document r cs
  | absent => absent

@[simp] theorem isElse_place (r : Range) (n : Node) : (n.place r).isElse = n.isElse := by
  cases n <;> rfl

@[simp] theorem rowText_place (r : Range) (n : Node) (style : BindingStyle) (nested : Bool) :
    (n.place r).rowText style nested = n.rowText style nested := by
  cases n <;> rfl

@[simp] theorem closingRows_place (r : Range) (n : Node) (level : Nat) (nested : Bool) :
    (n.place r).closingRows level nested = n.closingRows level nested := by
  cases n <;> rfl

theorem ofText_eq_map (r r' : Range) (t : Bytes) : ofText r t = (ofText r' t).map (place r) := by
  unfold ofText
  split_ifs
  · cases Block.parse t <;> rfl
  · cases parseExpression t <;> rfl
  · cases Element.parse t <;> rfl
  · cases Span.parse t <;> rfl

/-- A node at a range is what its text denotes anywhere. -/
theorem place_read {r : Range} {t : Bytes} {n : Node} (h : ofText r t = .ok n) :
    (read t).place r = n := by
  rw [ofText_eq_map r default] at h
  rw [read]
  cases hd : ofText default t with
  | error f =>
    rw [hd] at h
    cases h
  | ok m =>
    rw [hd] at h
    cases h
    rfl

end Node

/-! ## Rows that are left -/

section

variable {style : BindingStyle} {rs pending : List Row} {d : Nat} {t : Bytes}
  {rest : List (Nat × Bytes)}

/-- Rows that are due are written at once. -/
theorem pass_flush (h : ∀ r ∈ rs, ∀ x ∈ rest.head?, r.isDue x.1 x.2) :
    pass style (rs ++ pending) rest = rs ++ pass style pending rest := by
  cases rest with
  | nil => rfl
  | cons x rest =>
    obtain ⟨d, t⟩ := x
    have hdue : ∀ r ∈ rs, r.isDue d t := fun r hr => h r hr (d, t) rfl
    simp only [pass, List.takeWhile_append_of_pos hdue, List.dropWhile_append_of_pos hdue,
      List.append_assoc]

/-- Rows that are not due are left. -/
theorem pass_hold (h : ∀ r ∈ pending, r.isDue d t = false) :
    pass style pending ((d, t) :: rest) =
      ⟨d, (Node.read t).rowText style (rest.head?.any (d < ·.1))⟩ ::
        pass style ((Node.read t).closingRows d (rest.head?.any (d < ·.1)) ++ pending) rest := by
  cases pending with
  | nil => rfl
  | cons r pending =>
    have hr := h r List.mem_cons_self
    simp only [pass, List.takeWhile_cons, List.dropWhile_cons, hr, Bool.false_eq_true, if_false,
      List.nil_append]

end

namespace Row

variable {r : Row} {d : Nat} {t : Bytes}

theorem isDue_of_lt (h : d < r.level) : r.isDue d t := by
  rw [isDue]
  split_ifs <;> simp <;> omega

theorem isDue_of_eq (h : r.level = d) : r.isDue d t = !(Node.read t).isElse := by
  rw [isDue, h]
  cases (Node.read t).isElse <;> simp

theorem not_isDue_of_lt (h : r.level < d) : r.isDue d t = false := by
  rw [isDue]
  split_ifs <;> simp <;> omega

end Row

/-! ## Rows of nodes -/

theorem level_of_closeBlock {level : Nat} {last : Option Block} {r : Row}
    (h : r ∈ (closeBlock level last).rows) : r.level = level := by
  cases last with
  | none => cases h
  | some b => rw [List.mem_singleton.1 h]

namespace Node

theorem level_of_closingRows {n : Node} {level : Nat} {nested : Bool} {r : Row}
    (h : r ∈ n.closingRows level nested) : r.level = level := by
  unfold closingRows at h
  split at h
  · split_ifs at h
    · rw [List.mem_singleton.1 h]
    · cases h
  · split_ifs at h
    · cases h
    · rw [List.mem_singleton.1 h]
  · cases h

variable {style : BindingStyle} {level : Nat} {last : Option Block} {n : Node} {cs ns : List Node}

/-- A node that is no else closes the block before it. -/
theorem rows_renderAll_cons (he : n.isElse = false) (hn : (n.render style level).error = none) :
    (renderAll style level last (n :: ns)).rows =
      (closeBlock level last).rows ++ ((n.render style level).rows ++
        (renderAll style level n.opened ns).rows) := by
  rw [renderAll, he, if_neg Bool.false_ne_true, Rendering.rows_append (by simp [hn]),
    Rendering.rows_append (by simp), List.append_assoc]

/-- The block before an else is closed after it. -/
theorem rows_renderAll_else (he : n.isElse) (hlast : last.any (·.keyword.takesElse))
    (hn : (n.render style level).error = none) :
    (renderAll style level last (n :: ns)).rows =
      (n.render style level).rows ++ ((closeBlock level last).rows ++
        (renderAll style level none ns).rows) := by
  rw [renderAll, if_pos he, if_pos hlast, Rendering.rows_append (by simp [hn]),
    Rendering.rows_append hn, List.append_assoc]

/-- A block is rendered as its own row and what is nested in it. -/
theorem rows_render_block {b : Block} (hb : n.opened = some b) (nested : Bool) :
    ((n.withChildren cs).render style level).rows =
      ⟨level, n.rowText style nested⟩ :: (renderAll style (level + 1) none cs).rows := by
  cases n with
  | block r b' ds =>
    rw [withChildren, render, Rendering.rows_append rfl]
    rfl
  | _ => cases hb

theorem closingRows_block {b : Block} (hb : n.opened = some b) (nested : Bool) :
    n.closingRows level nested = if n.isElse then [] else (closeBlock level (some b)).rows := by
  cases n with
  | block r b' ds =>
    cases hb
    simp only [closingRows, isElse, decide_eq_true_eq]
    rfl
  | _ => cases hb

theorem rows_render_element (r : Range) {el : Element} (hel : el.content = []) (hcs : cs ≠ [])
    (he : (renderAll style (level + 1) none cs).error = none) :
    (render style level (.element r el cs)).rows =
      ⟨level, el.openTag style⟩ ::
        ((renderAll style (level + 1) none cs).rows ++ [⟨level, el.closeTag⟩]) := by
  obtain ⟨c, cs, rfl⟩ := List.exists_cons_of_ne_nil hcs
  have hhollow : el.content.isHollow := by
    rw [hel]
    rfl
  rw [render, if_pos hhollow, Rendering.rows_append (by simpa using he),
    Rendering.rows_append rfl, Rendering.rows_append rfl]
  rfl

end Node

/-! ## Nestings -/

/-- The depth and the text of a line, which is all that the single pass sees of it. -/
def Line.item (l : Line) : Nat × Bytes := (l.depth, l.text)

namespace Nesting

variable {style : BindingStyle} {k : Nat} {e : Bool} {ls : List Line} {ns : List Node}
  {rest : List (Nat × Bytes)}

/-- A node that leaves no block open is rendered as its own row, what is nested in it, and the
    row that closes it. -/
theorem rows_render_leaf {l : Line} {n : Node} (node : Node.ofLine l = .ok n)
    (admits : ls ≠ [] → Outline.refusal? n = none) (children : Nesting (k + 1) false ls ns)
    (hopened : n.opened = none) :
    ((n.withChildren ns).render style k).rows =
      ⟨k, n.rowText style (!ns.isEmpty)⟩ ::
        ((Node.renderAll style (k + 1) none ns).rows ++ n.closingRows k (!ns.isEmpty)) := by
  by_cases hls : ls = []
  · rw [children.nil_iff.1 hls]
    obtain ⟨b, _, rfl⟩ | ⟨_, _, rfl⟩ | ⟨_, _, rfl⟩ | ⟨_, _, rfl⟩ := Node.ofText_eq_ok node
    · cases hopened
    all_goals rfl
  · have hr := admits hls
    have hns : ns ≠ [] := fun h => hls (children.nil_iff.2 h)
    obtain ⟨b, _, rfl⟩ | ⟨_, _, rfl⟩ | ⟨el, _, rfl⟩ | ⟨_, _, rfl⟩ := Node.ofText_eq_ok node
    · cases hopened
    · cases hr
    · have hel : el.content = [] := by simpa [Outline.refusal?] using hr
      rw [Node.withChildren,
        Node.rows_render_element _ hel hns (children.renderAll_error style (k + 1) rfl)]
      simp only [Node.rowText, Node.closingRows, List.isEmpty_eq_false_iff.2 hns, Bool.not_false,
        if_true]
      rfl
    · cases hr

/-- What comes next, in a nesting or after it, is not deeper than the nesting, and an else at
    its depth only if the nesting may start with one. -/
theorem head_item (h : Nesting k e ls ns) (hrest : ∀ x ∈ rest.head?, x.1 < k) :
    ∀ x ∈ (ls.map Line.item ++ rest).head?,
      x.1 < k ∨ x.1 = k ∧ ((Node.read x.2).isElse → e) := by
  cases h with
  | nil => exact fun x hx => .inl (hrest x hx)
  | @cons k e l n inner rest' cs ns depth node leads admits children siblings =>
    intro x hx
    obtain rfl : l.item = x := by simpa using hx
    rw [← Node.place_read node, Node.isElse_place] at leads
    exact .inr ⟨depth, leads⟩

/-- A row that closes a node at the depth of a nesting is due, unless an else may come next. -/
theorem isDue_head_item (h : Nesting k false ls ns) (hrest : ∀ x ∈ rest.head?, x.1 < k) {r : Row}
    (hr : r.level = k) : ∀ x ∈ (ls.map Line.item ++ rest).head?, r.isDue x.1 x.2 := by
  intro x hx
  subst hr
  rcases h.head_item hrest x hx with hlt | ⟨heq, hels⟩
  · exact Row.isDue_of_lt hlt
  · rw [Row.isDue_of_eq heq.symm]
    simpa using hels

/-- The next line tells whether anything is nested in a line at depth `k`. -/
theorem any_head_item (h : Nesting (k + 1) e ls ns) (hrest : ∀ x ∈ rest.head?, x.1 < k + 1) :
    (ls.map Line.item ++ rest).head?.any (k < ·.1) = !ns.isEmpty := by
  cases h with
  | nil =>
    cases hx : rest.head? with
    | none => simp [hx]
    | some x => simpa [hx] using Nat.le_of_lt_succ (hrest x hx)
  | cons depth => simp [Line.item, depth]

/-- A line gives its row, then come the rows of what is nested in it, and the row that closes it
    is left. -/
theorem pass_line {l : Line} {n : Node} (depth : l.depth = k) (node : Node.ofLine l = .ok n)
    (children : Nesting (k + 1) false ls ns) (hrest : ∀ x ∈ rest.head?, x.1 < k + 1)
    (hchildren : ∀ p : List Row, (∀ r ∈ p, r.level < k + 1) →
      pass style p (ls.map Line.item ++ rest) =
        (Node.renderAll style (k + 1) none ns).rows ++ pass style p rest)
    {p : List Row} (hhold : ∀ r ∈ p, r.isDue k l.text = false) (hp : ∀ r ∈ p, r.level < k + 1) :
    pass style p (l.item :: (ls.map Line.item ++ rest)) =
      ⟨k, n.rowText style (!ns.isEmpty)⟩ :: ((Node.renderAll style (k + 1) none ns).rows ++
        pass style (n.closingRows k (!ns.isEmpty) ++ p) rest) := by
  rw [Line.item, depth, pass_hold hhold, children.any_head_item hrest, ← Node.place_read node,
    Node.rowText_place, Node.closingRows_place]
  refine congrArg _ (hchildren _ (List.forall_mem_append.2 ⟨fun r hr => ?_, hp⟩))
  rw [Node.level_of_closingRows hr]
  exact Nat.lt_succ_self k

/-- The pass writes the rows of a nesting, and goes on with the lines after it. -/
theorem pass_eq (h : Nesting k e ls ns) {last : Option Block} {pending : List Row}
    (hlast : last.any (·.keyword.takesElse) = e) (hpending : ∀ r ∈ pending, r.level < k)
    (hrest : ∀ x ∈ rest.head?, x.1 < k) :
    pass style ((closeBlock k last).rows ++ pending) (ls.map Line.item ++ rest) =
      (Node.renderAll style k last ns).rows ++ pass style pending rest := by
  induction h generalizing last pending rest with
  | nil => exact pass_flush fun r hr => nil.isDue_head_item hrest (level_of_closeBlock hr)
  | @cons k e l n inner rest' cs ns depth node leads admits children siblings ihc ihs =>
    have hn := ((cons depth node leads admits children siblings).render_error style).2 _
      List.mem_cons_self k
    have htail : ∀ x ∈ (rest'.map Line.item ++ rest).head?, x.1 < k + 1 := by
      intro x hx
      rcases siblings.head_item hrest x hx with hlt | ⟨heq, -⟩
      · exact Nat.lt_succ_of_lt hlt
      · exact Nat.lt_succ_of_le (Nat.le_of_eq heq)
    -- The line itself, with what is nested in it.
    have hline := fun {p} => pass_line (p := p) depth node children htail
      fun _ hp => @ihc _ none _ rfl hp htail
    -- Rows at this depth are due before the siblings, unless the node takes an else.
    have hsiblings : ∀ {rs : List Row}, n.takesElse = false → (∀ r ∈ rs, r.level = k) →
        pass style (rs ++ pending) (rest'.map Line.item ++ rest) =
          rs ++ ((Node.renderAll style k none ns).rows ++ pass style pending rest) := by
      intro rs htakes hrs
      rw [htakes] at siblings
      rw [pass_flush fun r hr => siblings.isDue_head_item hrest (hrs r hr)]
      exact congrArg _ (@ihs _ none _ htakes.symm hpending hrest)
    have hread : (Node.read l.text).isElse = n.isElse := by
      rw [← Node.place_read node, Node.isElse_place]
    have hhold : ∀ r ∈ pending, r.isDue k l.text = false := fun r hr =>
      Row.not_isDue_of_lt (hpending r hr)
    have hlevels : ∀ r ∈ pending, r.level < k + 1 := fun r hr => Nat.lt_succ_of_lt (hpending r hr)
    rw [List.map_append, List.append_assoc, List.map_cons, List.cons_append]
    cases hels : n.isElse with
    | true =>
      -- Nothing is due before an else, and the open block is closed after its branch.
      have hblock : ∀ r ∈ (closeBlock k last).rows, r.isDue k l.text = false := by
        intro r hr
        rw [Row.isDue_of_eq (level_of_closeBlock hr), hread, hels]
        rfl
      have hblock' : ∀ r ∈ (closeBlock k last).rows, r.level < k + 1 := by
        intro r hr
        rw [level_of_closeBlock hr]
        exact Nat.lt_succ_self k
      obtain ⟨b, hb⟩ := Option.isSome_iff_exists.1 (Node.isSome_opened_of_isElse hels)
      rw [hline (List.forall_mem_append.2 ⟨hblock, hhold⟩)
          (List.forall_mem_append.2 ⟨hblock', hlevels⟩),
        Node.closingRows_block hb, if_pos hels, List.nil_append,
        hsiblings (Node.takesElse_of_isElse hels) fun r hr => level_of_closeBlock hr,
        Node.rows_renderAll_else (by simpa using hels) (hlast.trans (leads hels)) hn,
        Node.rows_render_block hb (!cs.isEmpty)]
      simp only [List.cons_append, List.append_assoc]
    | false =>
      have hflush : ∀ r ∈ (closeBlock k last).rows, r.isDue l.item.1 l.item.2 := by
        intro r hr
        rw [Line.item, depth, Row.isDue_of_eq (level_of_closeBlock hr), hread, hels]
        rfl
      rw [pass_flush (by simpa using hflush), hline hhold hlevels,
        Node.rows_renderAll_cons (by simpa using hels) hn, Node.opened_withChildren]
      cases hopened : n.opened with
      | none =>
        -- The row that closes the node is written before its siblings.
        have htakes : n.takesElse = false := by
          rw [← Node.any_opened, hopened]
          rfl
        rw [hsiblings htakes fun r hr => Node.level_of_closingRows hr,
          rows_render_leaf node admits children hopened]
        simp only [List.cons_append, List.append_assoc]
      | some b =>
        -- The row that closes the block is left to the siblings, the first of which may be an else.
        rw [Node.closingRows_block hopened, hels, if_neg Bool.false_ne_true,
          ihs (by rw [← Node.any_opened, hopened]) hpending hrest,
          Node.rows_render_block hopened (!cs.isEmpty)]
        simp only [List.cons_append, List.append_assoc]

end Nesting

/-! ## What is on the rows -/

/-- There is something on the row, and all of it is on one line. -/
def Row.IsLine (r : Row) : Prop := r.text ≠ [] ∧ r.text.OneLine

theorem mustache_ne_nil (e : Bytes) : mustache e ≠ [] := List.cons_ne_nil _ _

namespace Node

variable {style : BindingStyle} {level : Nat} {nested : Bool} {r : Range} {t : Bytes} {n : Node}

theorem isLine_rowText (h : ofText r t = .ok n) (ht : t ≠ []) (hline : t.OneLine) :
    Row.IsLine ⟨level, n.rowText style nested⟩ := by
  obtain ⟨b, hb, rfl⟩ | ⟨v, hv, rfl⟩ | ⟨el, hel, rfl⟩ | ⟨s, hs, rfl⟩ := ofText_eq_ok h
  · refine ⟨?_, Block.oneLine_opening (Block.oneLine_of_parse hb hline)⟩
    change b.opening ≠ []
    rw [Block.opening]
    split_ifs <;> exact mustache_ne_nil _
  · exact ⟨mustache_ne_nil v, oneLine_mustache (oneLine_of_parseExpression hv hline)⟩
  · have hone := Element.oneLine_of_parse hel hline
    cases nested with
    | true => exact ⟨List.cons_ne_nil _ _, Element.oneLine_openTag style hone⟩
    | false =>
      have hopen := Bytes.oneLine_append.2 ⟨Element.oneLine_openTag style hone, hone.content⟩
      exact ⟨List.cons_ne_nil _ _,
        Bytes.oneLine_append.2 ⟨hopen, Element.oneLine_closeTag hone⟩⟩
  · refine ⟨fun h => ht ?_, Span.oneLine_of_parseFrom hs hline⟩
    rw [← Span.source_of_parseFrom hs]
    exact Span.template_eq_nil_iff.1 h

theorem isLine_of_closingRows (h : ofText r t = .ok n) (hline : t.OneLine) :
    ∀ row ∈ n.closingRows level nested, row.IsLine := by
  obtain ⟨b, hb, rfl⟩ | ⟨v, hv, rfl⟩ | ⟨el, hel, rfl⟩ | ⟨s, hs, rfl⟩ := ofText_eq_ok h
  · rw [closingRows]
    split_ifs
    · simp
    · have hone := Block.oneLine_of_parse hb hline
      exact List.forall_mem_singleton.2 ⟨mustache_ne_nil _, Block.oneLine_closing hone.1⟩
  · simp [closingRows]
  · rw [closingRows]
    split_ifs
    · have hone := Element.oneLine_of_parse hel hline
      exact List.forall_mem_singleton.2 ⟨List.cons_ne_nil _ _, Element.oneLine_closeTag hone⟩
    · simp
  · simp [closingRows]

end Node

/-- A row of the pass was left before it, or is the row of a line, or closes the node of a line. -/
theorem mem_pass {style : BindingStyle} {pending : List Row} {items : List (Nat × Bytes)} {r : Row}
    (h : r ∈ pass style pending items) :
    r ∈ pending ∨ ∃ x ∈ items, ∃ nested, r = ⟨x.1, (Node.read x.2).rowText style nested⟩ ∨
      r ∈ (Node.read x.2).closingRows x.1 nested := by
  induction items generalizing pending with
  | nil => exact .inl h
  | cons x items ih =>
    rcases List.mem_append.1 h with h | h
    · exact .inl ((List.takeWhile_sublist _).subset h)
    rcases List.mem_cons.1 h with h | h
    · exact .inr ⟨x, List.mem_cons_self, _, .inl h⟩
    rcases ih h with h | ⟨y, hy, hr⟩
    · rcases List.mem_append.1 h with h | h
      · exact .inr ⟨x, List.mem_cons_self, _, .inr h⟩
      · exact .inl ((List.dropWhile_sublist _).subset h)
    · exact .inr ⟨y, List.mem_cons_of_mem _ hy, hr⟩

theorem Nesting.isLine_of_pass {style : BindingStyle} {k : Nat} {e : Bool} {ls : List Line}
    {ns : List Node} (h : Nesting k e ls ns) (hls : ∀ l ∈ ls, l.text ≠ [] ∧ l.text.OneLine) :
    ∀ r ∈ pass style [] (ls.map Line.item), r.IsLine := by
  intro r hr
  rcases mem_pass hr with hr | ⟨x, hx, nested, hr⟩
  · cases hr
  obtain ⟨l, hl, rfl⟩ := List.mem_map.1 hx
  obtain ⟨n, hn⟩ := (h.of_mem l hl).2
  rw [← Node.rowText_place l.range, ← Node.closingRows_place l.range, Line.item,
    Node.place_read hn] at hr
  rcases hr with rfl | hr
  · exact Node.isLine_rowText hn (hls l hl).1 (hls l hl).2
  · exact Node.isLine_of_closingRows hn (hls l hl).2 r hr

namespace Row.IsLine

variable {r : Row}

theorem bytes_eq (h : r.IsLine) : r.bytes = Bytes.spaces (2 * r.level) ++ r.text := by
  rw [bytes, if_neg (by simpa using h.1)]

theorem oneLine_bytes (h : r.IsLine) : r.bytes ≠ [] ∧ r.bytes.OneLine := by
  have hspaces : Bytes.OneLine (Bytes.spaces (2 * r.level)) := fun hm => by
    cases List.eq_of_mem_replicate hm
  rw [h.bytes_eq]
  exact ⟨List.append_ne_nil_of_right_ne_nil _ h.1, Bytes.oneLine_append.2 ⟨hspaces, h.2⟩⟩

end Row.IsLine

/-- The rows of a document are those of the single pass, and nothing but whole lines. -/
theorem Document.rows_of_parse {file src : Bytes} {d : Document} (h : parse file src = .ok d)
    (style : BindingStyle) :
    ∃ lines, Line.split file src = .ok lines ∧
      (d.render style).rows = pass style [] ((Line.content lines).map Line.item) ∧
      ∀ r ∈ (d.render style).rows, r.IsLine := by
  obtain ⟨lines, hl, hn⟩ := nesting_of_parse h
  have hrows : pass style [] ((Line.content lines).map Line.item) = (d.render style).rows := by
    have hpass := @Nesting.pass_eq style _ _ _ _ [] hn none [] rfl (by simp) (by simp)
    rw [List.append_nil, List.append_nil, pass, List.append_nil] at hpass
    exact hpass
  refine ⟨lines, hl, hrows.symm, ?_⟩
  rw [← hrows]
  refine hn.isLine_of_pass fun l hmem => ⟨Line.text_ne_nil hmem, ?_⟩
  exact Line.oneLine_of_split hl l (List.mem_filter.1 hmem).1

/-- A template is written in a single pass over the lines that are not blank: it is the rows of
    the pass, each at two spaces for a level, with a line feed between each two of them. No row
    is empty or has a line feed in it, and there is none at the end. -/
theorem compile_eq_pass {opts : Options} {src out : Bytes} (h : compile opts src = .ok out) :
    ∃ style lines, Target.style opts.target = .ok style ∧ Line.split opts.file src = .ok lines ∧
      out = Bytes.join [Byte.lf] ((pass style [] ((Line.content lines).map Line.item)).map
        fun r => Bytes.spaces (2 * r.level) ++ r.text) ∧
      (∀ r ∈ pass style [] ((Line.content lines).map Line.item),
        r.text ≠ [] ∧ Byte.lf ∉ r.text) ∧
      out.getLast? ≠ some Byte.lf := by
  obtain ⟨style, d, hs, hd, rfl⟩ := compile_eq_ok h
  obtain ⟨lines, hl, hrows, hlines⟩ := Document.rows_of_parse hd style
  refine ⟨style, lines, hs, hl, ?_, ?_, ?_⟩
  · rw [Rendering.text, ← hrows]
    exact congrArg _ (List.map_congr_left fun r hr => (hlines r hr).bytes_eq)
  · rw [← hrows]
    exact hlines
  · exact Bytes.getLast?_join_ne (List.forall_mem_map.2 fun r hr => (hlines r hr).oneLine_bytes)

/-- The template for an element with two branches in it, and an expression after it. -/
theorem compile_eq_pass_branches :
    ∃ src out : Bytes, src = "%ul\n\t-if a\n\t\t%li x\n\t-else\n\t\ty\n= z" ∧
      out = Bytes.join [Byte.lf] ["<ul>", "  \x7b\x7b#if a\x7d\x7d", "    <li>x</li>",
        "  \x7b\x7belse\x7d\x7d", "    y", "  \x7b\x7b/if\x7d\x7d", "</ul>", "\x7b\x7bz\x7d\x7d"] ∧
      compile ⟨[], []⟩ src = .ok out ∧
      ∃ style lines, Target.style [] = .ok style ∧ Line.split [] src = .ok lines ∧
        out = Bytes.join [Byte.lf] ((pass style [] ((Line.content lines).map Line.item)).map
          fun r => Bytes.spaces (2 * r.level) ++ r.text) := by
  refine ⟨_, _, rfl, rfl, (and_iff_left_of_imp fun h => ?_).2 (toOption_eq_some_iff.1 ?_)⟩
  · obtain ⟨style, lines, hs, hl, hout, -, -⟩ := compile_eq_pass h
    exact ⟨style, lines, hs, hl, hout⟩
  · decide +kernel

end IndentMarkup
