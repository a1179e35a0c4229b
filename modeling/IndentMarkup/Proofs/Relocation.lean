import IndentMarkup.Proofs.Indentation
import IndentMarkup.Proofs.Rejection

/-!
# Sources with the same lines

What a source is compiled to depends on the depths and the texts of its lines that are not blank
(`Line.item`), and on nothing else. How the lines are indented and ended, where there are blanks
around them and how many blank lines stand between them is seen in positions only.

For a template that is how it is written in a single pass. For an error it holds of every fault
that a line can have: the fault is a problem at some columns of the line's text, and both follow
from the items of the line and of the lines before it (`Line.fault?_congr`). The same line is then
reported in both sources, at the same columns after its indentation (`compile_congr`).
-/

namespace IndentMarkup

/-! ## Nodes wherever they stand -/

namespace Node

@[simp] theorem takesElse_place (r : Range) (n : Node) : (n.place r).takesElse = n.takesElse := by
  cases n <;> rfl

@[simp] theorem refusal?_place (r : Range) (n : Node) :
    Outline.refusal? (n.place r) = Outline.refusal? n := by
  cases n <;> rfl

end Node

namespace Line

variable {l l' : Line} {before before' ls ls' : List Line}

/-- The node of a line is what its text denotes anywhere, whether or not it denotes a node. -/
theorem node_eq_place (l : Line) : l.node = (Node.read l.text).place l.range := by
  rw [node, Node.ofLine, Node.ofText_eq_map l.range default, Node.read]
  cases Node.ofText default l.text <;> rfl

theorem mem_of_content {lines : List Line} {i : Nat} (h : (content lines)[i]? = some l) :
    l ∈ lines :=
  (List.mem_filter.1 (List.mem_of_getElem? h)).1

/-! ## Faults -/

theorem map_item_parent? (before : List Line) (l : Line) :
    (l.parent? before).map item = (before.map item).reverse.find? (·.1 < l.depth) := by
  rw [← List.map_reverse, List.find?_map]
  rfl

theorem map_item_sibling? (before : List Line) (l : Line) :
    (l.sibling? before).map item =
      ((before.map item).reverse.takeWhile (l.depth ≤ ·.1)).find? (·.1 = l.depth) := by
  rw [← List.map_reverse, List.takeWhile_map, List.find?_map]
  rfl

theorem parentDepth_eq_map (before : List Line) (l : Line) :
    l.parentDepth before =
      (((l.parent? before).map item).map fun x => (x.1 : Int)).getD (-1) := by
  rw [Option.map_map]
  rfl

theorem textFault?_eq (l : Line) :
    l.textFault? =
      match Node.ofText default l.text with
      | .error f => some f
      | .ok _ => none := by
  rw [textFault?, Node.ofLine, Node.ofText_eq_map l.range default]
  cases Node.ofText default l.text <;> rfl

theorem parentFault?_eq_map (before : List Line) (l : Line) :
    l.parentFault? before =
      (((l.parent? before).map item).bind fun x => Outline.refusal? (Node.read x.2)).map
        fun p => ⟨0, l.text.length, p⟩ := by
  rw [parentFault?]
  cases l.parent? before with
  | none => rfl
  | some p =>
    rw [Option.map_some, Option.map_some, Option.bind_some, item, ← Node.refusal?_place p.range,
      ← node_eq_place]
    cases p.node with
    | element r el cs => cases hc : el.content <;> simp [Outline.refusal?, hc]
    | _ => rfl

theorem takesElse_sibling? (before : List Line) (l : Line) :
    (l.sibling? before).any (·.node.takesElse) =
      ((l.sibling? before).map item).any fun x => (Node.read x.2).takesElse := by
  simp only [node_eq_place, Node.takesElse_place, Option.any_map]
  rfl

/-- The fault of a line follows from its item and those of the lines before it. -/
theorem fault?_congr (hb : before.map item = before'.map item) (hl : l.item = l'.item) :
    l.fault? before = l'.fault? before' := by
  obtain ⟨hdepth, htext⟩ := Prod.mk.inj hl
  have hparent : (l.parent? before).map item = (l'.parent? before').map item := by
    rw [map_item_parent?, map_item_parent?, hb, hdepth]
  have hsibling : (l.sibling? before).map item = (l'.sibling? before').map item := by
    rw [map_item_sibling?, map_item_sibling?, hb, hdepth]
  have hlevel : l.levelFault? before = l'.levelFault? before' := by
    rw [levelFault?, levelFault?, parentDepth_eq_map, parentDepth_eq_map, hparent, hdepth]
  have hrefusal : l.parentFault? before = l'.parentFault? before' := by
    rw [parentFault?_eq_map, parentFault?_eq_map, hparent, htext]
  have hnode : l.textFault? = l'.textFault? := by
    rw [textFault?_eq, textFault?_eq, htext]
  have helse : l.elseFault? before = l'.elseFault? before' := by
    rw [elseFault?, elseFault?, takesElse_sibling?, takesElse_sibling?, hsibling, node_eq_place,
      node_eq_place, Node.isElse_place, Node.isElse_place, htext]
  rw [fault?, fault?, hlevel, hrefusal, hnode, helse]

/-- Of lines with the same items, the same ones are the first to have a fault, if any has. -/
theorem firstFault?_congr (hb : before.map item = before'.map item)
    (h : ls.map item = ls'.map item) :
    (firstFault? before ls = none ∧ firstFault? before' ls' = none) ∨
      ∃ (i : Nat) (l l' : Line) (f : Fault), ls[i]? = some l ∧ ls'[i]? = some l' ∧
        firstFault? before ls = some (l, f) ∧ firstFault? before' ls' = some (l', f) := by
  induction ls generalizing before before' ls' with
  | nil =>
    obtain rfl : ls' = [] := List.map_eq_nil_iff.1 h.symm
    exact .inl ⟨rfl, rfl⟩
  | cons m ls ih =>
    obtain ⟨m', ms', rfl, hm, hms⟩ := List.map_eq_cons_iff.1 h.symm
    rw [firstFault?, firstFault?, ← fault?_congr hb hm.symm]
    cases m.fault? before with
    | some f => exact .inr ⟨0, m, m', f, rfl, rfl, rfl, rfl⟩
    | none =>
      have hb' : (before ++ [m]).map item = (before' ++ [m']).map item := by
        rw [List.map_append, List.map_append, hb, List.map_singleton, List.map_singleton, hm]
      rcases ih hb' hms.symm with hnone | ⟨i, l, l', f, hl, hl', hf, hf'⟩
      · exact .inl hnone
      · exact .inr ⟨i + 1, l, l', f, hl, hl', hf, hf'⟩

end Line

/-! ## Templates and errors -/

/-- Sources whose lines that are not blank have the same depths and texts are compiled to the same
    template, or to errors that differ in positions only: they have the same kind, message and
    hint, and are about the same line, at the same columns after its indentation. -/
theorem compile_congr {opts : Options} {src src' : Bytes} {lines lines' : List Line}
    (hl : Line.split opts.file src = .ok lines) (hl' : Line.split opts.file src' = .ok lines')
    (h : (Line.content lines).map Line.item = (Line.content lines').map Line.item) :
    (∃ out, compile opts src = .ok out ∧ compile opts src' = .ok out) ∨
    (∃ e, compile opts src = .error (.target e) ∧ compile opts src' = .error (.target e)) ∨
    ∃ d d' : Diagnostic, compile opts src = .error (.source d) ∧
      compile opts src' = .error (.source d') ∧ d.kind = d'.kind ∧ d.hint = d'.hint ∧
      ∃ (i : Nat) (l l' : Line) (message : Bytes) (first last : Int),
        (Line.content lines)[i]? = some l ∧ (Line.content lines')[i]? = some l' ∧
        d.details = [⟨some (.onLine opts.file l.number (l.indent + first) (l.indent + last)),
          message, l.raw⟩] ∧
        d'.details = [⟨some (.onLine opts.file l'.number (l'.indent + first) (l'.indent + last)),
          message, l'.raw⟩] := by
  cases hs : Target.style opts.target with
  | error e => exact .inr (.inl ⟨e, compile_of_style_error hs src, compile_of_style_error hs src'⟩)
  | ok style =>
    have hp := Document.parse_of_split hl
    have hp' := Document.parse_of_split hl'
    rcases @Line.firstFault?_congr [] [] _ _ rfl h with
      ⟨hf, hf'⟩ | ⟨i, l, l', f, hi, hi', hf, hf'⟩
    · -- Both documents are the rows of the same pass.
      rw [hf] at hp
      rw [hf'] at hp'
      obtain ⟨d, hd⟩ := hp
      obtain ⟨d', hd'⟩ := hp'
      obtain ⟨ls, hls, hrows, -⟩ := Document.rows_of_parse hd style
      obtain ⟨ls', hls', hrows', -⟩ := Document.rows_of_parse hd' style
      cases hl.symm.trans hls
      cases hl'.symm.trans hls'
      have htext : (d'.render style).text = (d.render style).text := by
        rw [Rendering.text, Rendering.text, hrows, hrows', h]
      refine .inl ⟨(d.render style).text, compile_of_parse hs hd, ?_⟩
      rw [compile_of_parse hs hd', htext]
    · -- Both lines have the same fault, and it is reported relative to the text of its line.
      rw [hf] at hp
      rw [hf'] at hp'
      have hfile : l.file = opts.file := Line.file_of_placeAll hl l (Line.mem_of_content hi)
      have hfile' : l'.file = opts.file := Line.file_of_placeAll hl' l' (Line.mem_of_content hi')
      refine .inr (.inr ⟨_, _, compile_of_parse_error hs hp, compile_of_parse_error hs hp', rfl,
        rfl, i, l, l', f.problem.message, f.start + 1, f.shownStop + 1, hi, hi', ?_, ?_⟩)
      · rw [← Int.add_assoc, ← Int.add_assoc, ← hfile]
        rfl
      · rw [← Int.add_assoc, ← Int.add_assoc, ← hfile']
        rfl

/-- An else without its block, in a source indented by tabs and in one indented by spaces that has
    a blank line and other line ends. -/
theorem compile_congr_stray_else :
    ∃ (src src' : Bytes) (lines lines' : List Line) (d d' : Diagnostic),
      src = "%ul\n\t-each a\n\t-else" ∧ src' = "%ul\r\n\n    -each a \n    -else\t" ∧
      Line.split [] src = .ok lines ∧ Line.split [] src' = .ok lines' ∧
      (Line.content lines).map Line.item = (Line.content lines').map Line.item ∧
      compile ⟨[], []⟩ src = .error (.source d) ∧ compile ⟨[], []⟩ src' = .error (.source d') ∧
      d.pos = ⟨[], 3, 2⟩ ∧ d'.pos = ⟨[], 4, 5⟩ ∧
      d.kind = d'.kind ∧ d.hint = d'.hint ∧
      d.details.map Detail.message = d'.details.map Detail.message := by
  have hsplit : (Line.split [] "%ul\n\t-each a\n\t-else").toOption.map
      (fun ls => (Line.content ls).map Line.item) =
      some ([(0, "%ul"), (1, "-each a"), (1, "-else")] : List (Nat × Bytes)) := by decide +kernel
  have hsplit' : (Line.split [] "%ul\r\n\n    -each a \n    -else\t").toOption.map
      (fun ls => (Line.content ls).map Line.item) =
      some ([(0, "%ul"), (1, "-each a"), (1, "-else")] : List (Nat × Bytes)) := by decide +kernel
  obtain ⟨lines, hl, hitems⟩ := toOption_map_eq_some_iff.1 hsplit
  obtain ⟨lines', hl', hitems'⟩ := toOption_map_eq_some_iff.1 hsplit'
  have h := hitems.trans hitems'.symm
  have hrun : (match compile ⟨[], []⟩ "%ul\n\t-each a\n\t-else" with
      | .error (.source d) => some d.pos
      | _ => none) = some ⟨[], 3, 2⟩ := by decide +kernel
  have hrun' : (match compile ⟨[], []⟩ "%ul\r\n\n    -each a \n    -else\t" with
      | .error (.source d) => some d.pos
      | _ => none) = some ⟨[], 4, 5⟩ := by decide +kernel
  obtain ⟨out, ho, -⟩ | ⟨e, he, -⟩ |
      ⟨d, d', hd, hd', hkind, hhint, i, l, l', m, a, b, -, -, hm, hm'⟩ :=
    @compile_congr ⟨[], []⟩ _ _ lines lines' hl hl' h
  · rw [ho] at hrun
    cases hrun
  · rw [he] at hrun
    cases hrun
  · rw [hd] at hrun
    rw [hd'] at hrun'
    refine ⟨_, _, lines, lines', d, d', rfl, rfl, hl, hl', h, hd, hd', Option.some.inj hrun,
      Option.some.inj hrun', hkind, hhint, ?_⟩
    rw [hm, hm']
    rfl

end IndentMarkup
