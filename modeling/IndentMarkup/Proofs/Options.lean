import IndentMarkup.Proofs.Preorder
import IndentMarkup.Proofs.Relocation

/-!
# What the options change

A compilation depends on two options. The name of the source is seen in the positions of an error
and nowhere else: a source is cut into the same lines under another name
(`Line.placeAll_ok_inFile`), and the same line has a fault, so that a rejected source is rejected
with the same error, in the other file (`Document.parse_error_inFile`).

The target is seen in how bindings are written. All rows of a template that are not the opening tag
of an element with bindings are the same for all targets, and those that are differ in the text of
the bindings alone (`Row.SameBut`). As rows are written in a single pass over the lines, in which
the rows that are left to close a node do not depend on the target, the templates for two targets
are the same row by row (`forall₂_pass`).
-/

namespace IndentMarkup

/-! ## Other files -/

/-- The range in another file. -/
def Range.inFile (file : Bytes) (r : Range) : Range :=
  ⟨{ r.start with file }, { r.stop with file }⟩

/-- The diagnostic with all its positions in another file. -/
def Diagnostic.inFile (file : Bytes) (d : Diagnostic) : Diagnostic :=
  { d with details := d.details.map fun x => { x with range := x.range.map (Range.inFile file) } }

namespace Line

/-- The line in another file. -/
def inFile (file : Bytes) (l : Line) : Line := { l with file }

theorem content_map_inFile (file : Bytes) (ls : List Line) :
    content (ls.map (inFile file)) = (content ls).map (inFile file) := by
  rw [content, List.filter_map]
  rfl

variable {file src raw : Bytes} {unit unit' : Option IndentUnit} {number : Nat}
  {raws : List Bytes} {l : Line} {ls : List Line} {d : Diagnostic}

theorem place_ok_inFile (h : place file unit number raw = .ok (l, unit')) (file' : Bytes) :
    place file' unit number raw = .ok (l.inFile file', unit') := by
  rw [place_relocate h file' number, (place_eq_ok h).1]
  rfl

theorem place_error_inFile (h : place file unit number raw = .error d) (file' : Bytes) :
    place file' unit number raw = .error (d.inFile file') := by
  by_cases hlead : lead raw = []
  · rw [place_unindented hlead] at h
    cases h
  · rw [place_indented hlead] at h ⊢
    split at h
    · cases h
    · cases h
      rfl

theorem placeAll_ok_inFile (h : placeAll file unit number raws = .ok ls) (file' : Bytes) :
    placeAll file' unit number raws = .ok (ls.map (inFile file')) := by
  induction raws generalizing unit number ls with
  | nil =>
    cases h
    rfl
  | cons raw raws ih =>
    obtain ⟨l, unit', ls, hl, hls, rfl⟩ := placeAll_cons_eq_ok_iff.1 h
    exact placeAll_cons_eq_ok_iff.2 ⟨_, _, _, place_ok_inFile hl file', ih hls, rfl⟩

theorem placeAll_error_inFile (h : placeAll file unit number raws = .error d) (file' : Bytes) :
    placeAll file' unit number raws = .error (d.inFile file') := by
  induction raws generalizing unit number with
  | nil => cases h
  | cons raw raws ih =>
    refine bind_eq_error_iff.2 ?_
    rcases bind_eq_error_iff.1 h with h | ⟨⟨l, unit'⟩, hl, h⟩
    · exact .inl (place_error_inFile h file')
    · refine .inr ⟨_, place_ok_inFile hl file', ?_⟩
      rcases bind_eq_error_iff.1 h with h | ⟨_, -, h⟩
      · exact bind_eq_error_iff.2 (.inl (ih h))
      · cases h

/-- The first line with a fault is the same one in another file. -/
theorem firstFault?_inFile (file : Bytes) (ls : List Line) :
    firstFault? [] (ls.map (inFile file)) =
      (firstFault? [] ls).map fun x => (x.1.inFile file, x.2) := by
  have hitems : ls.map item = (ls.map (inFile file)).map item := by
    rw [List.map_map]
    rfl
  rcases @firstFault?_congr [] [] _ _ rfl hitems with ⟨hf, hf'⟩ | ⟨i, l, l', f, hl, hl', hf, hf'⟩
  · rw [hf, hf']
    rfl
  · rw [List.getElem?_map, hl] at hl'
    cases hl'
    rw [hf, hf']
    rfl

end Line

namespace Document

variable {file src : Bytes}

theorem parse_error_inFile {e : Diagnostic} (h : parse file src = .error e) (file' : Bytes) :
    parse file' src = .error (e.inFile file') := by
  refine parse_error_iff.2 ?_
  rcases parse_error_iff.1 h with h | ⟨lines, l, f, hl, hf, rfl⟩
  · exact .inl (Line.placeAll_error_inFile h file')
  · refine .inr ⟨_, l.inFile file', f, Line.placeAll_ok_inFile hl file', ?_, rfl⟩
    rw [Line.content_map_inFile, Line.firstFault?_inFile, hf]
    rfl

theorem parse_ok_inFile {d : Document} (h : parse file src = .ok d) (file' : Bytes) :
    ∃ d', parse file' src = .ok d' := by
  obtain ⟨lines, hl, hf⟩ := parse_ok_iff.1 ⟨d, h⟩
  refine parse_ok_iff.2 ⟨_, Line.placeAll_ok_inFile hl file', ?_⟩
  rw [Line.content_map_inFile, Line.firstFault?_inFile, hf]
  rfl

end Document

/-! ## Other targets -/

namespace Element

/-- The opening tag with the text `t` in the place of the bindings. -/
def openTagAround (el : Element) (t : Bytes) : Bytes :=
  "<" ++ Bytes.join " " ({ el with bindings := [], helpers := [] }.tagParts .oneHelper ++
    t :: el.helpers.map mustache) ++ ">"

theorem openTag_eq_openTagAround {el : Element} (h : el.bindings ≠ []) (style : BindingStyle) :
    el.openTag style = el.openTagAround (style.text el.bindings) := by
  have hempty : el.bindings.isEmpty = false := by simpa using h
  rw [openTag, openTagAround, tagParts, tagParts, hempty]
  simp

theorem openTag_of_unbound {el : Element} (h : el.bindings = []) (style style' : BindingStyle) :
    el.openTag style = el.openTag style' := by
  rw [openTag, openTag, tagParts, tagParts, h]
  rfl

end Element

/-- Two rows for two ways to write bindings: they are the same, or the opening tag of the same
    element, for which `P` holds, with the bindings written in both ways. -/
def Row.SameBut (style style' : BindingStyle) (P : Element → Prop) (r r' : Row) : Prop :=
  r = r' ∨ ∃ el level rest, P el ∧ el.bindings ≠ [] ∧
    r = ⟨level, el.openTagAround (style.text el.bindings) ++ rest⟩ ∧
    r' = ⟨level, el.openTagAround (style'.text el.bindings) ++ rest⟩

section

variable {style style' : BindingStyle} {P : Element → Prop}

theorem Node.sameBut_rowText {n : Node} (hn : ∀ r el cs, n = .element r el cs → P el)
    (level : Nat) (nested : Bool) :
    Row.SameBut style style' P ⟨level, n.rowText style nested⟩
      ⟨level, n.rowText style' nested⟩ := by
  cases n with
  | element r el cs =>
    by_cases hb : el.bindings = []
    · left
      rw [rowText, rowText, Element.openTag_of_unbound hb style style']
    · right
      simp only [rowText, Element.openTag_eq_openTagAround hb]
      cases nested with
      | true => exact ⟨el, level, [], hn r el cs rfl, hb, by simp, by simp⟩
      | false =>
        exact ⟨el, level, el.content.template ++ ("</" ++ el.tag ++ ">"), hn r el cs rfl, hb,
          by simp, by simp⟩
  | _ => exact .inl rfl

/-- The rows for two ways to write bindings are the same row by row. -/
theorem forall₂_pass {items : List (Nat × Bytes)}
    (h : ∀ x ∈ items, ∀ r el cs, Node.read x.2 = .element r el cs → P el) (pending : List Row) :
    List.Forall₂ (Row.SameBut style style' P) (pass style pending items)
      (pass style' pending items) := by
  induction items generalizing pending with
  | nil => exact List.forall₂_same.2 fun _ _ => .inl rfl
  | cons x items ih =>
    obtain ⟨hx, hitems⟩ := List.forall_mem_cons.1 h
    -- The rows before that of the item close nodes, which is the same for all targets.
    refine List.rel_append (List.forall₂_same.2 fun _ _ => .inl rfl) ?_
    exact .cons (Node.sameBut_rowText hx _ _) (ih hitems _)

theorem Row.SameBut.eq {r r' : Row} (h : SameBut style style' P r r')
    (hP : ∀ el, P el → el.bindings = []) : r = r' := by
  rcases h with h | ⟨el, _, _, hel, hb, -⟩
  · exact h
  · exact absurd (hP el hel) hb

end

/-! ## Templates -/

/-- The element is that of a node of the document. -/
def Document.HasElement (d : Document) (el : Element) : Prop :=
  ∃ k r cs, (k, Node.element r el cs) ∈ d.preorder

/-- Two lines of templates: they are the same, or start with the opening tag of the same element of
    the document, with its bindings written in both ways. -/
def Document.SameLines (d : Document) (style style' : BindingStyle) (t t' : Bytes) : Prop :=
  t = t' ∨ ∃ el level rest, d.HasElement el ∧ el.bindings ≠ [] ∧
    t = Bytes.spaces (2 * level) ++ el.openTagAround (style.text el.bindings) ++ rest ∧
    t' = Bytes.spaces (2 * level) ++ el.openTagAround (style'.text el.bindings) ++ rest

theorem Document.sameLines_bytes {d : Document} {style style' : BindingStyle} {r r' : Row}
    (h : r.SameBut style style' d.HasElement r') : d.SameLines style style' r.bytes r'.bytes := by
  rcases h with rfl | ⟨el, level, rest, hel, hb, rfl, rfl⟩
  · exact .inl rfl
  · -- An opening tag is not empty, so it is indented.
    have hbytes : ∀ t : Bytes, Row.bytes ⟨level, el.openTagAround t ++ rest⟩ =
        Bytes.spaces (2 * level) ++ el.openTagAround t ++ rest := fun t => by
      rw [List.append_assoc]
      exact if_neg Bool.false_ne_true
    exact .inr ⟨el, level, rest, hel, hb, hbytes _, hbytes _⟩

theorem Line.exists_starts {ls : List Line} {xs : List (Nat × Node)}
    (h : List.Forall₂ Line.Starts ls xs) : ∀ l ∈ ls, ∃ x ∈ xs, l.Starts x := by
  induction h with
  | nil => exact fun _ hl => absurd hl List.not_mem_nil
  | cons hstarts _ ih =>
    refine List.forall_mem_cons.2 ⟨⟨_, List.mem_cons_self, hstarts⟩, fun l hl => ?_⟩
    obtain ⟨x, hx, hl⟩ := ih l hl
    exact ⟨x, List.mem_cons_of_mem _ hx, hl⟩

/-- An element that the text of a line denotes is one of the document. -/
theorem Document.hasElement_of_read {file src : Bytes} {d : Document} {lines : List Line}
    (hd : parse file src = .ok d) (hl : Line.split file src = .ok lines) :
    ∀ x ∈ (Line.content lines).map Line.item, ∀ r el cs,
      Node.read x.2 = .element r el cs → d.HasElement el := by
  obtain ⟨lines', hl', hn⟩ := nesting_of_parse hd
  cases hl.symm.trans hl'
  refine List.forall_mem_map.2 fun l hmem r el cs hread => ?_
  obtain ⟨⟨k, n⟩, hx, -, hnode, -⟩ := Line.exists_starts hn.forall₂_preorderAll l hmem
  have hplace := Node.place_read hnode
  rw [show Node.read l.text = _ from hread] at hplace
  cases n with
  | element r' el' cs' =>
    cases hplace
    exact ⟨k, _, cs', hx⟩
  | _ => cases hplace

/-- The template of a document as lines. -/
theorem Document.pieces_text {file src : Bytes} {d : Document} (h : parse file src = .ok d)
    {style : BindingStyle} (hne : (d.render style).rows ≠ []) :
    Bytes.pieces Byte.lf (d.render style).text = (d.render style).rows.map Row.bytes := by
  obtain ⟨lines, -, -, hlines⟩ := rows_of_parse h style
  refine Bytes.pieces_join (by simpa using hne) ?_
  exact List.forall_mem_map.2 fun r hr => (hlines r hr).oneLine_bytes.2

/-- The rows of a source's documents under two names are a pass over the same items, and the
    elements that these denote are those of the document. -/
theorem Document.exists_pass {file file' src : Bytes} {d d' : Document}
    (hd : parse file src = .ok d) (hd' : parse file' src = .ok d') :
    ∃ items, (∀ style, (d.render style).rows = pass style [] items) ∧
      (∀ style, (d'.render style).rows = pass style [] items) ∧
      ∀ x ∈ items, ∀ r el cs, Node.read x.2 = .element r el cs → d.HasElement el := by
  obtain ⟨lines, hl, -⟩ := nesting_of_parse hd
  have hl' := Line.placeAll_ok_inFile hl file'
  have hitems : (Line.content (lines.map (Line.inFile file'))).map Line.item =
      (Line.content lines).map Line.item := by
    rw [Line.content_map_inFile, List.map_map]
    rfl
  refine ⟨(Line.content lines).map Line.item, fun style => ?_, fun style => ?_,
    hasElement_of_read hd hl⟩
  · obtain ⟨_, h, hrows, -⟩ := rows_of_parse hd style
    cases hl.symm.trans h
    exact hrows
  · obtain ⟨_, h, hrows, -⟩ := rows_of_parse hd' style
    cases hl'.symm.trans h
    rw [hrows, hitems]

/-- The template does not depend on the name of the source. -/
theorem compile_toOption_inFile (file file' target src : Bytes) :
    (compile ⟨file, target⟩ src).toOption = (compile ⟨file', target⟩ src).toOption := by
  cases hs : Target.style target with
  | error e =>
    rw [@compile_of_style_error ⟨file, target⟩ _ hs,
      @compile_of_style_error ⟨file', target⟩ _ hs]
  | ok style =>
    cases hd : Document.parse file src with
    | error e =>
      have hd' := Document.parse_error_inFile hd file'
      rw [@compile_of_parse_error ⟨file, target⟩ _ _ _ hs hd,
        @compile_of_parse_error ⟨file', target⟩ _ _ _ hs hd']
      rfl
    | ok d =>
      obtain ⟨d', hd'⟩ := Document.parse_ok_inFile hd file'
      obtain ⟨items, hrows, hrows', -⟩ := Document.exists_pass hd hd'
      rw [@compile_of_parse ⟨file, target⟩ _ _ _ hs hd,
        @compile_of_parse ⟨file', target⟩ _ _ _ hs hd', Rendering.text, Rendering.text, hrows,
        hrows']

/-- Two compilations of a source for valid targets, under any names. Either both fail, with the same
    error but for the file in its positions, or both give a template. The templates are the same if
    both targets have bindings written in the same way or no element has bindings, and otherwise
    line by line, but for the bindings in the opening tag of an element. -/
theorem compile_options {opts opts' : Options} {src v v' : Bytes}
    (ht : Target.canonical opts.target = .ok v) (ht' : Target.canonical opts'.target = .ok v') :
    (∃ e, compile opts src = .error (.source e) ∧
      compile opts' src = .error (.source (e.inFile opts'.file))) ∨
    ∃ style style' d out out', Target.style opts.target = .ok style ∧
      Target.style opts'.target = .ok style' ∧ Document.parse opts.file src = .ok d ∧
      compile opts src = .ok out ∧ compile opts' src = .ok out' ∧
      (style = style' → out = out') ∧
      ((∀ el, d.HasElement el → el.bindings = []) → out = out') ∧
      List.Forall₂ (d.SameLines style style') (Bytes.pieces Byte.lf out)
        (Bytes.pieces Byte.lf out') := by
  obtain ⟨style, hs⟩ := Target.exists_style ht
  obtain ⟨style', hs'⟩ := Target.exists_style ht'
  cases hd : Document.parse opts.file src with
  | error e =>
    have hd' := Document.parse_error_inFile hd opts'.file
    exact .inl ⟨e, compile_of_parse_error hs hd, compile_of_parse_error hs' hd'⟩
  | ok d =>
    obtain ⟨d', hd'⟩ := Document.parse_ok_inFile hd opts'.file
    obtain ⟨items, hrows, hrows', hread⟩ := Document.exists_pass hd hd'
    have hsame : List.Forall₂ (Row.SameBut style style' d.HasElement) (d.render style).rows
        (d'.render style').rows := by
      rw [hrows, hrows']
      exact forall₂_pass hread []
    refine .inr ⟨style, style', d, _, _, hs, hs', rfl, compile_of_parse hs hd,
      compile_of_parse hs' hd', fun hstyle => ?_, fun hunbound => ?_, ?_⟩
    · rw [Rendering.text, Rendering.text, hrows, hrows', hstyle]
    · have heq : (d.render style).rows = (d'.render style').rows := by
        rw [← List.forall₂_eq_eq_eq]
        exact hsame.imp fun _ _ h => h.eq hunbound
      rw [Rendering.text, Rendering.text, heq]
    · by_cases hne : (d.render style).rows = []
      · have hne' : (d'.render style').rows = [] := by
          rwa [hne, List.forall₂_nil_left_iff] at hsame
        rw [Rendering.text, Rendering.text, hne, hne']
        exact List.forall₂_same.2 fun _ _ => .inl rfl
      · have hne' : (d'.render style').rows ≠ [] := fun hnil => hne (by
          rwa [hnil, List.forall₂_nil_right_iff] at hsame)
        rw [Document.pieces_text hd hne, Document.pieces_text hd' hne', List.forall₂_map_left_iff,
          List.forall₂_map_right_iff]
        exact hsame.imp fun _ _ => Document.sameLines_bytes

/-- Bindings before and after a release from which on they are written as attributes. -/
theorem compile_options_bindings :
    ∃ (src out out' : Bytes) (d : Document), src = "%p\x7ba=b\x7d\n\t%q\x7bc='d' e=f\x7d g" ∧
      out = Bytes.join [Byte.lf] ["<p \x7b\x7bbind-attr a=b\x7d\x7d>",
        "  <q \x7b\x7bbind-attr c=\"d\" e=f\x7d\x7d>g</q>", "</p>"] ∧
      out' = Bytes.join [Byte.lf] ["<p a=\x7b\x7bb\x7d\x7d>",
        "  <q c=\"d\" e=\x7b\x7bf\x7d\x7d>g</q>", "</p>"] ∧
      Target.canonical "1.10" = .ok "v1.10.0" ∧ Target.canonical "v1.11" = .ok "v1.11.0" ∧
      compile ⟨"x", "1.10"⟩ src = .ok out ∧ compile ⟨"y", "v1.11"⟩ src = .ok out' ∧
      List.Forall₂ (d.SameLines .oneHelper .boundAttributes) (Bytes.pieces Byte.lf out)
        (Bytes.pieces Byte.lf out') := by
  have ht : Target.canonical "1.10" = .ok "v1.10.0" := toOption_eq_some_iff.1 (by decide +kernel)
  have ht' : Target.canonical "v1.11" = .ok "v1.11.0" := toOption_eq_some_iff.1 (by decide +kernel)
  have hs : Target.style "1.10" = .ok .oneHelper := toOption_eq_some_iff.1 (by decide +kernel)
  have hs' : Target.style "v1.11" = .ok .boundAttributes :=
    toOption_eq_some_iff.1 (by decide +kernel)
  have hc : compile ⟨"x", "1.10"⟩ "%p\x7ba=b\x7d\n\t%q\x7bc='d' e=f\x7d g" =
      .ok (Bytes.join [Byte.lf] ["<p \x7b\x7bbind-attr a=b\x7d\x7d>",
        "  <q \x7b\x7bbind-attr c=\"d\" e=f\x7d\x7d>g</q>", "</p>"]) :=
    toOption_eq_some_iff.1 (by decide +kernel)
  have hc' : compile ⟨"y", "v1.11"⟩ "%p\x7ba=b\x7d\n\t%q\x7bc='d' e=f\x7d g" =
      .ok (Bytes.join [Byte.lf] ["<p a=\x7b\x7bb\x7d\x7d>",
        "  <q c=\"d\" e=\x7b\x7bf\x7d\x7d>g</q>", "</p>"]) :=
    toOption_eq_some_iff.1 (by decide +kernel)
  rcases @compile_options ⟨"x", "1.10"⟩ ⟨"y", "v1.11"⟩
    "%p\x7ba=b\x7d\n\t%q\x7bc='d' e=f\x7d g" _ _ ht ht' with
    ⟨e, he, -⟩ | ⟨style, style', d, out, out', hstyle, hstyle', -, hout, hout', -, -, hsame⟩
  · cases hc.symm.trans he
  · cases hs.symm.trans hstyle
    cases hs'.symm.trans hstyle'
    cases hc.symm.trans hout
    cases hc'.symm.trans hout'
    exact ⟨_, _, _, d, rfl, rfl, rfl, ht, ht', hc, hc', hsame⟩

end IndentMarkup
