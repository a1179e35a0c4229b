import IndentMarkup.Proofs.Acceptance

/-!
# Sources put together

Sources are compiled part by part. Two sources with a line feed between them are compiled to their
templates, with a line feed between these (`compile_append`): the lines of the second one start at
the outermost level again, where nothing is left of the first one but rows that are due. A source
that is nested in a header is compiled to its template, two spaces further to the right, between
the rows of the header (`compile_nested`): all lines are one level deeper, and the row that closes
the header stays due until the end.

In both cases the lines have to be at the depths that they have in their own source, which is a
matter of the unit of indentation alone.
-/

namespace IndentMarkup

/-! ## The single pass over parts -/

/-- The row one level deeper. -/
def Row.deeper (r : Row) : Row := ⟨r.level + 1, r.text⟩

theorem Node.closingRows_deeper (n : Node) (level : Nat) (nested : Bool) :
    n.closingRows (level + 1) nested = (n.closingRows level nested).map Row.deeper := by
  cases n with
  | element r el cs => cases nested <;> rfl
  | block r b cs =>
    rw [closingRows, closingRows]
    split_ifs <;> rfl
  | _ => rfl

section

variable {style : BindingStyle} {pending outer : List Row} {xs ys : List (Nat × Bytes)}

/-- Nothing is left from lines when others start on the outermost level, unless with an else. -/
theorem pass_append (hys : ∀ y ∈ ys.head?, y.1 = 0 ∧ (Node.read y.2).isElse = false) :
    pass style pending (xs ++ ys) = pass style pending xs ++ pass style [] ys := by
  induction xs generalizing pending with
  | nil =>
    -- On the outermost level every row is due, as only an else would hold one back.
    have hdue : ∀ r ∈ pending, ∀ y ∈ ys.head?, r.isDue y.1 y.2 := by
      intro r _ y hy
      rw [Row.isDue, (hys y hy).1, (hys y hy).2]
      simp
    simpa [pass] using @pass_flush style pending [] ys hdue
  | cons x xs ih =>
    have hnested : (xs ++ ys).head?.any (x.1 < ·.1) = xs.head?.any (x.1 < ·.1) := by
      cases xs with
      | cons => rfl
      | nil =>
        cases hy : ys.head? with
        | none => simp [hy]
        | some y => simp [hy, (hys y hy).1]
    obtain ⟨d, t⟩ := x
    rw [List.cons_append, pass, pass, hnested, ih, List.append_assoc, List.cons_append]

/-- Rows that are left from outside are written after all lines that are deeper. -/
theorem pass_outer (h : ∀ r ∈ outer, ∀ x ∈ xs, r.level < x.1) :
    pass style (pending ++ outer) xs = pass style pending xs ++ outer := by
  induction xs generalizing pending with
  | nil => rfl
  | cons x xs ih =>
    obtain ⟨d, t⟩ := x
    -- None of the rows from outside is due, so the first of them that is met stops the search.
    have hhold : ∀ hl : 0 < outer.length, ¬(outer.get ⟨0, hl⟩).isDue d t := fun hl => by
      rw [Row.not_isDue_of_lt (h _ (List.get_mem outer _) (d, t) List.mem_cons_self)]
      exact Bool.false_ne_true
    have hnil : outer.takeWhile (·.isDue d t) = [] := List.takeWhile_eq_nil_iff.2 hhold
    have hself : outer.dropWhile (·.isDue d t) = outer := List.dropWhile_eq_self_iff.2 hhold
    have htake : (pending ++ outer).takeWhile (·.isDue d t) = pending.takeWhile (·.isDue d t) := by
      rw [List.takeWhile_append, hnil, List.append_nil]
      split_ifs with hall
      · exact ((List.takeWhile_prefix _).eq_of_length hall).symm
      · rfl
    have hdrop : (pending ++ outer).dropWhile (·.isDue d t) =
        pending.dropWhile (·.isDue d t) ++ outer := by
      rw [List.dropWhile_append, hself]
      split_ifs with hnone
      · rw [List.isEmpty_iff.1 hnone, List.nil_append]
      · rfl
    have houter : ∀ r ∈ outer, ∀ x ∈ xs, r.level < x.1 := fun r hr x hx =>
      h r hr x (List.mem_cons_of_mem _ hx)
    rw [pass, pass, htake, hdrop, ← List.append_assoc, ih houter]
    simp only [List.append_assoc, List.cons_append]

/-- Lines that are one level deeper give the same rows, one level deeper. -/
theorem pass_deeper :
    pass style (pending.map Row.deeper) (xs.map fun x => (x.1 + 1, x.2)) =
      (pass style pending xs).map Row.deeper := by
  induction xs generalizing pending with
  | nil => rfl
  | cons x xs ih =>
    obtain ⟨d, t⟩ := x
    have hdue : (fun r : Row => r.deeper.isDue (d + 1) t) = (·.isDue d t) := by
      funext r
      simp [Row.isDue, Row.deeper]
    have hnested : (xs.map fun x => (x.1 + 1, x.2)).head?.any (d + 1 < ·.1) =
        xs.head?.any (d < ·.1) := by
      simp [List.head?_map, Option.any_map]
    rw [List.map_cons, pass, pass, hnested, List.takeWhile_map, List.dropWhile_map]
    simp only [Function.comp_def]
    rw [hdue, Node.closingRows_deeper, ← List.map_append, ih, List.map_append, List.map_cons]
    rfl

end

/-! ## Sources one after the other -/

namespace Line

/-- The lines of two sources keep their depths if neither decides the unit of the other. -/
theorem split_append {file a b : Bytes} {la lb : List Line} (ha : a ≠ []) (hb : b ≠ [])
    (hla : split file a = .ok la) (hlb : split file b = .ok lb)
    (hu : IndentUnit.inferred? (raws a) = none ∨ IndentUnit.inferred? (raws b) = none ∨
      IndentUnit.inferred? (raws a) = IndentUnit.inferred? (raws b)) :
    ∃ lb', split file (a ++ Byte.lf :: b) = .ok (la ++ lb') ∧
      (content lb').map item = (content lb).map item := by
  obtain ⟨lb', hlb', hitems⟩ := placeAll_relocate hlb file (1 + (raws a).length)
  refine ⟨lb', ?_, by rw [map_item_content, map_item_content, hitems]⟩
  rw [split, raws_append ha hb]
  refine placeAll_append hla ?_
  rw [Option.none_or]
  rcases hu with hu | hu | hu
  · rw [hu]
    exact hlb'
  · rw [placeAll_infer (.inl hu)]
    exact hlb'
  · rw [placeAll_infer (.inr hu.symm)]
    exact hlb'

end Line

/-- The first of the outermost lines is on the outermost level, and no else. -/
theorem Nesting.head_outermost {ls : List Line} {ns : List Node} (h : Nesting 0 false ls ns) :
    ∀ x ∈ (ls.map Line.item).head?, x.1 = 0 ∧ (Node.read x.2).isElse = false := by
  intro x hx
  rw [← List.append_nil (ls.map Line.item)] at hx
  simpa using h.head_item (by simp) x hx

theorem ne_nil_of_compile {opts : Options} {src out : Bytes} (h : compile opts src = .ok out)
    (hout : out ≠ []) : src ≠ [] := by
  rintro rfl
  obtain ⟨style, lines, ns, -, hl, -, rfl, -⟩ := nesting_of_compile h
  cases hl
  exact hout rfl

theorem ne_nil_of_join {sep : Bytes} {ts : List Bytes} (h : Bytes.join sep ts ≠ []) : ts ≠ [] := by
  rintro rfl
  exact h rfl

/-- Two sources that do not disagree about the unit of indentation, with a line feed between them,
    are compiled to their templates, with a line feed between these. -/
theorem compile_append {opts : Options} {a b outA outB : Bytes} (ha : compile opts a = .ok outA)
    (hb : compile opts b = .ok outB) (hA : outA ≠ []) (hB : outB ≠ [])
    (hu : IndentUnit.inferred? (Line.raws a) = none ∨ IndentUnit.inferred? (Line.raws b) = none ∨
      IndentUnit.inferred? (Line.raws a) = IndentUnit.inferred? (Line.raws b)) :
    compile opts (a ++ Byte.lf :: b) = .ok (outA ++ Byte.lf :: outB) := by
  have ha' := ne_nil_of_compile ha hA
  have hb' := ne_nil_of_compile hb hB
  obtain ⟨style, la, nsa, hs, hla, hna, rfl, -⟩ := nesting_of_compile ha
  obtain ⟨style', lb, nsb, hs', hlb, hnb, rfl, -⟩ := nesting_of_compile hb
  cases hs.symm.trans hs'
  obtain ⟨lb', hl, hitems⟩ := Line.split_append ha' hb' hla hlb hu
  -- The nodes of the second source come after those of the first one, as siblings.
  obtain ⟨nsb', hnb'⟩ := hnb.deepen 0 hitems
  have hn : Nesting 0 false (Line.content (la ++ lb')) (nsa ++ nsb') := by
    rw [Line.content_append]
    exact hna.append (hnb'.weaken _)
  rw [compile_of_nesting hs hl hn, Line.content_append, List.map_append, hitems,
    pass_append hnb.head_outermost, List.map_append,
    Bytes.join_append (ne_nil_of_join hA) (ne_nil_of_join hB)]
  rfl

/-- A source that ends inside a block, and one that starts with an element. -/
theorem compile_append_branches :
    ∃ a b outA outB : Bytes, a = "-if a\n  b" ∧ b = "%p\n  c\n\n-unless d\n  e" ∧
      outA = Bytes.join [Byte.lf] ["\x7b\x7b#if a\x7d\x7d", "  b", "\x7b\x7b/if\x7d\x7d"] ∧
      outB = Bytes.join [Byte.lf] ["<p>", "  c", "</p>", "\x7b\x7b#unless d\x7d\x7d", "  e",
        "\x7b\x7b/unless\x7d\x7d"] ∧
      compile ⟨[], []⟩ a = .ok outA ∧ compile ⟨[], []⟩ b = .ok outB ∧ outA ≠ [] ∧ outB ≠ [] ∧
      IndentUnit.inferred? (Line.raws a) = IndentUnit.inferred? (Line.raws b) ∧
      compile ⟨[], []⟩ (a ++ Byte.lf :: b) = .ok (outA ++ Byte.lf :: outB) := by
  have ha : (compile ⟨[], []⟩ "-if a\n  b").toOption = some (Bytes.join [Byte.lf]
      ["\x7b\x7b#if a\x7d\x7d", "  b", "\x7b\x7b/if\x7d\x7d"]) := by decide +kernel
  have hb : (compile ⟨[], []⟩ "%p\n  c\n\n-unless d\n  e").toOption = some (Bytes.join [Byte.lf]
      ["<p>", "  c", "</p>", "\x7b\x7b#unless d\x7d\x7d", "  e", "\x7b\x7b/unless\x7d\x7d"]) := by
    decide +kernel
  have hu : IndentUnit.inferred? (Line.raws "-if a\n  b") =
      IndentUnit.inferred? (Line.raws "%p\n  c\n\n-unless d\n  e") := by decide +kernel
  rw [toOption_eq_some_iff] at ha hb
  exact ⟨_, _, _, _, rfl, rfl, rfl, rfl, ha, hb, by decide, by decide, hu,
    compile_append ha hb (by decide) (by decide) (.inr (.inr hu))⟩

/-! ## Sources nested in a header -/

/-- The rows around what is nested in a node, which are those of an element without content or of
    a block that is no else. -/
def Node.frame? (style : BindingStyle) : Node → Option (Bytes × Bytes)
  | element _ el _ => if el.content = [] then some (el.openTag style, el.closeTag) else none
  | block _ b _ =>
    if b.keyword ∈ [.ifWord, .unlessWord, .eachWord] then
      some (mustache ("#" ++ b.keyword.name ++ " " ++ b.argument), mustache ("/" ++ b.keyword.name))
    else none
  | _ => none

/-- The rows around what is nested in a source that is a single node on its own. -/
def header? (opts : Options) (h : Bytes) : Option (Bytes × Bytes) :=
  match Target.style opts.target, Document.parse opts.file h with
  | .ok style, .ok ⟨_, [n]⟩ => n.frame? style
  | _, _ => none

/-- Others can be nested in the node, between the rows `opening` and `closing`. -/
structure Node.Encloses (style : BindingStyle) (opening closing : Bytes) (n : Node) : Prop where
  isElse : n.isElse = false
  refusal : Outline.refusal? n = none
  rowText : n.rowText style true = opening
  closingRows : n.closingRows 0 true = [⟨0, closing⟩]

theorem Node.encloses_of_frame? {style : BindingStyle} {opening closing : Bytes} {n : Node}
    (h : n.frame? style = some (opening, closing)) : n.Encloses style opening closing := by
  cases n with
  | element r el cs =>
    rw [frame?] at h
    split_ifs at h with hcontent
    cases h
    refine ⟨rfl, ?_, rfl, rfl⟩
    rw [Outline.refusal?, hcontent]
    rfl
  | block r b cs =>
    rw [frame?] at h
    split_ifs at h with hkeyword
    cases h
    have hels : b.keyword ≠ .elseWord := by
      rintro hels
      rw [hels] at hkeyword
      exact absurd hkeyword (by decide)
    refine ⟨?_, rfl, ?_, ?_⟩
    · simpa [Node.isElse] using hels
    · rw [Node.rowText, if_neg hels]
    · rw [Node.closingRows, if_neg hels]
  | _ => cases h

namespace Line

variable {file src h : Bytes} {u : IndentUnit} {ls : List Line}

/-- The only line of a source without line feeds, if it is not indented. -/
def single (file h : Bytes) : Line := placed file 1 0 (h.dropEnd [Byte.cr])

theorem lead_dropEnd (hlead : ∀ b ∈ h.head?, ¬Bytes.isBlank b) (tail : Bytes) :
    lead (h.dropEnd tail) = [] := by
  have hstart : Bytes.dropTrailingBlanks (h.dropEnd tail) <+: h := by
    refine (List.rdropWhile_prefix Bytes.isBlank (h.dropEnd tail)).trans ?_
    rw [Bytes.dropEnd]
    split_ifs
    · exact List.take_prefix _ _
    · exact List.prefix_rfl
  rw [lead]
  cases hbody : Bytes.dropTrailingBlanks (h.dropEnd tail) with
  | nil => rfl
  | cons b t =>
    rw [hbody] at hstart
    obtain ⟨s, rfl⟩ := hstart
    exact List.takeWhile_cons_of_neg (hlead b rfl)

theorem split_single (hline : h.OneLine) (hlead : ∀ b ∈ h.head?, ¬Bytes.isBlank b) (hh : h ≠ []) :
    split file h = .ok [single file h] := by
  rw [split, raws_eq hh, Bytes.pieces_of_oneLine hline, List.map_singleton]
  exact placeAll_cons_eq_ok_iff.2
    ⟨_, none, [], place_unindented (lead_dropEnd hlead _) file none 1, rfl, rfl⟩

/-- The lines of a source that is nested in a line are one level deeper. -/
theorem split_nested (hline : h.OneLine) (hlead : ∀ b ∈ h.head?, ¬Bytes.isBlank b)
    (hsrc : src ≠ []) (hl : split file src = .ok ls)
    (hhead : ∀ l ∈ (content ls).head?, l.depth = 0)
    (hu : IndentUnit.inferred? (raws src) = some u ∨
      IndentUnit.inferred? (raws src) = none ∧ 0 < u.width) :
    ∃ ls', split file (h ++ Byte.lf :: Bytes.indentLines (u.lead 1) src) =
        .ok (single file h :: ls') ∧
      (content ls').map item = (content ls).map fun l => (l.depth + 1, l.text) := by
  have hwidth : 0 < u.width := by
    rcases hu with hu | hu
    · exact IndentUnit.width_pos_of_inferred? hu
    · exact hu.2
  have hraws : raws (h ++ Byte.lf :: Bytes.indentLines (u.lead 1) src) =
      h.dropEnd [Byte.cr] :: (raws src).map (Bytes.indentLine (u.lead 1)) := by
    rw [raws_eq (by simp), Bytes.pieces_append, List.map_append,
      Bytes.map_pieces_indentLines _ (u.oneLine_lead 1), Bytes.pieces_of_oneLine hline,
      raws_eq hsrc]
    rfl
  -- The lines of the source may be placed with the unit `u` from the beginning, and the deeper
  -- ones decide it, as the first of them is indented by it once.
  have hunit : placeAll file (some u) 1 (raws src) = placeAll file none 1 (raws src) :=
    placeAll_infer (hu.symm.imp_left And.left) file 1
  rw [split, ← hunit] at hl
  obtain ⟨ls', hls', hitems⟩ := placeAll_indented hwidth hl 2
  rw [placeAll_infer (inferred?_indented hwidth hl hhead)] at hls'
  refine ⟨ls', ?_, hitems⟩
  rw [split, hraws]
  exact placeAll_cons_eq_ok_iff.2
    ⟨_, none, ls', place_unindented (lead_dropEnd hlead _) file none 1, hls', rfl⟩

end Line

namespace Nesting

variable {k : Nat} {e : Bool} {l : Line} {n : Node}

/-- A single line with a nesting of a single node denotes that node. -/
theorem ofLine_of_singleton (h : Nesting k e [l] [n]) : Node.ofLine l = .ok n := by
  generalize hls : [l] = ls at h
  cases h with
  | @cons _ _ m n inner rest cs _ depth node leads admits children siblings =>
    obtain ⟨rfl, hnil⟩ := List.cons.inj hls
    obtain ⟨rfl, -⟩ := List.append_eq_nil_iff.1 hnil.symm
    rw [children.nil_iff.1 rfl, Node.withChildren_nil node, node]

/-- The lines of a nesting may be nested in a line whose node encloses others. -/
theorem enclosed {style : BindingStyle} {opening closing : Bytes} {ls : List Line} {ns : List Node}
    (h : Nesting (k + 1) false ls ns) (depth : l.depth = k) (node : Node.ofLine l = .ok n)
    (hn : n.Encloses style opening closing) : Nesting k e (l :: ls) [n.withChildren ns] := by
  rw [← List.append_nil (l :: ls)]
  refine .cons depth node (fun hels => ?_) (fun _ => hn.refusal) h .nil
  rw [hn.isElse] at hels
  cases hels

end Nesting

section

variable {opts : Options} {h opening closing : Bytes}

/-- The line of a source that is a single node denotes that node. -/
theorem Document.ofLine_single {file : Bytes} {d : Document} {n : Node} (hline : h.OneLine)
    (hlead : ∀ b ∈ h.head?, ¬Bytes.isBlank b) (hd : Document.parse file h = .ok d)
    (hn : d.children = [n]) :
    (Line.single file h).isBlank = false ∧ Node.ofLine (Line.single file h) = .ok n := by
  obtain ⟨lines, hlines, hnest⟩ := nesting_of_parse hd
  rw [hn] at hnest
  have hne : h ≠ [] := by
    rintro rfl
    cases hlines
    cases hnest
  rw [Line.split_single hline hlead hne] at hlines
  cases hlines
  rw [Line.content_cons] at hnest
  split_ifs at hnest with hblank
  · cases hnest
  · exact ⟨by simpa using hblank, hnest.ofLine_of_singleton⟩

/-- The line of a header denotes a node that encloses others between the rows of the header. -/
theorem encloses_of_header? (hh : header? opts h = some (opening, closing)) (hline : h.OneLine)
    (hlead : ∀ b ∈ h.head?, ¬Bytes.isBlank b) {style : BindingStyle}
    (hs : Target.style opts.target = .ok style) :
    ∃ n, (Line.single opts.file h).isBlank = false ∧
      Node.ofLine (Line.single opts.file h) = .ok n ∧ n.Encloses style opening closing := by
  rw [header?, hs] at hh
  split at hh
  · rename_i style' r n hstyle hd
    cases hstyle
    obtain ⟨hblank, hnode⟩ := Document.ofLine_single hline hlead hd rfl
    exact ⟨n, hblank, hnode, Node.encloses_of_frame? hh⟩
  · cases hh

end

/-- Lines nested in a line give their rows, one level deeper, between the rows of that line. -/
theorem pass_enclosed {style : BindingStyle} {opening closing : Bytes} {l : Line} {n : Node}
    {xs : List (Nat × Bytes)} (depth : l.depth = 0) (node : Node.ofLine l = .ok n)
    (hn : n.Encloses style opening closing) (hxs : xs ≠ []) :
    pass style [] (l.item :: xs.map fun x => (x.1 + 1, x.2)) =
      ⟨0, opening⟩ :: ((pass style [] xs).map Row.deeper ++ [⟨0, closing⟩]) := by
  have hnested : (xs.map fun x => (x.1 + 1, x.2)).head?.any (0 < ·.1) := by
    obtain ⟨x, xs, rfl⟩ := List.exists_cons_of_ne_nil hxs
    simp
  have hdeeper : ∀ r ∈ [(⟨0, closing⟩ : Row)], ∀ x ∈ xs.map fun x => (x.1 + 1, x.2),
      r.level < x.1 := by
    intro r hr x hx
    obtain ⟨y, -, rfl⟩ := List.mem_map.1 hx
    rw [List.mem_singleton.1 hr]
    exact Nat.succ_pos y.1
  have hopening := hn.rowText
  have hclosing := hn.closingRows
  rw [← Node.place_read node, Node.rowText_place] at hopening
  rw [← Node.place_read node, Node.closingRows_place] at hclosing
  rw [Line.item, depth, pass_hold (by simp), hnested, hopening, hclosing, List.append_nil,
    ← List.nil_append [(⟨0, closing⟩ : Row)], pass_outer hdeeper]
  exact congrArg (⟨0, opening⟩ :: · ++ [⟨0, closing⟩]) (@pass_deeper style [] xs)

namespace Row

theorem bytes_outermost (t : Bytes) : bytes ⟨0, t⟩ = t := by
  cases t <;> rfl

theorem IsLine.bytes_deeper {r : Row} (h : r.IsLine) :
    r.deeper.bytes = Bytes.spaces 2 ++ r.bytes := by
  have hd : r.deeper.IsLine := h
  rw [h.bytes_eq, hd.bytes_eq, ← List.append_assoc, Bytes.spaces, Bytes.spaces, Bytes.spaces,
    List.replicate_append_replicate, Nat.add_comm 2]
  rfl

/-- Rows one level deeper, between two others, as a text. -/
theorem join_enclosed {rows : List Row} (h : ∀ r ∈ rows, r.IsLine) (hne : rows ≠ [])
    (opening closing : Bytes) :
    Bytes.join [Byte.lf] ((⟨0, opening⟩ :: (rows.map deeper ++ [⟨0, closing⟩])).map bytes) =
      opening ++ Byte.lf ::
        (Bytes.join [Byte.lf] ((Bytes.pieces Byte.lf (Bytes.join [Byte.lf] (rows.map bytes))).map
          (Bytes.spaces 2 ++ ·)) ++ Byte.lf :: closing) := by
  have hdeeper : (rows.map deeper).map bytes = (rows.map bytes).map (Bytes.spaces 2 ++ ·) := by
    rw [List.map_map, List.map_map]
    exact List.map_congr_left fun r hr => (h r hr).bytes_deeper
  have hone : ∀ t ∈ rows.map bytes, t.OneLine :=
    List.forall_mem_map.2 fun r hr => (h r hr).oneLine_bytes.2
  have hne' : (rows.map bytes).map (Bytes.spaces 2 ++ ·) ≠ [] := by simpa using hne
  rw [Bytes.pieces_join (by simpa using hne) hone, List.map_cons, List.map_append, hdeeper,
    List.map_singleton, bytes_outermost, bytes_outermost, ← List.singleton_append (x := opening),
    Bytes.join_append (List.cons_ne_nil _ _) (List.append_ne_nil_of_left_ne_nil hne' _),
    Bytes.join_append hne' (List.cons_ne_nil _ _)]
  simp [Bytes.join]

end Row

/-- A source that is nested in a header, by the unit that it is itself indented by, is compiled to
    its template with two more spaces on each line, between the rows of the header. -/
theorem compile_nested {opts : Options} {src out h opening closing : Bytes} {u : IndentUnit}
    (hsrc : compile opts src = .ok out) (hout : out ≠ [])
    (hu : IndentUnit.inferred? (Line.raws src) = some u ∨
      IndentUnit.inferred? (Line.raws src) = none ∧ 0 < u.width)
    (hline : h.OneLine) (hlead : ∀ b ∈ h.head?, ¬Bytes.isBlank b)
    (hh : header? opts h = some (opening, closing)) :
    compile opts (h ++ Byte.lf :: Bytes.indentLines (u.lead 1) src) =
      .ok (opening ++ Byte.lf ::
        (Bytes.join [Byte.lf] ((Bytes.pieces Byte.lf out).map (Bytes.spaces 2 ++ ·)) ++
          Byte.lf :: closing)) := by
  have hsrc' := ne_nil_of_compile hsrc hout
  obtain ⟨style, ls, ns, hs, hl, hn, rfl, hrows⟩ := nesting_of_compile hsrc
  have hhead : ∀ l ∈ (Line.content ls).head?, l.depth = 0 := by
    intro l hl
    refine (hn.head_outermost l.item ?_).1
    rw [List.head?_map, hl]
    rfl
  obtain ⟨ls', hl', hitems⟩ := Line.split_nested hline hlead hsrc' hl hhead hu
  obtain ⟨n, hblank, hnode, hencloses⟩ := encloses_of_header? hh hline hlead hs
  have hcontent : Line.content (Line.single opts.file h :: ls') =
      Line.single opts.file h :: Line.content ls' := by
    rw [Line.content_cons, hblank]
    rfl
  -- The nodes of the source, one level deeper, are nested in that of the header.
  obtain ⟨ns', hns'⟩ := hn.deepen 1 hitems
  have hnest := @Nesting.enclosed 0 false _ _ _ _ _ _ _ hns' rfl hnode hencloses
  rw [← hcontent] at hnest
  have hdeeper : (Line.content ls').map Line.item =
      ((Line.content ls).map Line.item).map fun x => (x.1 + 1, x.2) := by
    rw [hitems, List.map_map]
    rfl
  have hrows₀ : pass style [] ((Line.content ls).map Line.item) ≠ [] := by
    simpa using ne_nil_of_join hout
  have hitems₀ : (Line.content ls).map Line.item ≠ [] := by
    rintro hnil
    rw [hnil] at hrows₀
    exact hrows₀ rfl
  rw [compile_of_nesting hs hl' hnest, hcontent, List.map_cons, hdeeper,
    pass_enclosed rfl hnode hencloses hitems₀, Row.join_enclosed hrows hrows₀]

/-- Two branches nested in an element. -/
theorem compile_nested_branches :
    ∃ src out h opening closing : Bytes, src = "-if a\n  b\n-else\n  c" ∧
      out = Bytes.join [Byte.lf] ["\x7b\x7b#if a\x7d\x7d", "  b", "\x7b\x7belse\x7d\x7d", "  c",
        "\x7b\x7b/if\x7d\x7d"] ∧
      h = "%ul.x" ∧ opening = "<ul class=\"x\">" ∧ closing = "</ul>" ∧
      compile ⟨[], []⟩ src = .ok out ∧ out ≠ [] ∧
      IndentUnit.inferred? (Line.raws src) = some (.spaces 2) ∧ h.OneLine ∧
      (∀ b ∈ h.head?, ¬Bytes.isBlank b) ∧ header? ⟨[], []⟩ h = some (opening, closing) ∧
      compile ⟨[], []⟩ (h ++ Byte.lf :: Bytes.indentLines (IndentUnit.lead (.spaces 2) 1) src) =
        .ok (opening ++ Byte.lf ::
          (Bytes.join [Byte.lf] ((Bytes.pieces Byte.lf out).map (Bytes.spaces 2 ++ ·)) ++
            Byte.lf :: closing)) := by
  have hsrc : (compile ⟨[], []⟩ "-if a\n  b\n-else\n  c").toOption = some (Bytes.join [Byte.lf]
      ["\x7b\x7b#if a\x7d\x7d", "  b", "\x7b\x7belse\x7d\x7d", "  c", "\x7b\x7b/if\x7d\x7d"]) := by
    decide +kernel
  have hu : IndentUnit.inferred? (Line.raws "-if a\n  b\n-else\n  c") = some (.spaces 2) := by
    decide +kernel
  have hlead : ∀ b ∈ ("%ul.x" : Bytes).head?, ¬Bytes.isBlank b := fun b hb => by
    cases hb
    decide
  have hh : header? ⟨[], []⟩ "%ul.x" = some (("<ul class=\"x\">" : Bytes), ("</ul>" : Bytes)) := by
    decide +kernel
  rw [toOption_eq_some_iff] at hsrc
  exact ⟨_, _, _, _, _, rfl, rfl, rfl, rfl, rfl, hsrc, by decide, hu, by decide, hlead, hh,
    compile_nested hsrc (by decide) (.inl hu) (by decide) hlead hh⟩

end IndentMarkup
