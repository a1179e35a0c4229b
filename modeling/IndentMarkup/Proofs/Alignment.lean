import IndentMarkup.Proofs.Version
import Mathlib.Order.Bounds.Defs

/-!
# Carets under their columns

An excerpt is laid out by padding: the numbers of lines are padded to the width of the longest one,
and the marks by as many spaces as there are columns before the range. Here the layout is said by
offsets in the rows (`Excerpt.Shows`). In all rows of all excerpts of a diagnostic, the bar is at
the same offset, and the first caret is at the offset where the row above it shows the first byte of
the range (`Diagnostic.explain_aligned`).
-/

namespace IndentMarkup

/-- The bar at the end of a gutter. -/
abbrev Byte.bar : UInt8 := 0x7C

/-! ## Offsets -/

namespace Bytes

/-- The first `b` in a text is at the offset `n`. -/
def FirstAt (b : UInt8) (n : Nat) (t : Bytes) : Prop := t[n]? = some b ∧ b ∉ t.take n

variable {b : UInt8} {s t : Bytes} {n : Nat}

theorem firstAt_append (hn : s.length = n) (hs : b ∉ s) (t : Bytes) :
    FirstAt b n (s ++ b :: t) := by
  subst hn
  exact ⟨by simp, by simpa using hs⟩

theorem length_spaces (n : Nat) : (spaces n).length = n := List.length_replicate

theorem notMem_spaces (hb : b ≠ Byte.space) (n : Nat) : b ∉ spaces n :=
  fun h => hb (List.eq_of_mem_replicate h)

/-- A number is written with digits, and a dash if it is negative. -/
theorem notMem_ofInt (hb : ¬Byte.isDigit b) (hdash : b ≠ Byte.dash) (n : Int) : b ∉ ofInt n := by
  cases n with
  | ofNat n => exact fun h => hb (isDigit_of_mem_ofNat n b h)
  | negSucc n =>
    rw [ofInt, List.mem_cons, not_or]
    exact ⟨hdash, fun h => hb (isDigit_of_mem_ofNat (n + 1) b h)⟩

end Bytes

/-! ## Marks -/

namespace Range

variable {r : Range}

theorem exists_underline_eq (r : Range) :
    ∃ t, r.underline = Byte.caret :: t ∧ r.underline.OneLine := by
  rw [underline]
  split_ifs with hwidth
  · exact ⟨"~~~", rfl, by decide⟩
  · obtain ⟨n, hn⟩ : ∃ n, r.width.toNat = n + 1 := ⟨r.width.toNat - 1, by omega⟩
    rw [hn]
    exact ⟨_, List.replicate_succ, fun h => absurd (List.eq_of_mem_replicate h) (by decide)⟩

/-- Positive columns are so near to each other that their difference is a 64-bit integer. -/
theorem underline_eq (hstart : 1 ≤ r.start.col ∧ r.start.col < 0x8000000000000000)
    (hstop : 1 ≤ r.stop.col ∧ r.stop.col < 0x8000000000000000) : r.underline =
      if 2 ≤ r.stop.col - r.start.col then
        List.replicate (r.stop.col - r.start.col).toNat Byte.caret
      else "^~~~" := by
  have hwidth : r.width = r.stop.col - r.start.col := wrap64_eq_self (by omega) (by omega)
  rw [underline, hwidth]
  split_ifs
  · omega
  · rfl
  · rfl
  · omega

end Range

/-! ## Excerpts -/

/-- The detail is about the range `r`, whose columns are positive 64-bit integers, and carries the
    line of the source. -/
structure Detail.IsPlaced (x : Detail) (r : Range) : Prop where
  range : x.range = some r
  start : 1 ≤ r.start.col ∧ r.start.col < 0x8000000000000000
  stop : 1 ≤ r.stop.col ∧ r.stop.col < 0x8000000000000000
  source : x.source ≠ [] ∧ x.source.OneLine

/-- The rows that a diagnostic shows for one of its details. -/
structure Excerpt where
  /-- The rows in front of the excerpt itself. -/
  before : List Bytes
  /-- The row with nothing but the gutter. -/
  blank : Bytes
  /-- The row with the line of the source. -/
  source : Bytes
  /-- The row with the marks and the message. -/
  marks : Bytes
  /-- The rows behind it. -/
  after : List Bytes

namespace Excerpt

/-- All rows of an excerpt. -/
def rows (e : Excerpt) : List Bytes := e.before ++ [e.blank, e.source, e.marks] ++ e.after

/-- The excerpt shows the detail `x`, which is about the range `r`, in a gutter of width `w`. -/
structure Shows (w : Nat) (x : Detail) (r : Range) (e : Excerpt) : Prop where
  /-- There may be the place of the detail in front. -/
  before : e.before = [] ∨ e.before = [x.pos.text]
  /-- There may be an ellipsis behind. -/
  after : e.after = [] ∨ e.after = [Bytes.spaces w ++ "..."]
  /-- The rows are lines, if the message is one. -/
  oneLine : e.blank.OneLine ∧ e.source.OneLine ∧ (x.message.OneLine → e.marks.OneLine)
  /-- The bar is at the same offset in all rows. -/
  bar : ∀ row ∈ [e.blank, e.source, e.marks], row.FirstAt Byte.bar (w + 1)
  /-- The first row has only spaces besides. -/
  blank : e.blank = Bytes.spaces (w + 1) ++ [Byte.bar]
  /-- The number of the line ends one space before the bar. -/
  number : e.source.take (w + 1) =
    Bytes.spaces (w - (Bytes.ofInt r.start.line).length) ++ Bytes.ofInt r.start.line ++ " "
  /-- The line of the source follows the bar. -/
  source : e.source.drop (w + 2) = x.source
  /-- The first caret is under the first byte of the range. -/
  caret : e.marks.FirstAt Byte.caret (w + 1 + r.start.col.toNat) ∧
    e.source[w + 1 + r.start.col.toNat]? = x.source[r.start.col.toNat - 1]?
  /-- There are as many carets as columns if these are two or more, and the message follows. -/
  marks : e.marks.drop (w + 1 + r.start.col.toNat) =
    (if 2 ≤ r.stop.col - r.start.col then
      List.replicate (r.stop.col - r.start.col).toNat Byte.caret
    else "^~~~") ++ " " ++ x.message

/-! ## How rows are put together -/

variable {w : Nat} {x : Detail} {r : Range} {line : Int} {before after : List Bytes}

/-- The number of a line in the gutter, up to the bar. -/
def cell (w : Nat) (line : Int) : Bytes :=
  Bytes.spaces (w - (Bytes.ofInt line).length) ++ Bytes.ofInt line ++ " "

theorem length_cell (hw : (Bytes.ofInt line).length ≤ w) : (cell w line).length = w + 1 := by
  simp only [cell, List.length_append, Bytes.length_spaces]
  exact congrArg (· + 1) (Nat.sub_add_cancel hw)

theorem notMem_cell {b : UInt8} (hb : ¬Byte.isDigit b) (hdash : b ≠ Byte.dash)
    (hspace : b ≠ Byte.space) (w : Nat) (line : Int) : b ∉ cell w line := by
  rw [cell, List.mem_append, List.mem_append, not_or, not_or]
  exact ⟨⟨Bytes.notMem_spaces hspace _, Bytes.notMem_ofInt hb hdash line⟩,
    fun h => hspace (List.mem_singleton.1 h)⟩

/-- What is in front of the marks: the gutter, the bar, and the columns before the range. -/
def margin (w : Nat) (r : Range) : Bytes :=
  Bytes.spaces (w + 1) ++ Byte.bar :: Bytes.spaces (r.start.col.toNat - 1)

theorem length_margin (hr : 1 ≤ r.start.col) (w : Nat) :
    (margin w r).length = w + 1 + r.start.col.toNat := by
  rw [margin, List.length_append, List.length_cons, Bytes.length_spaces, Bytes.length_spaces]
  omega

theorem notMem_margin {b : UInt8} (hbar : b ≠ Byte.bar) (hspace : b ≠ Byte.space) (w : Nat)
    (r : Range) : b ∉ margin w r := by
  rw [margin, List.mem_append, List.mem_cons, not_or, not_or]
  exact ⟨Bytes.notMem_spaces hspace _, hbar, Bytes.notMem_spaces hspace _⟩

/-- The excerpt of a detail between other rows. -/
def layout (w : Nat) (x : Detail) (r : Range) (before after : List Bytes) : Excerpt where
  before := before
  blank := Bytes.spaces (w + 1) ++ [Byte.bar]
  source := cell w r.start.line ++ Byte.bar :: x.source
  marks := margin w r ++ (r.underline ++ " " ++ x.message)
  after := after

theorem rows_layout (h : x.IsPlaced r) (load : Bytes → Bytes) (w : Nat)
    (before after : List Bytes) :
    (layout w x r before after).rows = before ++ x.excerpt load w ++ after := by
  have hrange : x.range.getD default = r := by rw [h.range, Option.getD_some]
  have hpos : x.pos = r.start := by rw [Detail.pos, hrange]
  have hline : x.sourceLine load = x.source := by
    rw [Detail.sourceLine, if_neg (by simpa using h.source.1)]
  have hcol : (r.start.col - 1).toNat = r.start.col.toNat - 1 := by omega
  have hgutter : Bytes.spaces (w + 1) = Bytes.spaces w ++ " " := List.replicate_succ'
  have hbar : (" |" : Bytes) = " " ++ [Byte.bar] := rfl
  rw [Detail.excerpt, hline, hpos, hcol, hrange, rows, layout, cell, margin, hgutter, hbar]
  simp only [List.append_assoc, List.singleton_append]

theorem firstAt_bar (w : Nat) (t : Bytes) :
    Bytes.FirstAt Byte.bar (w + 1) (Bytes.spaces (w + 1) ++ Byte.bar :: t) :=
  Bytes.firstAt_append (Bytes.length_spaces (w + 1)) (Bytes.notMem_spaces (by decide) _) t

theorem drop_source (hw : (Bytes.ofInt line).length ≤ w) (t : Bytes) :
    (cell w line ++ Byte.bar :: t).drop (w + 2) = t := by
  have hlen : (cell w line ++ [Byte.bar]).length = w + 2 := by
    rw [List.length_append, length_cell hw]
    rfl
  rw [List.append_cons, List.drop_left' hlen]

theorem shows_layout (h : x.IsPlaced r) (hw : (Bytes.ofInt r.start.line).length ≤ w)
    (hbefore : before = [] ∨ before = [x.pos.text])
    (hafter : after = [] ∨ after = [Bytes.spaces w ++ "..."]) :
    (layout w x r before after).Shows w x r := by
  obtain ⟨tail, htail, hunderline⟩ := r.exists_underline_eq
  have hcell : Bytes.FirstAt Byte.bar (w + 1) (cell w r.start.line ++ Byte.bar :: x.source) :=
    Bytes.firstAt_append (length_cell hw) (notMem_cell (by decide) (by decide) (by decide) _ _) _
  refine ⟨hbefore, hafter, ⟨?_, ?_, fun hmessage => ?_⟩, ?_, rfl, List.take_left' (length_cell hw),
    drop_source hw x.source, ⟨?_, ?_⟩, ?_⟩
  · exact Bytes.oneLine_append.2 ⟨Bytes.notMem_spaces (by decide) _, by decide⟩
  · exact Bytes.oneLine_append.2 ⟨notMem_cell (by decide) (by decide) (by decide) _ _,
      Bytes.oneLine_cons.2 ⟨by decide, h.source.2⟩⟩
  · simp only [layout, Bytes.oneLine_append]
    exact ⟨notMem_margin (by decide) (by decide) w r, ⟨hunderline, by decide⟩, hmessage⟩
  · simp only [List.forall_mem_cons, layout, margin, List.append_assoc, List.cons_append]
    exact ⟨firstAt_bar w [], hcell, firstAt_bar w _, fun _ h => absurd h List.not_mem_nil⟩
  · rw [layout, htail]
    exact Bytes.firstAt_append (length_margin h.start.1 w)
      (notMem_margin (by decide) (by decide) w r) _
  · have hcol : w + 1 + r.start.col.toNat = w + 2 + (r.start.col.toNat - 1) := by
      have := h.start.1
      omega
    rw [hcol, ← List.getElem?_drop, layout, drop_source hw]
  · rw [layout, List.drop_left' (length_margin h.start.1 w), Range.underline_eq h.start h.stop]

end Excerpt

/-! ## Diagnostics -/

namespace Diagnostic

variable {d : Diagnostic}

/-- The gutter is as wide as the longest number of a line. -/
theorem isGreatest_gutter (h : d.details ≠ []) :
    IsGreatest {n | ∃ x ∈ d.details, (Bytes.ofInt x.pos.line).length = n} d.gutter := by
  have hne : (d.details.map fun x => (Bytes.ofInt x.pos.line).length) ≠ [] := by simpa using h
  obtain ⟨m, hm⟩ := Option.ne_none_iff_exists'.1 (mt List.max?_eq_none_iff.1 hne)
  have hgutter : d.gutter = m := by
    rw [gutter, List.foldl_max, hm, Option.getD_some]
    exact Nat.max_eq_right (Nat.zero_le m)
  obtain ⟨hmem, hle⟩ := List.max?_eq_some_iff.1 hm
  rw [hgutter]
  refine ⟨List.mem_map.1 hmem, ?_⟩
  rintro n ⟨x, hx, rfl⟩
  exact hle _ (List.mem_map_of_mem hx)

theorem exists_excerpts (load : Bytes → Bytes) {w : Nat} {ds : List Detail}
    (hds : ∀ x ∈ ds, (∃ r, x.IsPlaced r) ∧ (Bytes.ofInt x.pos.line).length ≤ w)
    (shown : Option Bytes) :
    ∃ es : List Excerpt,
      List.Forall₂ (fun x e => ∃ r, x.range = some r ∧ e.Shows w x r) ds es ∧
      excerpts load w shown ds = es.flatMap Excerpt.rows := by
  induction ds generalizing shown with
  | nil => exact ⟨[], .nil, rfl⟩
  | cons x ds ih =>
    obtain ⟨⟨⟨r, hr⟩, hw⟩, hds⟩ := List.forall_mem_cons.1 hds
    obtain ⟨es, hes, hrows⟩ := ih hds (some x.pos.file)
    rw [Detail.pos, hr.range, Option.getD_some] at hw
    refine ⟨Excerpt.layout w x r (if shown = some x.pos.file then [] else [x.pos.text])
      (if ds.isEmpty then [] else [Bytes.spaces w ++ "..."]) :: es,
      .cons ⟨r, hr.range, Excerpt.shows_layout hr hw ?_ ?_⟩ hes, ?_⟩
    · split_ifs <;> simp
    · split_ifs <;> simp
    · rw [excerpts, hrows, List.flatMap_cons, Excerpt.rows_layout hr]

/-- Carets stand under their columns. The text of a diagnostic with details that carry their lines
    is one excerpt for each of them, in their order, and the remarks. In all rows of the excerpts
    the bar is at the same offset, which is given by the longest number of a line, and the carets
    are at the offsets at which the row above shows the columns of the range. -/
theorem explain_aligned (load : Bytes → Bytes) (hne : d.details ≠ [])
    (h : ∀ x ∈ d.details, ∃ r, x.IsPlaced r) :
    ∃ (w : Nat) (es : List Excerpt),
      IsGreatest {n | ∃ x ∈ d.details, (Bytes.ofInt x.pos.line).length = n} w ∧
      List.Forall₂ (fun x e => ∃ r, x.range = some r ∧ e.Shows w x r) d.details es ∧
      d.explain load = (es.flatMap Excerpt.rows ++ d.remarks w).flatMap (· ++ [Byte.lf]) := by
  have hgutter := isGreatest_gutter hne
  obtain ⟨es, hes, hrows⟩ :=
    exists_excerpts load (fun x hx => ⟨h x hx, hgutter.2 ⟨x, hx, rfl⟩⟩) none
  refine ⟨d.gutter, es, hgutter, hes, ?_⟩
  rw [explain, rows, hrows]

/-- A diagnostic about two lines of two files, whose numbers have one and three digits. The second
    range is one column wide and goes beyond its line. -/
def acrossFiles : Diagnostic where
  details := [⟨some (.onLine "a" 7 3 6), "first", "%p#\x7bx"⟩,
    ⟨some (.onLine "b" 120 4 5), "then", "=x"⟩]
  kind := some .indentation
  hint := "indent"

theorem explain_aligned_acrossFiles :
    (∃ (w : Nat) (es : List Excerpt),
      IsGreatest {n | ∃ x ∈ acrossFiles.details, (Bytes.ofInt x.pos.line).length = n} w ∧
      List.Forall₂ (fun x e => ∃ r, x.range = some r ∧ e.Shows w x r) acrossFiles.details es ∧
      acrossFiles.explain (fun _ => []) =
        (es.flatMap Excerpt.rows ++ acrossFiles.remarks w).flatMap (· ++ [Byte.lf])) ∧
    acrossFiles.explain (fun _ => []) =
      ("a:7:3\n    |\n  7 |%p#\x7bx\n    |  ^^^ first\n   ...\n" ++
        "b:120:4\n    |\n120 |=x\n    |   ^~~~ then\n    = indentation error\n" ++
        "    |\n    = hint: indent\n" : Bytes) := by
  have hplaced : ∀ x ∈ acrossFiles.details, ∃ r, x.IsPlaced r := by
    intro x hx
    rcases List.mem_cons.1 hx with rfl | hx
    · exact ⟨_, rfl, by decide, by decide, by decide +kernel⟩
    · rw [List.mem_singleton.1 hx]
      exact ⟨_, rfl, by decide, by decide, by decide +kernel⟩
  exact ⟨explain_aligned _ (by decide +kernel) hplaced, by decide +kernel⟩

end Diagnostic

end IndentMarkup
