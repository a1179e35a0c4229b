import IndentMarkup.Proofs.SinglePass
import Mathlib.Data.List.DropRight

/-!
# How lines are placed

A source is cut at its line feeds, so the lines of two sources that are put together with a line
feed between them are those of the first and then those of the second (`Line.raws_append`). What
is left to say is at which depth each of them is placed. That depends on the lines before it only
through the unit of indentation, which the first indented line decides (`IndentUnit.inferred?`):
lines may be placed with that unit from the beginning, and with any unit if none of them is
indented (`Line.placeAll_infer`).

With a given unit, a line is at depth `k` if it is indented by that unit `k` times
(`Line.place_eq_ok_iff`), so a line that is indented by the unit once more is one level deeper
(`Line.placeAll_indented`).
-/

namespace IndentMarkup

/-! ## Pieces of texts -/

namespace Bytes

variable {t : Bytes}

theorem pieces_eq_splitOn (sep : UInt8) (t : Bytes) : pieces sep t = t.splitOn sep := by
  induction t with
  | nil => rfl
  | cons b t ih =>
    have hcons : (b :: t).splitOn sep =
        if b = sep then [] :: t.splitOn sep else (t.splitOn sep).modifyHead (b :: ·) := by
      simp only [List.splitOn, List.splitOnP_cons_eq_if_modifyHead, beq_iff_eq]
    rw [pieces, List.foldr_cons, ← pieces, ih, hcons]

theorem pieces_ne_nil (sep : UInt8) (t : Bytes) : pieces sep t ≠ [] := by
  rw [pieces_eq_splitOn]
  exact List.splitOn_ne_nil _ _

theorem pieces_append (sep : UInt8) (s t : Bytes) :
    pieces sep (s ++ sep :: t) = pieces sep s ++ pieces sep t := by
  simp only [pieces_eq_splitOn, List.splitOn]
  exact List.splitOnP_append_cons s t (beq_self_eq_true sep)

/-- Texts that are put together are cut apart again. -/
theorem pieces_join {sep : UInt8} {ts : List Bytes} (hts : ts ≠ []) (h : ∀ t ∈ ts, sep ∉ t) :
    pieces sep (join [sep] ts) = ts := by
  rw [pieces_eq_splitOn, join, List.splitOn_intercalate _ h hts]

theorem pieces_of_notMem {sep : UInt8} (h : sep ∉ t) : pieces sep t = [t] := by
  simpa [join] using pieces_join (List.cons_ne_nil t []) (by simpa using h)

theorem pieces_of_oneLine (h : t.OneLine) : pieces Byte.lf t = [t] := pieces_of_notMem h

theorem join_append {sep : Bytes} {ss ts : List Bytes} (hss : ss ≠ []) (hts : ts ≠ []) :
    join sep (ss ++ ts) = join sep ss ++ (sep ++ join sep ts) := by
  obtain ⟨s, ss, rfl⟩ := List.exists_cons_of_ne_nil hss
  obtain ⟨t, ts, rfl⟩ := List.exists_cons_of_ne_nil hts
  rw [List.cons_append, join_cons, join_cons, join_cons, List.flatMap_append, List.flatMap_cons]
  simp only [List.append_assoc]

theorem dropEnd_concat (t : Bytes) (b c : UInt8) :
    dropEnd (t ++ [b]) [c] = if b = c then t else t ++ [b] := by
  have hends : endsWith (t ++ [b]) [c] = decide (b = c) := by
    rw [endsWith, Bool.eq_iff_iff, List.isSuffixOf_iff_suffix, decide_eq_true_eq]
    refine ⟨fun h => ?_, fun h => h ▸ List.suffix_append t [b]⟩
    obtain ⟨u, hu⟩ := h
    exact (List.singleton_inj.1 (List.append_inj_right' hu rfl)).symm
  simp [dropEnd, hends]

theorem dropEnd_append (s : Bytes) (ht : t ≠ []) (c : UInt8) :
    dropEnd (s ++ t) [c] = s ++ dropEnd t [c] := by
  obtain ⟨t', b, rfl⟩ := (List.eq_nil_or_concat t).resolve_left ht
  rw [List.concat_eq_append, ← List.append_assoc, dropEnd_concat, dropEnd_concat]
  split_ifs <;> simp

end Bytes

namespace Line

theorem raws_eq {src : Bytes} (h : src ≠ []) :
    raws src = (Bytes.pieces Byte.lf src).map (Bytes.dropEnd · [Byte.cr]) := by
  rw [raws, if_neg (by simpa using h)]

/-- The lines of two sources that are put together with a line feed between them. -/
theorem raws_append {a b : Bytes} (ha : a ≠ []) (hb : b ≠ []) :
    raws (a ++ Byte.lf :: b) = raws a ++ raws b := by
  have hab : a ++ Byte.lf :: b ≠ [] := List.append_ne_nil_of_left_ne_nil ha _
  rw [raws_eq ha, raws_eq hb, raws_eq hab, Bytes.pieces_append, List.map_append]

end Line

/-! ## Units -/

namespace Line

/-- What a line is indented by, which is nothing if the line is blank. -/
def lead (raw : Bytes) : Bytes := (Bytes.dropTrailingBlanks raw).takeWhile Bytes.isBlank

/-- The text of a line, without the blanks around it. -/
def body (raw : Bytes) : Bytes := Bytes.dropBlanks (Bytes.dropTrailingBlanks raw)

/-- The line `raw` at the depth `k`. -/
def placed (file : Bytes) (number k : Nat) (raw : Bytes) : Line :=
  ⟨file, number, k, (lead raw).length, body raw, raw⟩

end Line

namespace IndentUnit

/-- What a line at the depth `k` is indented by. -/
def lead (u : IndentUnit) (k : Nat) : Bytes := List.replicate (k * u.width) u.byte

/-- The unit that a line decides, if it is indented. -/
def ofRaw? (raw : Bytes) : Option IndentUnit :=
  if Line.lead raw = [] then none else some (ofLead (Line.lead raw))

/-- The unit that the first indented one of some lines decides, if there is one. -/
def inferred? (raws : List Bytes) : Option IndentUnit := raws.findSome? ofRaw?

theorem or_inferred?_cons (unit : Option IndentUnit) (raw : Bytes) (raws : List Bytes) :
    unit.or (inferred? (raw :: raws)) = (unit.or (ofRaw? raw)).or (inferred? raws) := by
  rw [Option.or_assoc, inferred?, List.findSome?_cons]
  cases ofRaw? raw <;> rfl

theorem isBlank_byte (u : IndentUnit) : Bytes.isBlank u.byte := by
  cases u <;> rfl

theorem isBlank_of_mem_lead {u : IndentUnit} {k : Nat} {b : UInt8} (h : b ∈ u.lead k) :
    Bytes.isBlank b := by
  rw [List.eq_of_mem_replicate h]
  exact u.isBlank_byte

/-- Blanks that are not mixed are all the same. -/
theorem eq_byte_of_mem {u : IndentUnit} {t : Bytes} (hblank : ∀ b ∈ t, Bytes.isBlank b)
    (hmixed : ¬(Byte.tab ∈ t ∧ Byte.space ∈ t)) (hu : u.byte ∈ t) : ∀ b ∈ t, b = u.byte := by
  intro b hb
  have hb' : b = Byte.space ∨ b = Byte.tab := by simpa [Bytes.isBlank] using hblank b hb
  cases u <;> rcases hb' with rfl | rfl
  · exact absurd ⟨hu, hb⟩ hmixed
  · rfl
  · rfl
  · exact absurd ⟨hb, hu⟩ hmixed

/-- Blanks are at the depth `k` if they are the unit, `k` times. -/
theorem level_eq_ok_iff {u u' : IndentUnit} (hu : 0 < u.width) {t : Bytes} {k : Nat}
    (ht : t ≠ []) (hblank : ∀ b ∈ t, Bytes.isBlank b) :
    level (some u) t = .ok (k, u') ↔ u' = u ∧ t = u.lead k := by
  rw [level, Option.getD_some]
  refine ⟨fun h => ?_, ?_⟩
  · split_ifs at h with hmixed hforeign huneven
    cases h
    have hwidth : t.length / u.width * u.width = t.length :=
      Nat.div_mul_cancel (Nat.dvd_of_mod_eq_zero (not_not.1 huneven))
    refine ⟨rfl, List.eq_replicate_iff.2 ⟨hwidth.symm, ?_⟩⟩
    exact eq_byte_of_mem hblank hmixed hforeign
  · rintro ⟨rfl, rfl⟩
    have hk : k * u'.width ≠ 0 := by simpa [lead] using ht
    have hlength : (u'.lead k).length = k * u'.width := List.length_replicate
    have hmixed : ¬(Byte.tab ∈ u'.lead k ∧ Byte.space ∈ u'.lead k) := by
      rintro ⟨htab, hspace⟩
      exact absurd ((List.eq_of_mem_replicate htab).trans (List.eq_of_mem_replicate hspace).symm)
        (by decide)
    have hforeign : ¬u'.byte ∉ u'.lead k := not_not.2 (List.mem_replicate.2 ⟨hk, rfl⟩)
    simp only [hmixed, hforeign, hlength, Nat.mul_mod_left, Nat.mul_div_cancel k hu, if_false,
      ne_eq, not_true_eq_false]

theorem width_pos_of_ofRaw? {raw : Bytes} {u : IndentUnit} (h : ofRaw? raw = some u) :
    0 < u.width := by
  rw [ofRaw?] at h
  split_ifs at h with hlead
  cases h
  rw [ofLead]
  split_ifs
  · exact Nat.one_pos
  · exact List.length_pos_iff.2 hlead

theorem width_pos_of_inferred? {raws : List Bytes} {u : IndentUnit}
    (h : inferred? raws = some u) : 0 < u.width := by
  obtain ⟨raw, -, hraw⟩ := List.exists_of_findSome?_eq_some h
  exact width_pos_of_ofRaw? hraw

end IndentUnit

/-! ## Lines with and without a unit -/

namespace Line

variable {file raw : Bytes} {unit unit' : Option IndentUnit} {number : Nat} {raws : List Bytes}
  {l : Line} {ls : List Line}

theorem isBlank_of_mem_lead {b : UInt8} (h : b ∈ lead raw) : Bytes.isBlank b :=
  List.mem_takeWhile_imp h

theorem place_unindented (h : lead raw = []) (file : Bytes) (unit : Option IndentUnit)
    (number : Nat) : place file unit number raw = .ok (placed file number 0 raw, unit) :=
  if_pos (List.isEmpty_iff.2 h)

theorem place_indented (h : lead raw ≠ []) (file : Bytes) (unit : Option IndentUnit)
    (number : Nat) :
    place file unit number raw =
      match IndentUnit.level unit (lead raw) with
      | .ok (k, u) => .ok (placed file number k raw, some u)
      | .error p =>
        .error (p.diagnostic (.onLine file number 1 ((lead raw).length + 1)) raw) :=
  if_neg (h ∘ List.isEmpty_iff.1)

/-- A line that is placed is the given one, and decides the unit if there is none yet. -/
theorem place_eq_ok (h : place file unit number raw = .ok (l, unit')) :
    l = placed file number l.depth raw ∧ unit' = unit.or (IndentUnit.ofRaw? raw) := by
  by_cases hlead : lead raw = []
  · rw [place_unindented hlead] at h
    cases h
    rw [IndentUnit.ofRaw?, if_pos hlead, Option.or_none]
    exact ⟨rfl, rfl⟩
  · rw [place_indented hlead] at h
    split at h
    · rename_i k u hk
      cases h
      refine ⟨rfl, ?_⟩
      rw [IndentUnit.ofRaw?, if_neg hlead]
      rw [IndentUnit.level] at hk
      split_ifs at hk
      cases hk
      cases unit <;> rfl
    · cases h

/-- With a given unit, a line is at the depth `k` if it is indented by the unit `k` times. -/
theorem place_eq_ok_iff {u : IndentUnit} (hu : 0 < u.width) :
    place file (some u) number raw = .ok (l, unit') ↔
      unit' = some u ∧ ∃ k, lead raw = u.lead k ∧ l = placed file number k raw := by
  by_cases hlead : lead raw = []
  · have hzero : ∀ k, lead raw = u.lead k ↔ k = 0 := fun k => by
      rw [hlead, IndentUnit.lead, eq_comm, List.replicate_eq_nil_iff, Nat.mul_eq_zero,
        or_iff_left hu.ne']
    rw [place_unindented hlead]
    simp only [hzero, exists_eq_left, Except.ok.injEq, Prod.mk.injEq]
    rw [and_comm, eq_comm, @eq_comm _ l]
  · rw [place_indented hlead]
    refine ⟨fun h => ?_, ?_⟩
    · split at h
      · rename_i k u' hk
        cases h
        obtain ⟨rfl, hk⟩ :=
          (IndentUnit.level_eq_ok_iff hu hlead fun _ => isBlank_of_mem_lead).1 hk
        exact ⟨rfl, k, hk, rfl⟩
      · cases h
    · rintro ⟨rfl, k, hk, rfl⟩
      rw [(IndentUnit.level_eq_ok_iff hu hlead fun _ => isBlank_of_mem_lead).2 ⟨rfl, hk⟩]

theorem placeAll_cons_eq_ok_iff :
    placeAll file unit number (raw :: raws) = .ok ls ↔
      ∃ l unit' ls', place file unit number raw = .ok (l, unit') ∧
        placeAll file unit' (number + 1) raws = .ok ls' ∧ ls = l :: ls' := by
  refine ⟨fun h => ?_, ?_⟩
  · obtain ⟨⟨l, unit'⟩, hl, h⟩ := bind_eq_ok_iff.1 h
    obtain ⟨ls', hls, h⟩ := bind_eq_ok_iff.1 h
    exact ⟨l, unit', ls', hl, hls, (Except.ok.inj h).symm⟩
  · rintro ⟨l, unit', ls', hl, hls, rfl⟩
    exact bind_eq_ok_iff.2 ⟨(l, unit'), hl, bind_eq_ok_iff.2 ⟨ls', hls, rfl⟩⟩

theorem place_relocate (h : place file unit number raw = .ok (l, unit')) (file' : Bytes)
    (number' : Nat) :
    place file' unit number' raw = .ok (placed file' number' l.depth raw, unit') := by
  by_cases hlead : lead raw = []
  · rw [place_unindented hlead] at h ⊢
    cases h
    rfl
  · rw [place_indented hlead] at h ⊢
    split at h
    · cases h
      rfl
    · cases h

/-- The depths and texts of lines do not depend on where the lines stand. -/
theorem placeAll_relocate (h : placeAll file unit number raws = .ok ls) (file' : Bytes)
    (number' : Nat) :
    ∃ ls', placeAll file' unit number' raws = .ok ls' ∧ ls'.map item = ls.map item := by
  induction raws generalizing unit number number' ls with
  | nil =>
    cases h
    exact ⟨[], rfl, rfl⟩
  | cons raw raws ih =>
    obtain ⟨l, unit', ls, hl, hls, rfl⟩ := placeAll_cons_eq_ok_iff.1 h
    obtain ⟨ls', hls', hitems⟩ := ih hls (number' + 1)
    refine ⟨placed file' number' l.depth raw :: ls', ?_, ?_⟩
    · exact placeAll_cons_eq_ok_iff.2 ⟨_, _, _, place_relocate hl file' number', hls', rfl⟩
    · rw [List.map_cons, List.map_cons, hitems, (place_eq_ok hl).1]
      rfl

/-- A line of a source knows the file. -/
theorem file_of_placeAll (h : placeAll file unit number raws = .ok ls) :
    ∀ l ∈ ls, l.file = file := by
  induction raws generalizing unit number ls with
  | nil =>
    cases h
    exact fun _ hl => absurd hl List.not_mem_nil
  | cons raw raws ih =>
    obtain ⟨l, unit', ls, hl, hls, rfl⟩ := placeAll_cons_eq_ok_iff.1 h
    refine List.forall_mem_cons.2 ⟨?_, ih hls⟩
    rw [(place_eq_ok hl).1]
    rfl

/-- Lines may be placed with the unit that they decide, and with any if they decide none. -/
theorem placeAll_infer (h : IndentUnit.inferred? raws = none ∨ IndentUnit.inferred? raws = unit)
    (file : Bytes) (number : Nat) :
    placeAll file unit number raws = placeAll file none number raws := by
  induction raws generalizing number with
  | nil => rfl
  | cons raw raws ih =>
    rw [placeAll, placeAll]
    by_cases hlead : lead raw = []
    · have hraw : IndentUnit.ofRaw? raw = none := if_pos hlead
      rw [IndentUnit.inferred?, List.findSome?_cons, hraw] at h
      rw [place_unindented hlead, place_unindented hlead]
      exact congrArg (· >>= fun ls => pure (placed file number 0 raw :: ls)) (ih h (number + 1))
    · -- The first indented line decides the unit that it is placed with.
      have hraw : IndentUnit.ofRaw? raw = some (.ofLead (lead raw)) := if_neg hlead
      rw [IndentUnit.inferred?, List.findSome?_cons, hraw] at h
      obtain rfl := h.resolve_left (Option.some_ne_none _)
      rw [place_indented hlead, place_indented hlead]
      rfl

/-- Lines after others are placed with the unit that those have, if they have one. -/
theorem placeAll_append {raws' : List Bytes} {ls' : List Line}
    (h : placeAll file unit number raws = .ok ls)
    (h' : placeAll file (unit.or (IndentUnit.inferred? raws)) (number + raws.length) raws' =
      .ok ls') :
    placeAll file unit number (raws ++ raws') = .ok (ls ++ ls') := by
  induction raws generalizing unit number ls with
  | nil =>
    cases h
    simpa [IndentUnit.inferred?] using h'
  | cons raw raws ih =>
    obtain ⟨l, unit', ls, hl, hls, rfl⟩ := placeAll_cons_eq_ok_iff.1 h
    obtain rfl := (place_eq_ok hl).2
    rw [IndentUnit.or_inferred?_cons, List.length_cons, ← Nat.succ_add_eq_add_succ] at h'
    exact placeAll_cons_eq_ok_iff.2 ⟨_, _, _, hl, ih hls h', rfl⟩

end Line

/-! ## Indenting lines -/

namespace Bytes

/-- The line `raw`, indented by `lead` unless it is blank. -/
def indentLine (lead raw : Bytes) : Bytes := if raw.all isBlank then raw else lead ++ raw

/-- The source with `lead` in front of every line that is not blank. -/
def indentLines (lead src : Bytes) : Bytes :=
  join [Byte.lf] ((pieces Byte.lf src).map fun p =>
    if (dropEnd p [Byte.cr]).all isBlank then p else lead ++ p)

theorem dropTrailingBlanks_eq_nil_iff {t : Bytes} : dropTrailingBlanks t = [] ↔ t.all isBlank := by
  rw [List.all_eq_true]
  exact List.rdropWhile_eq_nil_iff

theorem dropTrailingBlanks_append {s t : Bytes} (ht : ¬t.all isBlank) :
    dropTrailingBlanks (s ++ t) = s ++ dropTrailingBlanks t := by
  have hne : ¬(t.reverse.dropWhile isBlank).isEmpty := fun h =>
    ht (dropTrailingBlanks_eq_nil_iff.1 (by rw [dropTrailingBlanks, List.isEmpty_iff.1 h]; rfl))
  rw [dropTrailingBlanks, List.reverse_append, List.dropWhile_append, if_neg hne,
    List.reverse_append, List.reverse_reverse, dropTrailingBlanks]

/-- The lines of a source that is indented. -/
theorem map_pieces_indentLines (lead : Bytes) {src : Bytes} (hlead : lead.OneLine) :
    (pieces Byte.lf (indentLines lead src)).map (dropEnd · [Byte.cr]) =
      ((pieces Byte.lf src).map (dropEnd · [Byte.cr])).map (indentLine lead) := by
  have hne : pieces Byte.lf src ≠ [] := by
    rw [pieces_eq_splitOn]
    exact List.splitOnP_ne_nil _ _
  rw [indentLines, pieces_join (by simpa using hne), List.map_map, List.map_map]
  · refine List.map_congr_left fun p _ => ?_
    simp only [Function.comp_apply, indentLine]
    split_ifs with hp
    · rfl
    · refine dropEnd_append lead (fun h => hp ?_) Byte.cr
      rw [h]
      rfl
  · refine List.forall_mem_map.2 fun p hp => ?_
    split_ifs
    · exact oneLine_of_mem_pieces hp
    · exact oneLine_append.2 ⟨hlead, oneLine_of_mem_pieces hp⟩

end Bytes

namespace IndentUnit

variable {u : IndentUnit}

theorem oneLine_lead (u : IndentUnit) (k : Nat) : (u.lead k).OneLine := fun h => by
  have := isBlank_of_mem_lead h
  contradiction

theorem lead_zero (u : IndentUnit) : u.lead 0 = [] := by
  rw [lead, Nat.zero_mul, List.replicate_zero]

theorem lead_succ (u : IndentUnit) (k : Nat) : u.lead (k + 1) = u.lead 1 ++ u.lead k := by
  rw [lead, lead, lead, List.replicate_append_replicate, ← Nat.add_mul, Nat.add_comm]

/-- A line that is indented by a unit once decides that unit. -/
theorem ofLead_lead (hu : 0 < u.width) : u.lead 1 ≠ [] ∧ ofLead (u.lead 1) = u := by
  cases u with
  | tab => exact ⟨List.cons_ne_nil _ _, rfl⟩
  | spaces n =>
    obtain ⟨m, rfl⟩ := Nat.exists_eq_succ_of_ne_zero hu.ne'
    have hlead : lead (.spaces (m + 1)) 1 = Byte.space :: List.replicate m Byte.space := by
      rw [lead, Nat.one_mul]
      rfl
    have hspace : some Byte.space ≠ some Byte.tab := by decide
    rw [hlead]
    refine ⟨List.cons_ne_nil _ _, ?_⟩
    rw [ofLead, List.head?_cons, if_neg hspace, List.length_cons, List.length_replicate]

end IndentUnit

namespace Line

variable {file raw s : Bytes} {u : IndentUnit} {number : Nat} {raws : List Bytes} {ls : List Line}

theorem body_eq_nil_iff : body raw = [] ↔ raw.all Bytes.isBlank := by
  rw [← Bytes.dropTrailingBlanks_eq_nil_iff, body, Bytes.dropBlanks, List.dropWhile_eq_nil_iff]
  refine ⟨fun h => ?_, fun h => ?_⟩
  · by_contra hne
    exact List.rdropWhile_last_not Bytes.isBlank raw hne (h _ (List.getLast_mem hne))
  · rw [h]
    exact fun _ hb => absurd hb List.not_mem_nil

theorem lead_of_blank (h : raw.all Bytes.isBlank) : lead raw = [] := by
  rw [lead, Bytes.dropTrailingBlanks_eq_nil_iff.2 h, List.takeWhile_nil]

theorem lead_append (hs : ∀ b ∈ s, Bytes.isBlank b) (hraw : ¬raw.all Bytes.isBlank) :
    lead (s ++ raw) = s ++ lead raw := by
  rw [lead, Bytes.dropTrailingBlanks_append hraw, List.takeWhile_append_of_pos hs, lead]

theorem body_append (hs : ∀ b ∈ s, Bytes.isBlank b) (hraw : ¬raw.all Bytes.isBlank) :
    body (s ++ raw) = body raw := by
  rw [body, Bytes.dropTrailingBlanks_append hraw, Bytes.dropBlanks,
    List.dropWhile_append_of_pos hs, body, Bytes.dropBlanks]

theorem isBlank_placed {k : Nat} : (placed file number k raw).isBlank = raw.all Bytes.isBlank := by
  rw [isBlank, Bool.eq_iff_iff, List.isEmpty_iff]
  exact body_eq_nil_iff

theorem content_cons (l : Line) (ls : List Line) :
    content (l :: ls) = if l.isBlank then content ls else l :: content ls := by
  rw [content, List.filter_cons]
  cases l.isBlank <;> rfl

theorem content_append (ls ms : List Line) : content (ls ++ ms) = content ls ++ content ms :=
  List.filter_append ls ms

theorem map_item_content (ls : List Line) :
    (content ls).map item = (ls.map item).filter fun x => !x.2.isEmpty := by
  rw [List.filter_map]
  rfl

/-- Lines that are indented by the unit once more are one level deeper. -/
theorem placeAll_indented (hu : 0 < u.width) (h : placeAll file (some u) number raws = .ok ls)
    (number' : Nat) :
    ∃ ls', placeAll file (some u) number' (raws.map (Bytes.indentLine (u.lead 1))) = .ok ls' ∧
      (content ls').map item = (content ls).map fun l => (l.depth + 1, l.text) := by
  induction raws generalizing number number' ls with
  | nil =>
    cases h
    exact ⟨[], rfl, rfl⟩
  | cons raw raws ih =>
    obtain ⟨l, unit', ls, hl, hls, rfl⟩ := placeAll_cons_eq_ok_iff.1 h
    obtain ⟨rfl, k, hk, rfl⟩ := (place_eq_ok_iff hu).1 hl
    obtain ⟨ls', hls', hitems⟩ := ih hls (number' + 1)
    -- A blank line is left as it is, at whatever depth, as it has no part in the content.
    by_cases hblank : raw.all Bytes.isBlank
    · refine ⟨placed file number' k raw :: ls', ?_, ?_⟩
      · rw [List.map_cons, Bytes.indentLine, if_pos hblank]
        exact placeAll_cons_eq_ok_iff.2
          ⟨_, _, _, (place_eq_ok_iff hu).2 ⟨rfl, k, hk, rfl⟩, hls', rfl⟩
      · rw [content_cons, content_cons, isBlank_placed, isBlank_placed, if_pos hblank,
          if_pos hblank, hitems]
    · have hlead : lead (u.lead 1 ++ raw) = u.lead (k + 1) := by
        rw [lead_append (fun _ => IndentUnit.isBlank_of_mem_lead) hblank, hk, ← u.lead_succ]
      have hblank' : ¬(u.lead 1 ++ raw).all Bytes.isBlank := by
        rw [List.all_append, Bool.and_eq_true]
        exact fun h => hblank h.2
      refine ⟨placed file number' (k + 1) (u.lead 1 ++ raw) :: ls', ?_, ?_⟩
      · rw [List.map_cons, Bytes.indentLine, if_neg hblank]
        exact placeAll_cons_eq_ok_iff.2
          ⟨_, _, _, (place_eq_ok_iff hu).2 ⟨rfl, k + 1, hlead, rfl⟩, hls', rfl⟩
      · rw [content_cons, content_cons, isBlank_placed, isBlank_placed, if_neg hblank,
          if_neg hblank', List.map_cons, List.map_cons, hitems]
        have hbody := body_append (fun _ => IndentUnit.isBlank_of_mem_lead (u := u) (k := 1)) hblank
        exact congrArg (fun t => (k + 1, t) :: _) hbody

/-- Lines of which the first is not indented decide the unit by which all of them are indented. -/
theorem inferred?_indented (hu : 0 < u.width) (h : placeAll file (some u) number raws = .ok ls)
    (hhead : ∀ l ∈ (content ls).head?, l.depth = 0) :
    IndentUnit.inferred? (raws.map (Bytes.indentLine (u.lead 1))) = none ∨
      IndentUnit.inferred? (raws.map (Bytes.indentLine (u.lead 1))) = some u := by
  induction raws generalizing number ls with
  | nil => exact .inl rfl
  | cons raw raws ih =>
    obtain ⟨l, unit', ls, hl, hls, rfl⟩ := placeAll_cons_eq_ok_iff.1 h
    obtain ⟨rfl, k, hk, rfl⟩ := (place_eq_ok_iff hu).1 hl
    rw [List.map_cons, Bytes.indentLine, IndentUnit.inferred?, List.findSome?_cons,
      IndentUnit.ofRaw?]
    rw [content_cons, isBlank_placed] at hhead
    split_ifs at hhead ⊢ with hblank hlead hlead
    · exact ih hls hhead
    · exact absurd (lead_of_blank hblank) hlead
    · rw [lead_append (fun _ => IndentUnit.isBlank_of_mem_lead) hblank] at hlead
      exact absurd (List.append_eq_nil_iff.1 hlead).1 (IndentUnit.ofLead_lead hu).1
    · -- The first line that is not blank is at depth 0, so it is indented by the unit alone.
      obtain rfl : k = 0 := hhead _ rfl
      rw [lead_append (fun _ => IndentUnit.isBlank_of_mem_lead) hblank, hk, u.lead_zero,
        List.append_nil, (IndentUnit.ofLead_lead hu).2]
      exact .inr rfl

end Line

end IndentMarkup
