import IndentMarkup.Proofs.Location

/-!
# Lines and their unit of indentation

A source can be cut into lines exactly if there is one unit of indentation for all of them, a tab
or as many spaces as its first indented line has, such that every line that is not blank is indented
by a multiple of it (`IndentUnit.Fits`). To find that out, the lines are placed one after the other
with the unit of those before. With the unit that all of them decide they are placed in the same
way, so that the order does not matter (`Line.exists_placeAll_iff`). If there is no such unit, the
first line that does not fit the unit of the lines before it is reported (`Line.Misfits`).

Nothing of a line is lost: it consists of what it is indented by, its text and some blanks
(`Line.eq_lead_append`).
-/

namespace IndentMarkup

namespace Line

/-! ## What lines are indented by -/

variable {file raw : Bytes} {raws : List Bytes} {unit : Option IndentUnit} {u : IndentUnit}
  {number : Nat}

/-- What the lines that are not blank are indented by. -/
def leads (raws : List Bytes) : List Bytes :=
  (raws.filter fun raw => !raw.all Bytes.isBlank).map (·.takeWhile Bytes.isBlank)

/-- What the first indented line that is not blank is indented by, if there is one. -/
def firstLead? (raws : List Bytes) : Option Bytes := (leads raws).find? (!·.isEmpty)

/-- A line is what it is indented by, its text and then blanks. -/
theorem eq_lead_append (raw : Bytes) :
    ∃ tail : Bytes, tail.all Bytes.isBlank ∧ raw = lead raw ++ body raw ++ tail := by
  refine ⟨(raw.reverse.takeWhile Bytes.isBlank).reverse, ?_, ?_⟩
  · rw [List.all_reverse, List.all_eq_true]
    exact fun b hb => List.mem_takeWhile_imp hb
  · rw [lead, body, Bytes.dropBlanks, List.takeWhile_append_dropWhile, Bytes.dropTrailingBlanks,
      ← List.reverse_append, List.takeWhile_append_dropWhile, List.reverse_reverse]

theorem not_isBlank_head_body {b : UInt8} (h : b ∈ (body raw).head?) : ¬Bytes.isBlank b := by
  have hhead := List.head?_dropWhile_not Bytes.isBlank (Bytes.dropTrailingBlanks raw)
  rw [← Bytes.dropBlanks, ← body, Option.mem_def.1 h] at hhead
  simpa using hhead

/-- What a line that is not blank is indented by are all the blanks at its beginning. -/
theorem lead_eq_takeWhile (h : ¬raw.all Bytes.isBlank) :
    lead raw = raw.takeWhile Bytes.isBlank := by
  obtain ⟨tail, -, hraw⟩ := eq_lead_append raw
  have hbody : body raw ≠ [] := fun hnil => h (body_eq_nil_iff.1 hnil)
  obtain ⟨b, t, hb⟩ := List.exists_cons_of_ne_nil hbody
  have hbare : ¬Bytes.isBlank b := not_isBlank_head_body (Option.mem_def.2 (congrArg _ hb))
  rw [hb, List.append_assoc, List.cons_append] at hraw
  nth_rewrite 2 [hraw]
  rw [List.takeWhile_append_of_pos fun _ hc => isBlank_of_mem_lead hc,
    List.takeWhile_cons_of_neg hbare, List.append_nil]

theorem leads_cons (raw : Bytes) (raws : List Bytes) :
    leads (raw :: raws) = if raw.all Bytes.isBlank then leads raws else lead raw :: leads raws := by
  rw [leads, List.filter_cons]
  split_ifs with hkeep hblank hblank
  · rw [hblank] at hkeep
    cases hkeep
  · rw [List.map_cons, lead_eq_takeWhile hblank, leads]
  · rfl
  · simp [hblank] at hkeep

theorem forall_mem_leads_iff {P : Bytes → Prop} (hnil : P []) (raws : List Bytes) :
    (∀ x ∈ leads raws, P x) ↔ ∀ raw ∈ raws, P (lead raw) := by
  induction raws with
  | nil => exact ⟨fun _ _ h => absurd h List.not_mem_nil, fun _ _ h => absurd h List.not_mem_nil⟩
  | cons raw raws ih =>
    rw [leads_cons, List.forall_mem_cons]
    split_ifs with hblank
    · rw [ih, lead_of_blank hblank, and_iff_right hnil]
    · rw [List.forall_mem_cons, ih]

theorem inferred?_eq (raws : List Bytes) :
    IndentUnit.inferred? raws = (firstLead? raws).map IndentUnit.ofLead := by
  induction raws with
  | nil => rfl
  | cons raw raws ih =>
    rw [IndentUnit.inferred?, List.findSome?_cons, IndentUnit.ofRaw?, firstLead?, leads_cons]
    by_cases hblank : raw.all Bytes.isBlank
    · rw [if_pos (lead_of_blank hblank), if_pos hblank]
      exact ih
    · rw [if_neg hblank, List.find?_cons]
      by_cases hlead : lead raw = []
      · simp only [hlead, if_true]
        exact ih
      · have hempty : (lead raw).isEmpty = false := by simpa using hlead
        rw [if_neg hlead, hempty]
        rfl

end Line

/-! ## Units that fit -/

/-- The unit fits some lines: it is one tab, or as many spaces as the first indented line has, and
    every line that is not blank is indented by a multiple of it. -/
structure IndentUnit.Fits (u : IndentUnit) (raws : List Bytes) : Prop where
  width_pos : 0 < u.width
  width_eq : ∀ n, u = .spaces n → ∀ lead ∈ Line.firstLead? raws, lead.length = n
  multiple : ∀ lead ∈ Line.leads raws, ∃ k, lead = List.replicate (k * u.width) u.byte

namespace IndentUnit

variable {u : IndentUnit} {raws : List Bytes} {lead : Bytes}

/-- A unit that fits is the one that the first indented line decides. -/
theorem Fits.eq_ofLead (h : u.Fits raws) (hlead : lead ∈ Line.firstLead? raws) :
    u = ofLead lead := by
  obtain ⟨k, hk⟩ := h.multiple lead (List.mem_of_find?_eq_some hlead)
  have hne : lead ≠ [] := by simpa using List.find?_some hlead
  have hhead : lead.head? = some u.byte := by
    rw [hk] at hne ⊢
    rw [List.head?_replicate, if_neg (by simpa using hne)]
  rw [ofLead, hhead]
  cases u with
  | tab => rfl
  | spaces n =>
    rw [h.width_eq n rfl lead hlead]
    rfl

/-- The unit that lines decide is the only one that may fit. -/
theorem fits_iff_of_inferred? (h : inferred? raws = some u) {v : IndentUnit} :
    v.Fits raws ↔ v = u ∧ ∀ raw ∈ raws, ∃ k, Line.lead raw = u.lead k := by
  rw [Line.inferred?_eq] at h
  obtain ⟨first, hfirst, rfl⟩ := Option.map_eq_some_iff.1 h
  have hwidth : 0 < (ofLead first).width :=
    width_pos_of_inferred? ((Line.inferred?_eq raws).trans h)
  have hmultiple := Line.forall_mem_leads_iff (P := fun x => ∃ k, x = (ofLead first).lead k)
    ⟨0, (lead_zero _).symm⟩ raws
  constructor
  · intro hv
    obtain rfl := hv.eq_ofLead hfirst
    exact ⟨rfl, hmultiple.1 hv.multiple⟩
  · rintro ⟨rfl, hraws⟩
    refine ⟨hwidth, fun n hn lead hlead => ?_, hmultiple.2 hraws⟩
    rw [Option.mem_def.1 hfirst] at hlead
    cases hlead
    rw [ofLead] at hn
    split_ifs at hn
    exact (IndentUnit.spaces.inj hn)

theorem lead_of_inferred? (h : inferred? raws = none) : ∀ raw ∈ raws, Line.lead raw = [] := by
  intro raw hraw
  have hnone := List.findSome?_eq_none_iff.1 h raw hraw
  by_contra hlead
  rw [ofRaw?, if_neg hlead] at hnone
  cases hnone

/-- Lines of which none is indented fit a tab. -/
theorem fits_tab_of_inferred? (h : inferred? raws = none) : tab.Fits raws := by
  refine ⟨Nat.one_pos, fun n hn => (nomatch hn), ?_⟩
  refine (Line.forall_mem_leads_iff ⟨0, rfl⟩ raws).2 fun raw hraw => ⟨0, ?_⟩
  rw [lead_of_inferred? h raw hraw]
  rfl

theorem Fits.lead_eq (h : u.Fits raws) : ∀ raw ∈ raws, ∃ k, Line.lead raw = u.lead k :=
  (Line.forall_mem_leads_iff ⟨0, (lead_zero u).symm⟩ raws).1 h.multiple

/-- Blanks that are not mixed are a multiple of the unit that they decide. -/
theorem exists_eq_lead_ofLead {t : Bytes} (ht : t ≠ []) (hblank : ∀ b ∈ t, Bytes.isBlank b)
    (hmixed : ¬(Byte.tab ∈ t ∧ Byte.space ∈ t)) :
    0 < (ofLead t).width ∧ ∃ k, t = (ofLead t).lead k := by
  obtain ⟨b, t', rfl⟩ := List.exists_cons_of_ne_nil ht
  have hb : b = Byte.space ∨ b = Byte.tab := by simpa [Bytes.isBlank] using hblank b
  have hmem : (ofLead (b :: t')).byte ∈ b :: t' := by
    rcases hb with rfl | rfl <;> exact List.mem_cons_self
  have hall := eq_byte_of_mem hblank hmixed hmem
  rcases hb with rfl | rfl
  · refine ⟨Nat.succ_pos _, 1, List.eq_replicate_iff.2 ⟨?_, hall⟩⟩
    exact (Nat.one_mul _).symm
  · refine ⟨Nat.one_pos, (Byte.tab :: t').length, List.eq_replicate_iff.2 ⟨?_, hall⟩⟩
    exact (Nat.mul_one _).symm

/-- A line that is indented by `t` cannot be placed if `t` mixes tabs and spaces, or is no multiple
    of the unit of the lines before. -/
theorem level_error_iff {unit : Option IndentUnit} (hunit : ∀ u ∈ unit, 0 < u.width) {t : Bytes}
    (ht : t ≠ []) (hblank : ∀ b ∈ t, Bytes.isBlank b) :
    (∃ p, level unit t = .error p) ↔
      Byte.tab ∈ t ∧ Byte.space ∈ t ∨ ∃ u ∈ unit, ∀ k, t ≠ u.lead k := by
  by_cases hmixed : Byte.tab ∈ t ∧ Byte.space ∈ t
  · refine ⟨fun _ => .inl hmixed, fun _ => ⟨.mixedIndent, ?_⟩⟩
    rw [level]
    exact if_pos hmixed
  · rw [or_iff_right hmixed]
    cases unit with
    | some u =>
      have hok : ∀ k u', level (some u) t = .ok (k, u') ↔ u' = u ∧ t = u.lead k := fun _ _ =>
        level_eq_ok_iff (hunit u rfl) ht hblank
      constructor
      · rintro ⟨p, hp⟩
        refine ⟨u, rfl, fun k hk => ?_⟩
        cases hp.symm.trans ((hok k u).2 ⟨rfl, hk⟩)
      · rintro ⟨_, ⟨⟩, hk⟩
        cases hl : level (some u) t with
        | error p => exact ⟨p, rfl⟩
        | ok r => exact absurd ((hok r.1 r.2).1 hl).2 (hk r.1)
    | none =>
      obtain ⟨hpos, k, hk⟩ := exists_eq_lead_ofLead ht hblank hmixed
      have hok : level none t = .ok (k, ofLead t) :=
        (level_eq_ok_iff hpos ht hblank).2 ⟨rfl, hk⟩
      constructor
      · rintro ⟨p, hp⟩
        cases hok.symm.trans hp
      · rintro ⟨u, hu, -⟩
        cases hu

end IndentUnit

namespace Line

variable {file raw : Bytes} {raws : List Bytes} {unit : Option IndentUnit} {u : IndentUnit}
  {number : Nat} {ls : List Line}

/-! ## Lines that are placed -/

theorem placeAll_of_fits (h : u.Fits raws) (file : Bytes) (number : Nat) :
    placeAll file none number raws = placeAll file (some u) number raws := by
  refine (placeAll_infer ?_ file number).symm
  cases hunit : IndentUnit.inferred? raws with
  | none => exact .inl rfl
  | some v => exact .inr (congrArg some ((IndentUnit.fits_iff_of_inferred? hunit).1 h).1.symm)

theorem exists_placeAll (hu : 0 < u.width) (h : ∀ raw ∈ raws, ∃ k, lead raw = u.lead k)
    (file : Bytes) (number : Nat) : ∃ ls, placeAll file (some u) number raws = .ok ls := by
  induction raws generalizing number with
  | nil => exact ⟨[], rfl⟩
  | cons raw raws ih =>
    obtain ⟨⟨k, hk⟩, h⟩ := List.forall_mem_cons.1 h
    obtain ⟨ls, hls⟩ := ih h (number + 1)
    have hplace : place file (some u) number raw = .ok (placed file number k raw, some u) :=
      (place_eq_ok_iff hu).2 ⟨rfl, k, hk, rfl⟩
    exact ⟨_, placeAll_cons_eq_ok_iff.2 ⟨_, _, ls, hplace, hls, rfl⟩⟩

/-- There is a line for each one that is written, at the depth that its indentation says. -/
theorem getElem?_placeAll (hu : 0 < u.width) (h : placeAll file (some u) number raws = .ok ls) :
    ls.length = raws.length ∧ ∀ i raw, raws[i]? = some raw →
      ∃ k, ls[i]? = some (placed file (number + i) k raw) ∧ lead raw = u.lead k := by
  induction raws generalizing number ls with
  | nil =>
    cases h
    exact ⟨rfl, fun i raw hraw => nomatch hraw⟩
  | cons raw raws ih =>
    obtain ⟨l, unit', ls, hl, hls, rfl⟩ := placeAll_cons_eq_ok_iff.1 h
    obtain ⟨rfl, k, hk, rfl⟩ := (place_eq_ok_iff hu).1 hl
    obtain ⟨hlength, hget⟩ := ih hls
    refine ⟨congrArg (· + 1) hlength, fun i raw' hraw => ?_⟩
    cases i with
    | zero =>
      cases hraw
      exact ⟨k, rfl, hk⟩
    | succ i =>
      obtain ⟨k', hk', hlead⟩ := hget i raw' hraw
      exact ⟨k', by rw [List.getElem?_cons_succ, hk', Nat.succ_add_eq_add_succ], hlead⟩

theorem exists_placeAll_iff :
    (∃ ls, placeAll file none number raws = .ok ls) ↔ ∃ u : IndentUnit, u.Fits raws := by
  constructor
  · rintro ⟨ls, hls⟩
    cases hunit : IndentUnit.inferred? raws with
    | none => exact ⟨.tab, IndentUnit.fits_tab_of_inferred? hunit⟩
    | some u =>
      refine ⟨u, (IndentUnit.fits_iff_of_inferred? hunit).2 ⟨rfl, fun raw hraw => ?_⟩⟩
      rw [← placeAll_infer (.inr hunit)] at hls
      obtain ⟨i, hi⟩ := List.mem_iff_getElem?.1 hraw
      obtain ⟨k, -, hk⟩ :=
        (getElem?_placeAll (IndentUnit.width_pos_of_inferred? hunit) hls).2 i raw hi
      exact ⟨k, hk⟩
  · rintro ⟨u, hu⟩
    obtain ⟨ls, hls⟩ := exists_placeAll hu.width_pos hu.lead_eq file number
    exact ⟨ls, (placeAll_of_fits hu file number).trans hls⟩

/-! ## Lines that do not fit -/

/-- A line that is not blank and cannot come after the lines `before`: it is indented by both tabs
    and spaces, or not by a multiple of the unit that those decide. -/
def Misfits (before : List Bytes) (raw : Bytes) : Prop :=
  ¬raw.all Bytes.isBlank ∧
    (Byte.tab ∈ raw.takeWhile Bytes.isBlank ∧ Byte.space ∈ raw.takeWhile Bytes.isBlank ∨
      ∃ first ∈ firstLead? before, ∀ k,
        raw.takeWhile Bytes.isBlank ≠ (IndentUnit.ofLead first).lead k)

theorem misfits_iff {before : List Bytes} :
    Misfits before raw ↔
      Byte.tab ∈ lead raw ∧ Byte.space ∈ lead raw ∨
        ∃ u ∈ IndentUnit.inferred? before, ∀ k, lead raw ≠ u.lead k := by
  by_cases hblank : raw.all Bytes.isBlank
  · rw [lead_of_blank hblank]
    refine ⟨fun h => absurd hblank h.1, ?_⟩
    rintro (⟨h, -⟩ | ⟨u, -, h⟩)
    · exact absurd h List.not_mem_nil
    · exact absurd u.lead_zero.symm (h 0)
  · rw [Misfits, and_iff_right hblank, lead_eq_takeWhile hblank, inferred?_eq]
    simp

theorem place_error_iff {before : List Bytes} :
    (∃ d, place file (IndentUnit.inferred? before) number raw = .error d) ↔
      Misfits before raw := by
  rw [misfits_iff]
  by_cases hlead : lead raw = []
  · rw [place_unindented hlead, hlead]
    refine ⟨fun ⟨d, hd⟩ => (nomatch hd), ?_⟩
    rintro (⟨h, -⟩ | ⟨u, -, h⟩)
    · exact absurd h List.not_mem_nil
    · exact absurd u.lead_zero.symm (h 0)
  · rw [place_indented hlead, ← IndentUnit.level_error_iff
      (fun u hu => IndentUnit.width_pos_of_inferred? hu) hlead fun _ => isBlank_of_mem_lead]
    cases IndentUnit.level (IndentUnit.inferred? before) (lead raw) with
    | ok r => exact ⟨fun ⟨d, hd⟩ => (nomatch hd), fun ⟨p, hp⟩ => (nomatch hp)⟩
    | error p => exact ⟨fun _ => ⟨p, rfl⟩, fun _ => ⟨_, rfl⟩⟩

/-- Lines that cannot all be placed can be up to one of them. -/
theorem exists_place_error {d : Diagnostic} (h : placeAll file unit number raws = .error d) :
    ∃ before raw after, raws = before ++ raw :: after ∧
      (∀ b x a, before = b ++ x :: a →
        ∃ r, place file (unit.or (IndentUnit.inferred? b)) (number + b.length) x = .ok r) ∧
      place file (unit.or (IndentUnit.inferred? before)) (number + before.length) raw =
        .error d := by
  induction raws generalizing unit number with
  | nil => cases h
  | cons raw raws ih =>
    rcases bind_eq_error_iff.1 h with h | ⟨⟨l, unit'⟩, hl, h⟩
    · refine ⟨[], raw, raws, rfl, fun b x a hb => ?_, ?_⟩
      · simp at hb
      · rw [IndentUnit.inferred?, List.findSome?_nil, Option.or_none]
        exact h
    · rcases bind_eq_error_iff.1 h with h | ⟨_, -, h⟩
      · obtain ⟨before, x, after, rfl, hbefore, hx⟩ := ih h
        obtain rfl := (place_eq_ok hl).2
        simp only [← IndentUnit.or_inferred?_cons, Nat.succ_add_eq_add_succ] at hbefore hx
        refine ⟨raw :: before, x, after, rfl, forall_split_cons.2 ⟨?_, hbefore⟩, hx⟩
        rw [IndentUnit.inferred?, List.findSome?_nil, Option.or_none]
        exact ⟨_, hl⟩
      · cases h

/-! ## Sources -/

/-- The line has the blanks of `raw` around its text. A blank line has nothing but blanks. -/
structure Shows (l : Line) (raw : Bytes) : Prop where
  blank : raw.all Bytes.isBlank → l.isBlank ∧ l.depth = 0 ∧ l.indent = 0 ∧ l.text = []
  text_ne_nil : ¬raw.all Bytes.isBlank → ¬l.isBlank ∧ l.text ≠ []
  starts : ∀ b ∈ l.text.head?, ¬Bytes.isBlank b
  ends : ∀ b ∈ l.text.getLast?, ¬Bytes.isBlank b
  around : ¬raw.all Bytes.isBlank → l.indent = (raw.takeWhile Bytes.isBlank).length ∧
    ∃ tail : Bytes, tail.all Bytes.isBlank ∧
      raw = raw.takeWhile Bytes.isBlank ++ l.text ++ tail

theorem shows_placed {k : Nat} (hu : 0 < u.width) (hk : lead raw = u.lead k) :
    (placed file number k raw).Shows raw ∧
      (placed file number k raw).depth * u.width = (placed file number k raw).indent := by
  have hdepth : k * u.width = (lead raw).length := by rw [hk, IndentUnit.lead, List.length_replicate]
  refine ⟨⟨fun hblank => ?_, fun hbare => ?_, fun _ => not_isBlank_head_body, endsBare_body raw,
    fun hbare => ⟨?_, ?_⟩⟩, hdepth⟩
  · rw [lead_of_blank hblank, List.length_nil, Nat.mul_eq_zero, or_iff_left hu.ne'] at hdepth
    exact ⟨isBlank_placed.trans hblank, hdepth, congrArg _ (lead_of_blank hblank),
      body_eq_nil_iff.2 hblank⟩
  · rw [isBlank_placed]
    exact ⟨hbare, hbare ∘ body_eq_nil_iff.1⟩
  · exact congrArg _ (lead_eq_takeWhile hbare)
  · rw [← lead_eq_takeWhile hbare]
    exact eq_lead_append raw

theorem placeAll_error_misfits {d : Diagnostic} (h : placeAll file none 1 raws = .error d) :
    ∃ before raw after, raws = before ++ raw :: after ∧ Misfits before raw ∧
      (∀ b x a, before = b ++ x :: a → ¬Misfits b x) ∧
      ∃ p : Problem, p.kind = .indentation ∧
        d = p.diagnostic (.onLine file (before.length + 1) 1
          ((raw.takeWhile Bytes.isBlank).length + 1)) raw := by
  obtain ⟨before, raw, after, rfl, hbefore, hraw⟩ := exists_place_error h
  simp only [Option.none_or] at hbefore hraw
  have hmisfit : Misfits before raw := place_error_iff.1 ⟨d, hraw⟩
  refine ⟨before, raw, after, rfl, hmisfit, fun b x a hb hx => ?_, ?_⟩
  · obtain ⟨r, hr⟩ := hbefore b x a hb
    obtain ⟨d', hd'⟩ := place_error_iff.2 hx
    cases hr.symm.trans hd'
  · obtain ⟨p, hp, rfl, -⟩ := place_eq_error hraw
    have hnumber : ((1 + before.length : Nat) : Int) = before.length + 1 := by omega
    exact ⟨p, hp, by rw [hnumber, lead_eq_takeWhile hmisfit.1]⟩

/-- A source is cut into lines exactly if there is a unit of indentation that fits all of them, and
    then there is a line for each one that is written, whose depth is the number of times that it is
    indented by that unit. Otherwise the first line that does not fit the unit of the lines before it
    is reported. Blank lines have no part in this. -/
theorem split_fits {src : Bytes} {raws : List Bytes} (hsrc : src ≠ [])
    (hraws : (src.splitOn Byte.lf).map (Bytes.dropEnd · [Byte.cr]) = raws) (file : Bytes) :
    ((∃ ls, split file src = .ok ls) ↔ ∃ u : IndentUnit, u.Fits raws) ∧
    (∀ ls, split file src = .ok ls → ls.length = raws.length ∧
      ∀ i raw, raws[i]? = some raw → ∃ l, ls[i]? = some l ∧
        l.file = file ∧ l.number = i + 1 ∧ l.raw = raw ∧ l.Shows raw ∧
        ∀ u : IndentUnit, u.Fits raws → l.depth * u.width = l.indent) ∧
    ∀ d, split file src = .error d → ∃ before raw after,
      raws = before ++ raw :: after ∧ Misfits before raw ∧
      (∀ b x a, before = b ++ x :: a → ¬Misfits b x) ∧
      ∃ p : Problem, p.kind = .indentation ∧
        d = p.diagnostic (.onLine file (before.length + 1) 1
          ((raw.takeWhile Bytes.isBlank).length + 1)) raw := by
  have hsplit : split file src = placeAll file none 1 raws := by
    rw [split, raws_eq hsrc, Bytes.pieces_eq_splitOn, hraws]
  rw [hsplit]
  refine ⟨exists_placeAll_iff, fun ls hls => ?_, fun d hd => placeAll_error_misfits hd⟩
  have hget : ∀ u : IndentUnit, u.Fits raws → ls.length = raws.length ∧ ∀ i raw,
      raws[i]? = some raw → ∃ k, ls[i]? = some (placed file (1 + i) k raw) ∧ lead raw = u.lead k :=
    fun u hu => getElem?_placeAll hu.width_pos ((placeAll_of_fits hu file 1).symm.trans hls)
  obtain ⟨u, hu⟩ := exists_placeAll_iff.1 ⟨ls, hls⟩
  refine ⟨(hget u hu).1, fun i raw hraw => ?_⟩
  obtain ⟨k, hl, hk⟩ := (hget u hu).2 i raw hraw
  refine ⟨_, hl, rfl, Nat.add_comm 1 i, rfl, (shows_placed hu.width_pos hk).1, fun v hv => ?_⟩
  obtain ⟨k', hl', hk'⟩ := (hget v hv).2 i raw hraw
  cases hl.symm.trans hl'
  exact (shows_placed hv.width_pos hk').2

/-- A blank line with a tab between lines that are indented by spaces. -/
theorem split_fits_blank_tab :
    ∃ (src : Bytes) (raws : List Bytes) (ls : List Line), src = "%ul\r\n  a \n\t\n    b" ∧
      (src.splitOn Byte.lf).map (Bytes.dropEnd · [Byte.cr]) = raws ∧
      raws = ["%ul", "  a ", "\t", "    b"] ∧ split [] src = .ok ls ∧
      (∃ u : IndentUnit, u.Fits raws) ∧ ls.length = 4 ∧
      ∃ l, ls[3]? = some l ∧ l.number = 4 ∧ l.Shows "    b" ∧
        ∀ u : IndentUnit, u.Fits raws → l.depth * u.width = l.indent := by
  have hraws : (List.splitOn Byte.lf ("%ul\r\n  a \n\t\n    b" : Bytes)).map
      (Bytes.dropEnd · [Byte.cr]) = ["%ul", "  a ", "\t", "    b"] := by decide +kernel
  have hrun : ∃ ls, split [] "%ul\r\n  a \n\t\n    b" = .ok ls := by
    have hsome : ((split [] "%ul\r\n  a \n\t\n    b").toOption.map List.length) = some 4 := by
      decide +kernel
    obtain ⟨ls, hls, -⟩ := toOption_map_eq_some_iff.1 hsome
    exact ⟨ls, hls⟩
  obtain ⟨ls, hls⟩ := hrun
  obtain ⟨hfits, hlines, -⟩ := split_fits (by decide +kernel) hraws []
  obtain ⟨hlength, hget⟩ := hlines ls hls
  obtain ⟨l, hl, -, hnumber, -, hshows, hdepth⟩ := hget 3 "    b" rfl
  exact ⟨_, _, ls, rfl, hraws, rfl, hls, hfits.1 ⟨ls, hls⟩, hlength, l, hl, hnumber, hshows, hdepth⟩

end Line

end IndentMarkup
