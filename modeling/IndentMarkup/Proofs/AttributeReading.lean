import IndentMarkup.Proofs.Requoting

/-!
# Reading written attributes

The attributes of a tag are written one after the other as `key="value"`, with a space between each
two of them. Whoever reads such a text looks for a few bytes only (`Attribute.readAll?`): a key goes
up to the first `="`, a value up to the next `"`, and after one space there is another attribute. A
value may hold any bytes, also ones that look like the end of the value and a further attribute.

The reader finds the pairs that were written and nothing else
(`Attribute.readAll?_textOfList`), as a value is written with `&quot;` in the place of its double
quotes. So an attribute list is known from its text up to this replacement.
-/

namespace IndentMarkup

namespace Bytes

/-! ## Looking for a text -/

/-- The text before the first `stop`, which is not empty, and the text after it. -/
def upTo? (stop : Bytes) : Bytes → Option (Bytes × Bytes)
  | [] => none
  | b :: t =>
    match after? stop (b :: t) with
    | some rest => some ([], rest)
    | none => (upTo? stop t).map fun r => (b :: r.1, r.2)

variable {stop s t rest : Bytes}

theorem eq_of_upTo? (h : upTo? stop t = some (s, rest)) : t = s ++ (stop ++ rest) := by
  fun_induction upTo? stop t generalizing s with
  | case1 => cases h
  | case2 b t r hafter =>
    cases h
    rw [List.nil_append, ← after?_eq_some_iff, hafter]
  | case3 b t hafter ih =>
    obtain ⟨⟨s', rest'⟩, hr, he⟩ := Option.map_eq_some_iff.1 h
    cases he
    rw [List.cons_append, ← ih hr]

/-- A text is found after `s` if it does not start earlier, be it in `s` as a whole or in part. -/
theorem upTo?_append (hstop : stop ≠ []) (h : ¬stop <:+: s ++ stop.dropLast) (rest : Bytes) :
    upTo? stop (s ++ (stop ++ rest)) = some (s, rest) := by
  induction s with
  | nil =>
    obtain ⟨b, stop, rfl⟩ := List.exists_cons_of_ne_nil hstop
    have hafter : after? (b :: stop) (b :: (stop ++ rest)) = some rest := after?_eq_some_iff.2 rfl
    rw [List.nil_append, List.cons_append, upTo?, hafter]
  | cons b s ih =>
    rw [List.cons_append, List.infix_cons_iff, not_or] at h
    have hafter : after? stop (b :: (s ++ (stop ++ rest))) = none := by
      rw [Option.eq_none_iff_forall_ne_some]
      intro r hr
      have hstart : stop <+: b :: (s ++ (stop ++ rest)) := ⟨r, (after?_eq_some_iff.1 hr).symm⟩
      -- What starts at `b` ends before the last byte of the `stop` after `s`.
      have hlast : b :: (s ++ stop.dropLast) <+: b :: (s ++ (stop ++ rest)) := by
        rw [List.cons_prefix_cons, List.prefix_append_right_inj]
        exact ⟨rfl, (List.dropLast_prefix stop).trans (List.prefix_append stop rest)⟩
      refine h.1 (List.prefix_of_prefix_length_le hstart hlast ?_)
      simp only [List.length_cons, List.length_append, List.length_dropLast]
      omega
    rw [List.cons_append, upTo?, hafter]
    exact congrArg (Option.map _) (ih h.2)

/-- A text is found where its last byte first stands, if that is not elsewhere in it. -/
theorem upTo?_of_notMem {b : UInt8} (hstop : b ∈ stop) (hlast : b ∉ stop.dropLast) (hs : b ∉ s)
    (rest : Bytes) : upTo? stop (s ++ (stop ++ rest)) = some (s, rest) := by
  refine upTo?_append (List.ne_nil_of_mem hstop) (fun h => ?_) rest
  rcases List.mem_append.1 (h.subset hstop) with h | h
  · exact hs h
  · exact hlast h

/-! ## Replacing a byte -/

/-- The text with every `b` replaced is cut at every `b` and joined by the replacement. -/
theorem replace_eq_join_pieces (b : UInt8) (r t : Bytes) : replace b r t = join r (pieces b t) := by
  induction t with
  | nil => rfl
  | cons c t ih =>
    obtain ⟨p, ps, hps⟩ : ∃ p ps, pieces b t = p :: ps := by
      rw [pieces_eq_splitOn]
      exact List.exists_cons_of_ne_nil (List.splitOn_ne_nil _ _)
    have hcons : pieces b (c :: t) = if c = b then [] :: p :: ps else (c :: p) :: ps := by
      rw [pieces, List.foldr_cons, ← pieces, hps, List.modifyHead_cons]
    rw [replace_cons, ih, hcons, hps]
    split_ifs
    · rw [join_cons, join_cons, List.nil_append, List.flatMap_cons, List.append_assoc]
    · rw [join_cons, join_cons]
      rfl

theorem notMem_replace {b : UInt8} {r : Bytes} (h : b ∉ r) (t : Bytes) : b ∉ replace b r t := by
  rw [replace, List.mem_flatMap]
  rintro ⟨c, -, hc⟩
  split_ifs at hc with hcb
  · exact h hc
  · exact hcb (List.mem_singleton.1 hc).symm

end Bytes

namespace Attribute

/-! ## Pairs -/

/-- A key and a value as they stand in a tag. -/
def pairText (p : Bytes × Bytes) : Bytes := p.1 ++ "=\"" ++ p.2 ++ "\""

/-- The key and the value that an attribute shows in a tag: the pieces of its value between double
    quotes, with `&quot;` between each two of them. -/
def pair (a : Attribute) : Bytes × Bytes :=
  (a.key, Bytes.join "&quot;" (Bytes.pieces Byte.dquote a.value))

/-- The first key and value of a text, and the text after them. The key goes up to the first `="`,
    the value from there up to the next `"`. -/
def read? (t : Bytes) : Option ((Bytes × Bytes) × Bytes) := do
  let (key, rest) ← Bytes.upTo? "=\"" t
  let (value, rest) ← Bytes.upTo? "\"" rest
  return ((key, value), rest)

variable {p : Bytes × Bytes} {t rest : Bytes} {a : Attribute} {as bs : List Attribute}

theorem eq_of_read? (h : read? t = some (p, rest)) : t = pairText p ++ rest := by
  obtain ⟨⟨key, r⟩, hkey, h⟩ := Option.bind_eq_some_iff.1 h
  obtain ⟨⟨value, r'⟩, hvalue, h⟩ := Option.bind_eq_some_iff.1 h
  cases h
  rw [Bytes.eq_of_upTo? hkey, Bytes.eq_of_upTo? hvalue]
  simp only [pairText, List.append_assoc]

/-- The keys and values of a text, which has one space between each two of them and nothing else. -/
def readAll? (t : Bytes) : Option (List (Bytes × Bytes)) :=
  if t.isEmpty then some []
  else
    match h : read? t with
    | none => none
    | some (p, []) => some [p]
    | some (p, b :: rest) =>
      have : rest.length < t.length := by
        rw [eq_of_read? h, List.length_append, List.length_cons]
        omega
      if b = Byte.space ∧ rest ≠ [] then (readAll? rest).map (p :: ·) else none
termination_by t.length

/-- A key and a value without double quotes are read as they are written. -/
theorem read?_pairText (hkey : Byte.dquote ∉ p.1) (hvalue : Byte.dquote ∉ p.2) (rest : Bytes) :
    read? (pairText p ++ rest) = some (p, rest) := by
  have hassign : Bytes.upTo? "=\"" (p.1 ++ ("=\"" ++ (p.2 ++ ("\"" ++ rest)))) =
      some (p.1, p.2 ++ ("\"" ++ rest)) := Bytes.upTo?_of_notMem (by decide) (by decide) hkey _
  have hquote : Bytes.upTo? "\"" (p.2 ++ ("\"" ++ rest)) = some (p.2, rest) :=
    Bytes.upTo?_of_notMem (by decide) (by decide) hvalue rest
  rw [pairText, List.append_assoc, List.append_assoc, List.append_assoc, read?, hassign]
  exact congrArg (Option.bind · _) hquote

theorem pairText_pair (a : Attribute) : pairText a.pair = a.text := by
  rw [text, Bytes.replace_eq_join_pieces]
  rfl

/-- A value cannot leave its quotes. -/
theorem dquote_notMem_pair (a : Attribute) : Byte.dquote ∉ a.pair.2 := by
  rw [pair, ← Bytes.replace_eq_join_pieces]
  exact Bytes.notMem_replace (by decide) a.value

theorem read?_text (hkey : a.key.MadeOf isWordByte) (rest : Bytes) :
    read? (a.text ++ rest) = some (a.pair, rest) := by
  have hdquote : Byte.dquote ∉ a.key := fun h => absurd (hkey.2 _ h) (by decide)
  rw [← pairText_pair]
  exact read?_pairText hdquote a.dquote_notMem_pair rest

/-! ## Lists -/

theorem text_ne_nil (a : Attribute) : a.text ≠ [] := by
  simp [text, show ("\"" : Bytes) = [Byte.dquote] from rfl]

theorem join_pairText_cons {ps : List (Bytes × Bytes)} (hps : ps ≠ []) :
    Bytes.join " " ((p :: ps).map pairText) =
      pairText p ++ Byte.space :: Bytes.join " " (ps.map pairText) := by
  obtain ⟨q, ps, rfl⟩ := List.exists_cons_of_ne_nil hps
  rw [List.map_cons, List.map_cons, Bytes.join_cons, Bytes.join_cons, List.flatMap_cons,
    List.append_assoc]
  rfl

theorem textOfList_eq (as : List Attribute) :
    textOfList as = Bytes.join " " ((as.map pair).map pairText) := by
  rw [textOfList, List.map_map]
  exact congrArg _ (List.map_congr_left fun a _ => (pairText_pair a).symm)

theorem readAll?_of_read?_nil (ht : t ≠ []) (h : read? t = some (p, [])) :
    readAll? t = some [p] := by
  rw [readAll?, if_neg (by simpa using ht)]
  split <;> simp_all

theorem readAll?_of_read?_space (ht : t ≠ []) (hrest : rest ≠ [])
    (h : read? t = some (p, Byte.space :: rest)) : readAll? t = (readAll? rest).map (p :: ·) := by
  rw [readAll?, if_neg (by simpa using ht)]
  split <;> simp_all

/-- The pairs that are read make up the whole text. -/
theorem eq_of_readAll? {ps : List (Bytes × Bytes)} (h : readAll? t = some ps) :
    t = Bytes.join " " (ps.map pairText) := by
  fun_induction readAll? t generalizing ps with
  | case1 t ht =>
    cases h
    exact List.isEmpty_iff.1 ht
  | case2 => cases h
  | case3 t ht p hread =>
    cases h
    rw [eq_of_read? hread]
    simp [Bytes.join]
  | case4 t ht p b rest hread _ hspace ih =>
    obtain ⟨ps', hps, rfl⟩ := Option.map_eq_some_iff.1 h
    have hne : ps' ≠ [] := by
      rintro rfl
      exact hspace.2 (ih hps)
    rw [eq_of_read? hread, join_pairText_cons hne, ← ih hps, hspace.1]
  | case5 => cases h

theorem readAll?_of_madeOf (has : ∀ a ∈ as, a.key.MadeOf isWordByte) :
    readAll? (textOfList as) = some (as.map pair) := by
  induction as with
  | nil =>
    rw [show textOfList [] = [] from rfl, readAll?, if_pos List.isEmpty_nil, List.map_nil]
  | cons a as ih =>
    obtain ⟨ha, has⟩ := List.forall_mem_cons.1 has
    cases as with
    | nil =>
      have hread := read?_text ha []
      rw [List.append_nil] at hread
      simpa [textOfList, Bytes.join] using readAll?_of_read?_nil a.text_ne_nil hread
    | cons b as =>
      have hcons : textOfList (a :: b :: as) = a.text ++ Byte.space :: textOfList (b :: as) := by
        rw [textOfList_eq, textOfList_eq, List.map_cons, join_pairText_cons (by simp),
          pairText_pair]
      have hne : textOfList (b :: as) ≠ [] := by
        rw [textOfList, List.map_cons, Bytes.join_cons]
        exact List.append_ne_nil_of_left_ne_nil b.text_ne_nil _
      rw [hcons, readAll?_of_read?_space (List.append_ne_nil_of_left_ne_nil a.text_ne_nil _) hne
        (read?_text ha _), ih has]
      rfl

/-- No value can leave its quotes. The text of attributes whose keys are words is read as their keys
    and values, all of them in their order, where a value has `&quot;` in the place of its double
    quotes, and nothing of the text is left. So lists with the same text have the same keys and the
    same such values. The keys that come from a source are always words. -/
theorem readAll?_textOfList :
    (∀ as : List Attribute, (∀ a ∈ as, a.key.MadeOf isWordByte) →
      readAll? (textOfList as) = some (as.map pair)) ∧
    (∀ (t : Bytes) (ps : List (Bytes × Bytes)), readAll? t = some ps →
      t = Bytes.join " " (ps.map pairText)) ∧
    (∀ as bs : List Attribute, (∀ a ∈ as, a.key.MadeOf isWordByte) →
      (∀ b ∈ bs, b.key.MadeOf isWordByte) → textOfList as = textOfList bs →
      as.map pair = bs.map pair) ∧
    ∀ (t : Bytes) (as : List Attribute), parse t = .ok as → ∀ a ∈ as, a.key.MadeOf isWordByte := by
  refine ⟨fun as has => readAll?_of_madeOf has, fun t ps h => eq_of_readAll? h,
    fun as bs has hbs h => ?_, fun t as h a ha => (wellFormed_of_parse h a ha).key⟩
  have hread := readAll?_of_madeOf has
  rw [h, readAll?_of_madeOf hbs] at hread
  exact (Option.some.inj hread).symm

/-- A key that occurs twice, and a value that looks like the end of itself and two further
    attributes. -/
theorem readAll?_textOfList_lookalike :
    readAll? (textOfList [⟨"title", "a\" id=\"b\" c", true⟩, ⟨"class", "", true⟩,
        ⟨"title", "x='\"", false⟩]) =
      some ([("title", "a&quot; id=&quot;b&quot; c"), ("class", ""), ("title", "x='&quot;")] :
        List (Bytes × Bytes)) ∧
    ∀ bs : List Attribute, (∀ b ∈ bs, b.key.MadeOf isWordByte) →
      textOfList bs = textOfList [⟨"title", "a\" id=\"b", true⟩] →
      bs.map pair = ([("title", "a&quot; id=&quot;b")] : List (Bytes × Bytes)) := by
  refine ⟨?_, fun bs hbs h => ?_⟩
  · rw [readAll?_textOfList.1 _ (by decide +kernel)]
    decide +kernel
  · rw [readAll?_textOfList.2.2.1 bs _ hbs (by decide +kernel) h]
    decide +kernel

end Attribute

end IndentMarkup
