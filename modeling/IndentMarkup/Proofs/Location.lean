import IndentMarkup.Diagnostic.Explain
import IndentMarkup.Proofs.Relocation

/-!
# Where errors are

Every error of a compilation is about some columns of a line (`compile_error_located`). Each reader
counts the offsets of its faults from another point: the beginning of the line, of a group, of the
content or of what is left of a header. What all of them have in common is that a fault is *within*
the text that is read (`Fault.Within`): it starts at one of its bytes and does not go beyond the
last one.

There is one exception. Where a keyword is missing after a dash, the fault is right after the dash.
A line does not end with a blank, so that is beyond the text only if the dash is all of it.
-/

namespace IndentMarkup

/-! ## Faults in a text -/

namespace Fault

/-- The fault starts at a byte of a text of length `n`, and ends in the text. -/
def Within (n : Nat) (f : Fault) : Prop := f.start < n ∧ f.stop ≤ n

variable {m n : Nat} {f : Fault}

theorem Within.mono (h : f.Within m) (hmn : m ≤ n) : f.Within n :=
  ⟨Nat.lt_of_lt_of_le h.1 hmn, Nat.le_trans h.2 hmn⟩

theorem Within.shift (h : f.Within n) (m : Nat) : (f.shift m).Within (m + n) := by
  obtain ⟨hstart, hstop⟩ := h
  simp only [Within, Fault.shift]
  omega

/-- What is shown of a fault within a text does not go beyond the text either. -/
theorem Within.shownStop_le (h : f.Within n) : f.shownStop ≤ n := Nat.max_le.2 ⟨h.2, h.1⟩

theorem start_lt_shownStop (f : Fault) : f.start < f.shownStop :=
  Nat.lt_of_lt_of_le (Nat.lt_succ_self f.start) (Nat.le_max_right ..)

end Fault

/-! ## Spans -/

theorem length_of_closingBrace {depth : Int} {t : Bytes} {n : Nat}
    (h : closingBrace depth t = some n) : n < t.length :=
  (List.getElem?_eq_some_iff.1 (getElem?_closingBrace h)).1

theorem Span.within_of_parseFrom {off : Nat} {t : Bytes} {f : Fault}
    (h : parseFrom off t = .error f) : f.Within (off + t.length) := by
  fun_induction parseFrom off t with
  | case1 => cases h
  | case2 off t lit rest hcut start hn =>
    -- An interpolation that is not closed is a fault up to the end.
    cases h
    rw [eq_of_cutOpening hcut, List.length_append, List.length_cons, List.length_cons]
    constructor <;> simp only [start] <;> omega
  | case3 off t lit rest hcut start n hn value next hv =>
    -- An empty one is a fault from its opening to its closing brace.
    cases h
    have hlt := length_of_closingBrace hn
    rw [eq_of_cutOpening hcut, List.length_append, List.length_cons, List.length_cons]
    constructor <;> simp only [next, start] <;> omega
  | case4 off t lit rest hcut start n hn value next hv _ ih =>
    rcases bind_eq_error_iff.1 h with h | ⟨tail, -, h⟩
    · -- The fault is after the interpolation, where the rest of the text starts.
      have hlt := length_of_closingBrace hn
      refine (ih h).mono ?_
      rw [eq_of_cutOpening hcut, List.length_append, List.length_cons, List.length_cons,
        List.length_drop]
      simp only [next, start]
      omega
    · cases h

/-! ## Attributes -/

namespace Token

theorem offset_le_of_mem_locate {off : Nat} {ks : List Token} {x : Nat × Token}
    (h : x ∈ locate off ks) : x.1 + x.2.text.length ≤ off + (ks.flatMap text).length := by
  induction ks generalizing off with
  | nil => cases h
  | cons k ks ih =>
    rw [List.flatMap_cons, List.length_append]
    rcases List.mem_cons.1 h with rfl | h
    · simp only
      omega
    · have := ih h
      omega

/-- The tokens of a text and what is left after them make up the text. -/
theorem flatMap_text_scan (t : Bytes) : (scan t).1.flatMap text ++ (scan t).2 = t := by
  fun_induction scan t with
  | case1 => rfl
  | case2 t k rest hnext _ r ih =>
    rw [List.flatMap_cons, List.append_assoc, ih, text_append_of_next? hnext]

end Token

namespace Attribute

variable {len : Nat} {f : Fault} {t : Bytes}

/-- The end of a group counts as one more byte, which a fault may be at. -/
theorem within_unexpected {ks : List (Nat × Token)} (h : ∀ x ∈ ks, x.1 ≤ len)
    (e : Expectation) : (unexpected len e ks).Within (len + 1) := by
  cases ks with
  | nil => exact ⟨Nat.lt_succ_self len, Nat.le_refl _⟩
  | cons x ks =>
    have hx := h x List.mem_cons_self
    exact ⟨Nat.lt_succ_of_le hx, Nat.succ_le_succ hx⟩

theorem within_of_assignments {ks : List (Nat × Token)} (h : assignments len ks = .error f)
    (hks : ∀ x ∈ ks, x.1 ≤ len) : f.Within (len + 1) := by
  fun_induction assignments len ks with
  | case1 => cases h
  | case2 _ _ _ _ _ ks ih | case3 _ _ _ _ _ ks ih =>
    simp only [List.forall_mem_cons] at hks
    rcases bind_eq_error_iff.1 h with h | ⟨_, -, h⟩
    · exact ih h hks.2.2.2
    · cases h
  | case4 _ _ _ ks =>
    cases h
    simp only [List.forall_mem_cons] at hks
    exact within_unexpected hks.2.2 _
  | case5 _ _ ks =>
    cases h
    simp only [List.forall_mem_cons] at hks
    exact within_unexpected hks.2 _
  | case6 ks =>
    cases h
    exact within_unexpected hks _

theorem within_of_parse (h : parse t = .error f) : f.Within (t.length + 1) := by
  have hscan := congrArg List.length (Token.flatMap_text_scan t)
  rw [List.length_append] at hscan
  rw [parse] at h
  split at h
  · rename_i ks hks
    rw [hks] at hscan
    -- White space is left out, and all other tokens are where they are in the text.
    refine within_of_assignments h fun x hx => ?_
    have := Token.offset_le_of_mem_locate (List.mem_filter.1 hx).1
    simp only at hscan
    omega
  · cases h
    exact ⟨by simp only; omega, by simp only; omega⟩

end Attribute

/-! ## Elements -/

namespace Bracket

variable {k : Bracket} {off : Nat} {t inner rest : Bytes} {f : Fault}

theorem length_of_close {quote : Option UInt8} {depth : Int} {n : Nat}
    (h : k.close quote depth t = some n) : n < t.length := by
  fun_induction close k quote depth t generalizing n with
  | case1 => cases h
  | case2 => cases h
  | case8 =>
    cases h
    exact Nat.succ_pos _
  | case3 _ _ _ _ ih =>
    obtain ⟨m, hm, rfl⟩ := Option.map_eq_some_iff.1 h
    exact Nat.succ_lt_succ (Nat.succ_lt_succ (ih hm))
  | _ =>
    rename_i ih
    obtain ⟨m, hm, rfl⟩ := Option.map_eq_some_iff.1 h
    exact Nat.succ_lt_succ (ih hm)

theorem within_of_group (h : k.group off t = .error f) (ht : t.head? = some k.opening) :
    f.Within (off + t.length) := by
  obtain ⟨t, rfl⟩ := List.head?_eq_some_iff.1 ht
  rw [group] at h
  split at h
  · cases h
  · cases h
    exact ⟨Nat.lt_add_of_pos_right (Nat.succ_pos _), Nat.le_refl _⟩

/-- A group that starts with its opening bracket has both brackets around its inner text. -/
theorem length_add_of_group (h : k.group off t = .ok (inner, rest))
    (ht : t.head? = some k.opening) : inner.length + rest.length + 2 ≤ t.length := by
  obtain ⟨t, rfl⟩ := List.head?_eq_some_iff.1 ht
  rw [group] at h
  split at h
  · rename_i n hn
    have hlt := length_of_close hn
    -- The first bracket opens the group, so it is not the one that closes it.
    have hpos : 0 < n := by
      have hq : ¬Byte.isQuote k.opening := by cases k <;> decide
      rw [close, if_neg hq, if_pos rfl] at hn
      obtain ⟨m, -, rfl⟩ := Option.map_eq_some_iff.1 hn
      exact Nat.succ_pos m
    cases h
    simp only [List.drop_succ_cons, List.drop_zero, List.length_take, List.length_drop,
      List.length_cons] at hlt ⊢
    omega
  · cases h

end Bracket

namespace Element

variable {len start stop : Nat} {el el' : Element} {t inner rest : Bytes} {f : Fault}

theorem within_of_readTag (h : readTag t = .error f) : f.Within t.length := by
  unfold readTag at h
  split at h
  · simp only at h
    split_ifs at h
    cases h
    exact ⟨Nat.succ_pos _, Nat.succ_le_succ (Nat.zero_le _)⟩
  · cases h

theorem length_of_readTag (h : readTag t = .ok (el, rest)) : rest.length ≤ t.length := by
  unfold readTag at h
  split at h
  · rename_i rest'
    simp only at h
    split_ifs at h
    cases h
    exact Nat.le_succ_of_le (List.dropWhile_sublist _).length_le
  · cases h
    exact Nat.le_refl _

theorem within_of_readShorthands (h : readShorthands len el t = .error f)
    (ht : t.length ≤ len) : f.Within len := by
  fun_induction readShorthands len el t with
  | case1 el c t name rest _ _ ih =>
    have := (List.dropWhile_sublist isNameByte (l := t)).length_le
    simp only [List.length_cons] at ht
    exact ih h (by simp only [rest]; omega)
  | case2 el s c t _ name rest _ _ _ ih =>
    have := (List.dropWhile_sublist isNameByte (l := t)).length_le
    simp only [List.length_cons] at ht
    exact ih h (by simp only [rest]; omega)
  | case3 el s c t _ name rest =>
    cases h
    simp only [List.length_cons] at ht
    exact ⟨by simp only; omega, Nat.sub_le _ _⟩
  | case4 => cases h
  | case5 => cases h

theorem length_of_readShorthands (h : readShorthands len el t = .ok (el', rest)) :
    rest.length ≤ t.length := by
  fun_induction readShorthands len el t with
  | case1 el c t name rest' _ _ ih =>
    have := (List.dropWhile_sublist isNameByte (l := t)).length_le
    have := ih h
    simp only [rest', List.length_cons] at this ⊢
    omega
  | case2 el s c t _ name rest' _ _ _ ih =>
    have := (List.dropWhile_sublist isNameByte (l := t)).length_le
    have := ih h
    simp only [rest', List.length_cons] at this ⊢
    omega
  | case3 => cases h
  | case4 =>
    cases h
    exact Nat.le_refl _
  | case5 =>
    cases h
    exact Nat.le_refl _

theorem ne_nil_of_danglingSigil? {b : UInt8} (h : danglingSigil? t = some b) : t ≠ [] := by
  rintro rfl
  cases h

/-- A fault in the attributes of a group is in its inner text or at the closing bracket. -/
theorem within_of_attributes
    (h : (Attribute.parse inner).mapError (Fault.shift (start + 1)) = .error f) :
    f.Within (start + inner.length + 2) := by
  obtain ⟨g, hg, rfl⟩ := mapError_eq_error_iff.1 h
  exact ((Attribute.within_of_parse hg).shift (start + 1)).mono (by omega)

theorem within_of_addParens (h : addParens start el inner = .error f) :
    f.Within (start + inner.length + 2) := by
  rcases bind_eq_error_iff.1 h with h | ⟨_, -, h⟩
  · exact within_of_attributes h
  · cases h

theorem within_of_addBraces (h : addBraces start stop el inner = .error f)
    (hstop : start + inner.length + 2 ≤ stop) : f.Within stop := by
  have hgroup : start < stop ∧ stop ≤ stop := by omega
  rw [addBraces] at h
  split_ifs at h
  · cases h
    exact hgroup
  · cases h
    exact hgroup
  · rcases bind_eq_error_iff.1 h with h | ⟨_, -, h⟩
    · exact (within_of_attributes h).mono hstop
    · cases h
  · simp only at h
    split_ifs at h
    cases h
    exact hgroup

theorem within_of_readGroups (h : readGroups len el t = .error f) (ht : t.length ≤ len) :
    f.Within len := by
  fun_induction readGroups len el t with
  | case1 el t start hhead g hgroup =>
    cases h
    exact (Bracket.within_of_group hgroup hhead).mono (by omega)
  | case2 el t start hhead inner rest hgroup _ g hadd =>
    cases h
    have := Bracket.length_add_of_group hgroup hhead
    exact (within_of_addParens hadd).mono (by omega)
  | case3 el t start hhead inner rest hgroup _ el' hadd ih =>
    exact ih h (by omega)
  | case4 el t start hhead g hgroup =>
    cases h
    exact (Bracket.within_of_group hgroup hhead).mono (by omega)
  | case5 el t start hhead inner rest hgroup _ g hadd =>
    cases h
    have := Bracket.length_add_of_group hgroup hhead
    exact (within_of_addBraces hadd (by omega)).mono (Nat.sub_le _ _)
  | case6 el t start hhead inner rest hgroup _ el' hadd ih =>
    exact ih h (by omega)
  | case7 => cases h

theorem length_of_readGroups (h : readGroups len el t = .ok (el', rest)) :
    rest.length ≤ t.length := by
  fun_induction readGroups len el t with
  | case1 => cases h
  | case2 => cases h
  | case3 el t start hhead inner rest' hgroup hlt el₁ hadd ih => exact (ih h).trans hlt.le
  | case4 => cases h
  | case5 => cases h
  | case6 el t start hhead inner rest' hgroup hlt el₁ hadd ih => exact (ih h).trans hlt.le
  | case7 =>
    cases h
    exact Nat.le_refl _

theorem within_of_readContent (h : readContent len t = .error f) (ht : t.length ≤ len) :
    f.Within len := by
  unfold readContent at h
  split at h
  · rename_i rest
    simp only at h
    split_ifs at h
    cases h
    simp only [List.length_cons] at ht
    constructor <;> simp only [List.length_cons] <;> omega
  · have hle : (Bytes.dropBlanks t).length ≤ t.length := (List.dropWhile_sublist _).length_le
    exact (Span.within_of_parseFrom h).mono (by omega)

/-- A fault in a header is within the header. -/
theorem within_of_parse (h : parse t = .error f) : f.Within t.length := by
  -- Each part starts where the one before it ends, at some distance from the end of the header.
  rcases bind_eq_error_iff.1 h with h | ⟨⟨el₁, t₁⟩, h₁, h⟩
  · exact within_of_readTag h
  have ht₁ := length_of_readTag h₁
  rcases bind_eq_error_iff.1 h with h | ⟨⟨el₂, t₂⟩, h₂, h⟩
  · exact within_of_readShorthands h ht₁
  have ht₂ := (length_of_readShorthands h₂).trans ht₁
  simp only at h
  split at h
  · rename_i sigil hsigil
    cases h
    have := List.length_pos_iff.2 (ne_nil_of_danglingSigil? hsigil)
    constructor <;> simp only <;> omega
  rcases bind_eq_error_iff.1 h with h | ⟨⟨el₃, t₃⟩, h₃, h⟩
  · exact within_of_readGroups h ht₂
  rcases bind_eq_error_iff.1 h with h | ⟨_, -, h⟩
  · exact within_of_readContent h ((length_of_readGroups h₃).trans ht₂)
  · cases h

end Element

/-! ## Lines -/

/-- A fault in the text of a line is within the text, unless it is right after a lone dash. -/
def Fault.InText (t : Bytes) (f : Fault) : Prop :=
  f.Within t.length ∨ t = [Byte.dash] ∧ f.start = 1 ∧ f.stop = 1

/-- The text does not end with a blank. -/
def Bytes.EndsBare (t : Bytes) : Prop := ∀ b ∈ t.getLast?, ¬Bytes.isBlank b

theorem Bytes.EndsBare.suffix {s t : Bytes} (h : t.EndsBare) (hs : s <:+ t) : s.EndsBare := by
  obtain ⟨u, rfl⟩ := hs
  intro b hb
  refine h b ?_
  rw [List.getLast?_append, hb]
  rfl

/-- Blanks alone do not end bare, so there is something else after a dash or nothing at all. -/
theorem Bytes.EndsBare.eq_nil {b : UInt8} {t : Bytes} (h : EndsBare (b :: t))
    (ht : dropBlanks t = []) : t = [] := by
  by_contra hne
  have hlast : (b :: t).getLast? = some (t.getLast hne) := by
    rw [List.getLast?_cons, List.getLast?_eq_some_getLast hne]
    rfl
  exact h _ hlast (List.dropWhile_eq_nil_iff.1 ht _ (List.getLast_mem hne))

theorem Block.inText_of_parse {t : Bytes} {f : Fault} (h : parse t = .error f)
    (hhead : t.head? = some Byte.dash) (ht : t.EndsBare) : f.InText t := by
  obtain ⟨t, rfl⟩ := List.head?_eq_some_iff.1 hhead
  unfold parse at h
  simp only [List.drop_succ_cons, List.drop_zero, List.length_cons] at h
  have hbody : (Bytes.dropBlanks t).length ≤ t.length := (List.dropWhile_sublist _).length_le
  have hsplit := congrArg List.length
    (List.takeWhile_append_dropWhile (p := (!Bytes.isBlank ·)) (l := Bytes.dropBlanks t))
  rw [List.length_append] at hsplit
  have harg := (Bytes.trim_sublist ((Bytes.dropBlanks t).dropWhile (!Bytes.isBlank ·))).length_le
  split_ifs at h with hword hknown helse hempty hempty
  · -- The first byte after the blanks is part of the keyword, so there is none.
    have hnil : Bytes.dropBlanks t = [] := by
      have hb := List.head?_dropWhile_not Bytes.isBlank t
      rw [← Bytes.dropBlanks] at hb
      cases hd : Bytes.dropBlanks t with
      | nil => rfl
      | cons b body => simp_all
    obtain rfl := ht.eq_nil hnil
    cases h
    exact .inr ⟨rfl, rfl, rfl⟩
  all_goals
    have hpos := List.length_pos_iff.2 (List.isEmpty_eq_false_iff.1 (Bool.not_eq_true _ ▸ hword))
  · cases h
    left
    constructor <;> simp only [List.length_cons] <;> omega
  · have hpos' := List.length_pos_iff.2 (List.isEmpty_eq_false_iff.1 (Bool.not_eq_true _ ▸ hempty))
    cases h
    left
    constructor <;> simp only [List.length_cons] <;> omega
  · cases h
    left
    constructor <;> simp only [List.length_cons] <;> omega

theorem within_of_parseExpression {t : Bytes} {f : Fault} (h : parseExpression t = .error f)
    (ht : t ≠ []) : f.Within t.length := by
  unfold parseExpression at h
  simp only at h
  split_ifs at h
  cases h
  exact ⟨List.length_pos_iff.2 ht, List.length_pos_iff.2 ht⟩

/-- A fault in the text of a line that does not end with a blank. -/
theorem Node.inText_of_ofText {r : Range} {t : Bytes} {f : Fault} (h : ofText r t = .error f)
    (hne : t ≠ []) (ht : t.EndsBare) : f.InText t := by
  unfold ofText at h
  split_ifs at h with hdash
  · rcases bind_eq_error_iff.1 h with h | ⟨_, -, h⟩
    · exact Block.inText_of_parse h hdash ht
    · cases h
  · rcases bind_eq_error_iff.1 h with h | ⟨_, -, h⟩
    · exact .inl (within_of_parseExpression h hne)
    · cases h
  · rcases bind_eq_error_iff.1 h with h | ⟨_, -, h⟩
    · exact .inl (Element.within_of_parse h)
    · cases h
  · rcases bind_eq_error_iff.1 h with h | ⟨_, -, h⟩
    · exact .inl (Nat.zero_add t.length ▸ Span.within_of_parseFrom h)
    · cases h

namespace Line

variable {file src raw : Bytes} {l : Line}

/-- The line is one of a source, at whatever depth. -/
structure IsOf (file src : Bytes) (l : Line) : Prop where
  number_pos : 0 < l.number
  raw_eq : (raws src)[l.number - 1]? = some l.raw
  eq_placed : l = placed file l.number l.depth l.raw

theorem getElem?_of_placeAll {unit : Option IndentUnit} {number : Nat} {raws : List Bytes}
    {ls : List Line} (h : placeAll file unit number raws = .ok ls) :
    ∀ l ∈ ls, number ≤ l.number ∧ raws[l.number - number]? = some l.raw ∧
      l = placed file l.number l.depth l.raw := by
  induction raws generalizing unit number ls with
  | nil =>
    cases h
    exact fun _ hl => absurd hl List.not_mem_nil
  | cons raw raws ih =>
    obtain ⟨l, unit', ls, hl, hls, rfl⟩ := placeAll_cons_eq_ok_iff.1 h
    have hplaced := (place_eq_ok hl).1
    refine List.forall_mem_cons.2 ⟨?_, fun m hm => ?_⟩
    · rw [hplaced]
      exact ⟨Nat.le_refl _, by simp [placed], rfl⟩
    · obtain ⟨hle, hraw, heq⟩ := ih hls m hm
      refine ⟨Nat.le_of_succ_le hle, ?_, heq⟩
      rw [show m.number - number = m.number - (number + 1) + 1 by omega, List.getElem?_cons_succ]
      exact hraw

theorem isOf_of_split {ls : List Line} (h : split file src = .ok ls) : ∀ l ∈ ls, l.IsOf file src :=
  fun l hl =>
    have ⟨hle, hraw, heq⟩ := getElem?_of_placeAll h l hl
    ⟨hle, hraw, heq⟩

theorem endsBare_body (raw : Bytes) : (body raw).EndsBare := by
  have hend : (Bytes.dropTrailingBlanks raw).EndsBare := by
    intro b hb
    have hhead := List.head?_dropWhile_not Bytes.isBlank raw.reverse
    rw [← List.getLast?_reverse, ← Bytes.dropTrailingBlanks, hb] at hhead
    simpa using hhead
  exact hend.suffix (List.dropWhile_suffix _)

theorem within_of_levelFault? {before : List Line} {f : Fault}
    (h : l.levelFault? before = some f) (hpos : 0 < l.text.length) : f.Within l.text.length := by
  rw [levelFault?] at h
  split_ifs at h
  cases h
  exact ⟨hpos, hpos⟩

theorem within_of_parentFault? {before : List Line} {f : Fault}
    (h : l.parentFault? before = some f) (hpos : 0 < l.text.length) : f.Within l.text.length := by
  rw [parentFault?_eq_map] at h
  obtain ⟨p, -, rfl⟩ := Option.map_eq_some_iff.1 h
  exact ⟨hpos, Nat.le_refl _⟩

theorem within_of_elseFault? {before : List Line} {f : Fault}
    (h : l.elseFault? before = some f) (hpos : 0 < l.text.length) : f.Within l.text.length := by
  rw [elseFault?] at h
  split_ifs at h
  cases h
  exact ⟨hpos, Nat.le_refl _⟩

/-- A fault of a line is within its text or right after a lone dash, wherever it comes from. -/
theorem inText_of_fault? {before : List Line} {f : Fault} (h : l.fault? before = some f)
    (hne : l.text ≠ []) (ht : l.text.EndsBare) : f.InText l.text := by
  have hpos := List.length_pos_iff.2 hne
  simp only [fault?, Option.orElse_eq_orElse, Option.orElse_eq_or, Option.or_eq_some_iff] at h
  rcases h with h | ⟨-, h | ⟨-, h | ⟨-, h⟩⟩⟩
  · exact .inl (within_of_levelFault? h hpos)
  · exact .inl (within_of_parentFault? h hpos)
  · rw [textFault?] at h
    split at h
    · rename_i g hg
      cases h
      exact Node.inText_of_ofText hg hne ht
    · cases h
  · exact .inl (within_of_elseFault? h hpos)

theorem kind_of_level {unit : Option IndentUnit} {t : Bytes} {p : Problem}
    (h : IndentUnit.level unit t = .error p) : p.kind = .indentation := by
  rw [IndentUnit.level] at h
  split_ifs at h <;> cases h <;> rfl

/-- A line that cannot be placed is indented, and not blank. -/
theorem place_eq_error {unit : Option IndentUnit} {number : Nat} {d : Diagnostic}
    (h : place file unit number raw = .error d) :
    ∃ p : Problem, p.kind = .indentation ∧
      d = p.diagnostic (.onLine file number 1 ((lead raw).length + 1)) raw ∧ lead raw ≠ [] := by
  by_cases hlead : lead raw = []
  · rw [place_unindented hlead] at h
    cases h
  · rw [place_indented hlead] at h
    split at h
    · cases h
    · rename_i hlevel
      cases h
      exact ⟨_, kind_of_level hlevel, rfl, hlead⟩

theorem placeAll_eq_error {unit : Option IndentUnit} {number : Nat} {raws : List Bytes}
    {d : Diagnostic} (h : placeAll file unit number raws = .error d) :
    ∃ i raw unit', raws[i]? = some raw ∧ place file unit' (number + i) raw = .error d := by
  induction raws generalizing unit number with
  | nil => cases h
  | cons raw raws ih =>
    rcases bind_eq_error_iff.1 h with h | ⟨⟨l, unit'⟩, -, h⟩
    · exact ⟨0, raw, unit, rfl, h⟩
    rcases bind_eq_error_iff.1 h with h | ⟨_, -, h⟩
    · obtain ⟨i, raw', unit'', hraw, hplace⟩ := ih h
      refine ⟨i + 1, raw', unit'', hraw, ?_⟩
      rwa [Nat.succ_add_eq_add_succ] at hplace
    · cases h

end Line

/-! ## Diagnostics -/

/-- Nothing is looked up in a file if every detail carries its line. -/
theorem Diagnostic.explain_congr {d : Diagnostic} (h : ∀ x ∈ d.details, x.source ≠ [])
    (load load' : Bytes → Bytes) : d.explain load = d.explain load' := by
  have hexcerpts : ∀ (ds : List Detail) (w : Nat) (shown : Option Bytes),
      (∀ x ∈ ds, x.source ≠ []) → excerpts load w shown ds = excerpts load' w shown ds := by
    intro ds w
    induction ds with
    | nil => exact fun _ _ => rfl
    | cons x ds ih =>
      intro shown hds
      obtain ⟨hx, hds⟩ := List.forall_mem_cons.1 hds
      have hline : x.sourceLine load = x.sourceLine load' := by
        rw [Detail.sourceLine, Detail.sourceLine, if_neg (by simpa using hx),
          if_neg (by simpa using hx)]
      rw [excerpts, excerpts, Detail.excerpt, Detail.excerpt, hline, ih _ hds]
  rw [explain, explain, rows, rows, hexcerpts _ _ _ h]

theorem Problem.kind_ne_invalidTarget (p : Problem) : p.kind ≠ .invalidTarget := by
  intro h
  cases p <;> cases h

theorem Problem.explain_diagnostic (p : Problem) (r : Range) {raw : Bytes} (hraw : raw ≠ [])
    (load load' : Bytes → Bytes) :
    (p.diagnostic r raw).explain load = (p.diagnostic r raw).explain load' :=
  Diagnostic.explain_congr (by simpa [Problem.diagnostic] using hraw) load load'

/-- The columns `first` up to `last` are about the text of a line, or the blanks before it. They
    may go one column beyond the text if it is a lone dash. -/
def Line.Spans (l : Line) (first last : Int) : Prop :=
  1 ≤ first ∧ first < last ∧ first ≤ l.indent + l.text.length + 1 ∧
    last ≤ l.indent + l.text.length + 2 ∧
    (l.text ≠ "-" → last ≤ l.indent + l.text.length + 1)

theorem Fault.InText.spans {l : Line} {f : Fault} (h : f.InText l.text) :
    l.Spans (l.indent + f.start + 1) (l.indent + f.shownStop + 1) := by
  have hlt := f.start_lt_shownStop
  rcases h with h | ⟨ht, hstart, hstop⟩
  · have hstop := h.shownStop_le
    exact ⟨by omega, by omega, by omega, by omega, fun _ => by omega⟩
  · have hshown : f.shownStop = 2 := by
      rw [Fault.shownStop, hstart, hstop]
      rfl
    have hlen : l.text.length = 1 := by
      rw [ht]
      rfl
    exact ⟨by omega, by omega, by omega, by omega, fun hne => absurd ht hne⟩

/-- A rejected source is reported at one of its lines that is not blank. -/
theorem Document.parse_error_located {file src : Bytes} {d : Diagnostic}
    (h : Document.parse file src = .error d) :
    ∃ (l : Line) (p : Problem) (first last : Int), l.IsOf file src ∧ l.text ≠ [] ∧
      (∀ lines, Line.split file src = .ok lines → l ∈ lines) ∧
      d = p.diagnostic (.onLine file l.number first last) l.raw ∧ l.Spans first last := by
  rcases parse_error_iff.1 h with h | ⟨lines, l, f, hl, hf, rfl⟩
  · -- The columns of a line that cannot be placed are those of its indentation.
    obtain ⟨i, raw, unit, hraw, hplace⟩ := Line.placeAll_eq_error h
    obtain ⟨p, -, rfl, hlead⟩ := Line.place_eq_error hplace
    have hbody : Line.body raw ≠ [] := fun hnil =>
      hlead (Line.lead_of_blank (Line.body_eq_nil_iff.1 hnil))
    have hpos := List.length_pos_iff.2 hlead
    refine ⟨Line.placed file (1 + i) 0 raw, p, 1, (Line.lead raw).length + 1,
      ⟨Nat.lt_add_right i Nat.one_pos, ?_, rfl⟩, hbody, fun lines hl => ?_, rfl, ?_⟩
    · rw [show (Line.placed file (1 + i) 0 raw).number - 1 = i from Nat.add_sub_cancel_left 1 i]
      exact hraw
    · cases hl.symm.trans h
    · simp only [Line.Spans, Line.placed]
      omega
  · obtain ⟨before, after, hls, -, hfault⟩ := Line.firstFault?_eq_some_iff.1 hf
    have hmem : l ∈ Line.content lines := by
      rw [hls]
      exact List.mem_append_right before List.mem_cons_self
    have hof := Line.isOf_of_split hl l (List.mem_filter.1 hmem).1
    have hbare : l.text.EndsBare := by
      rw [hof.eq_placed]
      exact Line.endsBare_body l.raw
    refine ⟨l, f.problem, _, _, hof, Line.text_ne_nil hmem, fun lines' hl' => ?_, ?_,
      (Line.inText_of_fault? hfault (Line.text_ne_nil hmem) hbare).spans⟩
    · cases hl.symm.trans hl'
      exact (List.mem_filter.1 hmem).1
    · have hfile : l.file = file := by
        rw [hof.eq_placed]
        rfl
      rw [← hfile]
      rfl

/-- What is reported of a source that is not compiled is found in the report itself. -/
theorem CompileError.explain_congr {opts : Options} {src : Bytes} {e : CompileError}
    (h : compile opts src = .error e) {d : Diagnostic} (hd : e.diagnostic? = some d)
    (load load' : Bytes → Bytes) : d.explain load = d.explain load' := by
  cases hs : Target.style opts.target with
  | error e' =>
    cases (compile_of_style_error hs src).symm.trans h
    cases hd
  | ok style =>
    cases hparse : Document.parse opts.file src with
    | ok document => cases (compile_of_parse hs hparse).symm.trans h
    | error d' =>
      cases (compile_of_parse_error hs hparse).symm.trans h
      cases hd
      obtain ⟨l, p, first, last, hof, hne, -, rfl, -⟩ := Document.parse_error_located hparse
      refine p.explain_diagnostic _ (fun hnil => ?_) load load'
      rw [hof.eq_placed, hnil] at hne
      exact hne rfl

/-- Why a compilation for a valid target fails: the error has one detail, which is at some columns
    of a line of the source that is not blank. The columns are those of the line's text or of its
    indentation, or one further if the text is a lone dash. The detail carries the line, so that
    it is explained without a look at any file. -/
theorem compile_error_located {opts : Options} {src target : Bytes} {e : CompileError}
    (ht : Target.canonical opts.target = .ok target) (h : compile opts src = .error e) :
    ∃ (d : Diagnostic) (k : Kind) (l : Line) (first last : Int) (message : Bytes),
      e = .source d ∧ d.kind = some k ∧ k ≠ .invalidTarget ∧
      d.details = [⟨some (.onLine opts.file l.number first last), message, l.raw⟩] ∧
      l.IsOf opts.file src ∧ l.text ≠ [] ∧
      (∀ lines, Line.split opts.file src = .ok lines → l ∈ lines) ∧
      l.raw ≠ [] ∧ (∀ load load', d.explain load = d.explain load') ∧
      1 ≤ first ∧ first < last ∧ first ≤ l.indent + l.text.length + 1 ∧
      last ≤ l.indent + l.text.length + 2 ∧
      (l.text ≠ "-" → last ≤ l.indent + l.text.length + 1) := by
  obtain ⟨style, hs⟩ := Target.exists_style ht
  cases hd : Document.parse opts.file src with
  | ok d =>
    rw [compile_of_parse hs hd] at h
    cases h
  | error d =>
    rw [compile_of_parse_error hs hd] at h
    cases h
    obtain ⟨l, p, first, last, hof, hne, hmem, rfl, hspans⟩ := Document.parse_error_located hd
    have hraw : l.raw ≠ [] := by
      intro hnil
      rw [hof.eq_placed, hnil] at hne
      exact hne rfl
    exact ⟨_, p.kind, l, first, last, p.message, rfl, rfl, p.kind_ne_invalidTarget, rfl, hof, hne,
      hmem, hraw, p.explain_diagnostic _ hraw, hspans⟩

/-- A value that is missing at the end of the last group of a nested line. -/
theorem compile_error_located_group :
    ∃ (src : Bytes) (d : Diagnostic) (l : Line) (message : Bytes),
      src = "%ul\n\t%li\x7ba=b\x7d(c=)" ∧ Target.canonical "1.13" = .ok "v1.13.0" ∧
      compile ⟨"f", "1.13"⟩ src = .error (.source d) ∧
      d.details = [⟨some (.onLine "f" 2 13 14), message, "\t%li\x7ba=b\x7d(c=)"⟩] ∧
      l.IsOf "f" src ∧ l.indent + l.text.length = 13 ∧
      ∀ load load', d.explain load = d.explain load' := by
  have htarget : Target.canonical "1.13" = .ok "v1.13.0" :=
    toOption_eq_some_iff.1 (by decide +kernel)
  have hrun : (match compile ⟨"f", "1.13"⟩ "%ul\n\t%li\x7ba=b\x7d(c=)" with
      | .error (.source d) => some (d.details.map fun x => (x.range, x.source))
      | _ => none) =
      some ([(some (.onLine "f" 2 13 14), "\t%li\x7ba=b\x7d(c=)")] :
        List (Option Range × Bytes)) := by
    decide +kernel
  cases hc : compile ⟨"f", "1.13"⟩ "%ul\n\t%li\x7ba=b\x7d(c=)" with
  | ok out =>
    rw [hc] at hrun
    cases hrun
  | error e =>
    obtain ⟨d, k, l, first, last, message, rfl, -, -, hdetails, hof, -, -, -, hexplain, -⟩ :=
      compile_error_located htarget hc
    rw [hc] at hrun
    have hd := Option.some.inj hrun
    rw [hdetails] at hd
    obtain ⟨hrange, hsource⟩ := Prod.mk.inj (List.singleton_inj.1 hd)
    simp only at hrange hsource
    refine ⟨_, d, l, message, rfl, htarget, hc, ?_, hof, ?_, hexplain⟩
    · rw [hdetails, hrange, hsource]
    · have hlength :
          (Line.lead "\t%li\x7ba=b\x7d(c=)").length +
            (Line.body "\t%li\x7ba=b\x7d(c=)").length = 13 := by
        decide +kernel
      rw [hof.eq_placed, hsource]
      exact hlength

end IndentMarkup
