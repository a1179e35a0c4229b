import IndentMarkup.Proofs.Node
import IndentMarkup.Proofs.Rendering
import IndentMarkup.Proofs.Span

/-!
# Texts on one line

A line of a source has no line feed in it (`Line.oneLine_of_split`), and what is read from a line
is made of its bytes, so there is no line feed in any text of an attribute, an element or a block.
The predicate `OneLine` says so of a text, and of all texts of an attribute or an element. What is
written for them in a template is then on one line as well, since nothing that is added to these
texts has a line feed in it.
-/

namespace IndentMarkup

/-! ## Texts -/

namespace Bytes

/-- There is no line feed in the text. -/
def OneLine (t : Bytes) : Prop := Byte.lf ∉ t

instance (t : Bytes) : Decidable t.OneLine := inferInstanceAs (Decidable (_ ∉ _))

variable {s t : Bytes}

theorem OneLine.of_sublist (h : t.OneLine) (hs : s.Sublist t) : s.OneLine :=
  fun hm => h (hs.subset hm)

@[simp] theorem oneLine_nil : OneLine [] := List.not_mem_nil

@[simp] theorem oneLine_cons {b : UInt8} : OneLine (b :: t) ↔ b ≠ Byte.lf ∧ t.OneLine := by
  simp [OneLine, eq_comm]

@[simp] theorem oneLine_append : OneLine (s ++ t) ↔ s.OneLine ∧ t.OneLine := by
  simp [OneLine]

theorem notMem_of_mem_pieces {sep : UInt8} {p : Bytes} (h : p ∈ pieces sep t) : sep ∉ p := by
  induction t generalizing p with
  | nil =>
    rw [List.mem_singleton.1 h]
    exact List.not_mem_nil
  | cons b t ih =>
    rw [pieces, List.foldr_cons, ← pieces] at h
    split_ifs at h with hb
    · rcases List.mem_cons.1 h with rfl | h
      · exact List.not_mem_nil
      · exact ih h
    · -- The first piece starts with `b`, and the others are those of `t`.
      cases hp : pieces sep t with
      | nil =>
        rw [hp] at h
        cases h
      | cons q qs =>
        rw [hp] at h ih
        rcases List.mem_cons.1 h with rfl | h
        · exact List.not_mem_cons_of_ne_of_not_mem (Ne.symm hb) (ih List.mem_cons_self)
        · exact ih (List.mem_cons_of_mem _ h)

theorem oneLine_of_mem_pieces {p : Bytes} (h : p ∈ pieces Byte.lf t) : p.OneLine :=
  notMem_of_mem_pieces h

theorem oneLine_join {ts : List Bytes} (h : ∀ t ∈ ts, t.OneLine) : (join " " ts).OneLine := by
  induction ts with
  | nil => exact oneLine_nil
  | cons t ts ih =>
    obtain ⟨ht, hts⟩ := List.forall_mem_cons.1 h
    cases ts with
    | nil => simpa [join] using ht
    | cons u us =>
      have hspace : OneLine (" " : Bytes) := by decide
      rw [join, List.intercalate_cons_cons, ← join]
      exact oneLine_append.2 ⟨oneLine_append.2 ⟨ht, hspace⟩, ih hts⟩

theorem oneLine_replace {b : UInt8} {r : Bytes} (hr : r.OneLine) (ht : t.OneLine) :
    (replace b r t).OneLine := by
  intro h
  obtain ⟨c, hc, h⟩ := List.mem_flatMap.1 h
  split_ifs at h
  · exact hr h
  · rw [← List.mem_singleton.1 h] at hc
    exact ht hc

theorem exists_join_concat (sep t : Bytes) (ts : List Bytes) :
    ∃ p, join sep (ts ++ [t]) = p ++ t := by
  induction ts with
  | nil => exact ⟨[], by simp [join]⟩
  | cons u us ih =>
    obtain ⟨p, hp⟩ := ih
    refine ⟨u ++ sep ++ p, ?_⟩
    rw [List.append_assoc, ← hp]
    cases us <;> simp [join]

/-- Texts that are on one line each, and not empty, do not end with a line feed when they are
    put together. -/
theorem getLast?_join_ne {sep : Bytes} {ts : List Bytes} (h : ∀ t ∈ ts, t ≠ [] ∧ t.OneLine) :
    (join sep ts).getLast? ≠ some Byte.lf := by
  rcases List.eq_nil_or_concat ts with rfl | ⟨us, t, rfl⟩
  · exact Option.some_ne_none _ ∘ Eq.symm
  · rw [List.concat_eq_append] at h ⊢
    obtain ⟨p, hp⟩ := exists_join_concat sep t us
    obtain ⟨ht, hline⟩ := h t (List.mem_append_right us List.mem_cons_self)
    rw [hp, List.getLast?_append_of_ne_nil _ ht]
    exact fun hlast => hline (List.mem_of_getLast? hlast)

theorem dropEnd_sublist (t tail : Bytes) : (dropEnd t tail).Sublist t := by
  rw [dropEnd]
  split_ifs
  · exact List.take_sublist _ _
  · exact .refl t

theorem dropTrailingBlanks_sublist (t : Bytes) : (dropTrailingBlanks t).Sublist t := by
  rw [dropTrailingBlanks, ← List.reverse_sublist, List.reverse_reverse]
  exact List.dropWhile_sublist _

theorem dropOne?_suffix {ws : List Bytes} {rest : Bytes} (h : dropOne? ws t = some rest) :
    rest <:+ t := by
  obtain ⟨w, _, hw⟩ := List.exists_of_findSome?_eq_some h
  rw [after?_eq_some_iff.1 hw]
  exact List.suffix_append w rest

theorem dropAll_suffix (ws : List Bytes) (t : Bytes) : dropAll ws t <:+ t := by
  fun_induction dropAll ws t with
  | case1 t rest h _ ih => exact ih.trans (dropOne?_suffix h)
  | case2 t => exact List.suffix_rfl
  | case3 t => exact List.suffix_rfl

theorem trim_sublist (t : Bytes) : (trim t).Sublist t := by
  have hr : ∀ s : Bytes, (trimRight s).Sublist s := fun s => by
    rw [trimRight, ← List.reverse_sublist, List.reverse_reverse]
    exact (dropAll_suffix _ _).sublist
  exact (hr _).trans (dropAll_suffix _ t).sublist

end Bytes

/-! ## Lines -/

namespace Line

theorem text_sublist_of_place {file : Bytes} {unit unit' : Option IndentUnit} {number : Nat}
    {raw : Bytes} {l : Line} (h : place file unit number raw = .ok (l, unit')) :
    l.text.Sublist raw := by
  have hs : (Bytes.dropBlanks (Bytes.dropTrailingBlanks raw)).Sublist raw :=
    (List.dropWhile_sublist _).trans (Bytes.dropTrailingBlanks_sublist raw)
  rw [place] at h
  simp only at h
  split_ifs at h
  · cases h
    exact hs
  · split at h
    · cases h
      exact hs
    · cases h

theorem exists_raw_of_placeAll {file : Bytes} {unit : Option IndentUnit} {number : Nat}
    {raws : List Bytes} {ls : List Line} (h : placeAll file unit number raws = .ok ls) :
    ∀ l ∈ ls, ∃ raw ∈ raws, l.text.Sublist raw := by
  induction raws generalizing unit number ls with
  | nil =>
    cases h
    exact fun _ hl => absurd hl List.not_mem_nil
  | cons raw raws ih =>
    obtain ⟨⟨l, unit'⟩, hl, h⟩ := bind_eq_ok_iff.1 h
    obtain ⟨ls', hls, h⟩ := bind_eq_ok_iff.1 h
    cases h
    intro m hm
    rcases List.mem_cons.1 hm with rfl | hm
    · exact ⟨raw, List.mem_cons_self, text_sublist_of_place hl⟩
    · obtain ⟨raw', hraw, hs⟩ := ih hls m hm
      exact ⟨raw', List.mem_cons_of_mem _ hraw, hs⟩

theorem oneLine_of_mem_raws {src raw : Bytes} (h : raw ∈ raws src) : raw.OneLine := by
  rw [raws] at h
  split_ifs at h
  · exact absurd h List.not_mem_nil
  · obtain ⟨p, hp, rfl⟩ := List.mem_map.1 h
    exact (Bytes.oneLine_of_mem_pieces hp).of_sublist (Bytes.dropEnd_sublist _ _)

/-- There is no line feed in a line of a source. -/
theorem oneLine_of_split {file src : Bytes} {ls : List Line} (h : split file src = .ok ls) :
    ∀ l ∈ ls, l.text.OneLine := by
  intro l hl
  obtain ⟨raw, hraw, hs⟩ := exists_raw_of_placeAll h l hl
  exact (oneLine_of_mem_raws hraw).of_sublist hs

end Line

/-! ## Attributes -/

theorem oneLine_mustache {e : Bytes} (h : e.OneLine) : (mustache e).OneLine := by
  have hbraces : Bytes.OneLine ("\x7b\x7b" : Bytes) ∧ Bytes.OneLine ("\x7d\x7d" : Bytes) := by
    decide
  simp [mustache, hbraces, h]

theorem unescape_sublist (t : Bytes) : (unescape t).Sublist t := by
  fun_induction unescape t with
  | case1 => exact .slnil
  | case2 b => exact .refl _
  | case3 b c t _ ih => exact .cons b (ih.cons_cons c)
  | case4 b c t _ ih => exact ih.cons_cons b

theorem unquote_sublist (t : Bytes) : (unquote t).Sublist t := by
  cases t with
  | nil => exact .slnil
  | cons q body =>
    rw [unquote]
    split_ifs
    · exact ((unescape_sublist _).trans (List.dropLast_sublist body)).cons q
    · exact .refl _

/-- A token of a text is a part of it. -/
theorem Token.text_sublist_of_mem_scan {t : Bytes} {k : Token} (h : k ∈ (scan t).1) :
    k.text.Sublist t := by
  fun_induction scan t with
  | case1 t _ => cases h
  | case2 t k' rest hnext _ r ih =>
    rw [← text_append_of_next? hnext]
    rcases List.mem_cons.1 h with rfl | h
    · exact List.sublist_append_left _ _
    · exact (ih h).trans (List.sublist_append_right _ _)

theorem Token.mem_of_mem_locate {off : Nat} {ks : List Token} {x : Nat × Token}
    (h : x ∈ locate off ks) : x.2 ∈ ks := by
  induction ks generalizing off with
  | nil => cases h
  | cons k ks ih =>
    rcases List.mem_cons.1 h with rfl | h
    · exact List.mem_cons_self
    · exact List.mem_cons_of_mem _ (ih h)

namespace Attribute

/-- There is no line feed in the key and in the value. -/
def OneLine (a : Attribute) : Prop := a.key.OneLine ∧ a.value.OneLine

theorem oneLine_of_assignments {len : Nat} {ks : List (Nat × Token)} {as : List Attribute}
    (h : assignments len ks = .ok as) (hks : ∀ x ∈ ks, x.2.text.OneLine) : ∀ a ∈ as, a.OneLine := by
  fun_induction assignments len ks generalizing as with
  | case1 =>
    cases h
    exact fun _ ha => absurd ha List.not_mem_nil
  | case2 _ key _ _ t ks ih =>
    obtain ⟨as', has, h⟩ := bind_eq_ok_iff.1 h
    cases h
    simp only [List.forall_mem_cons] at hks ⊢
    exact ⟨⟨hks.1, hks.2.2.1.of_sublist (unquote_sublist t)⟩, ih has hks.2.2.2⟩
  | case3 _ key _ _ value ks ih =>
    obtain ⟨as', has, h⟩ := bind_eq_ok_iff.1 h
    cases h
    simp only [List.forall_mem_cons] at hks ⊢
    exact ⟨⟨hks.1, hks.2.2.1⟩, ih has hks.2.2.2⟩
  | case4 => cases h
  | case5 => cases h
  | case6 => cases h

theorem oneLine_of_parse {t : Bytes} {as : List Attribute} (h : parse t = .ok as)
    (ht : t.OneLine) : ∀ a ∈ as, a.OneLine := by
  rw [parse] at h
  split at h
  · rename_i ks hks
    refine oneLine_of_assignments h fun x hx => ?_
    have hmem := Token.mem_of_mem_locate (List.mem_filter.1 hx).1
    refine ht.of_sublist (Token.text_sublist_of_mem_scan ?_)
    rw [hks]
    exact hmem
  · cases h

variable {a : Attribute}

theorem oneLine_text (h : a.OneLine) : a.text.OneLine := by
  have hq : Bytes.OneLine ("=\"" : Bytes) ∧ Bytes.OneLine ("\"" : Bytes) := by decide
  have hv := Bytes.oneLine_replace (b := Byte.dquote) (r := "&quot;") (by decide) h.2
  simp [text, hq, h.1, hv]

theorem oneLine_helperText (h : a.OneLine) : a.helperText.OneLine := by
  have hq : Bytes.OneLine ("=" : Bytes) ∧ Bytes.OneLine ("\"" : Bytes) ∧
      Bytes.OneLine ("'" : Bytes) := by decide
  have hv := Bytes.oneLine_replace (b := Byte.dquote) (r := "\\\"") (by decide) h.2
  rw [helperText, helperValue]
  split_ifs <;> simp [hq, h.1, h.2, hv]

theorem oneLine_boundText (h : a.OneLine) : a.boundText.OneLine := by
  rw [boundText]
  split_ifs
  · exact oneLine_text h
  · have heq : Bytes.OneLine ("=" : Bytes) := by decide
    simp [heq, h.1, oneLine_mustache h.2]

end Attribute

/-! ## Elements -/

theorem Bracket.oneLine_of_group {k : Bracket} {off : Nat} {t inner rest : Bytes}
    (h : k.group off t = .ok (inner, rest)) (ht : t.OneLine) : inner.OneLine ∧ rest.OneLine := by
  rw [group] at h
  split at h
  · cases h
    exact ⟨ht.of_sublist ((List.take_sublist _ _).trans (List.drop_sublist _ _)),
      ht.of_sublist (List.drop_sublist _ _)⟩
  · cases h

theorem Span.oneLine_of_parseFrom {off : Nat} {t : Bytes} {s : Span}
    (h : parseFrom off t = .ok s) (ht : t.OneLine) : s.template.OneLine := by
  rwa [Bytes.OneLine, lf_mem_template_iff, source_of_parseFrom h]

namespace Element

/-- There is no line feed in any text of the element. -/
structure OneLine (el : Element) : Prop where
  tag : el.tag.OneLine
  id : el.id.OneLine
  classes : ∀ c ∈ el.classes, c.OneLine
  attributes : ∀ a ∈ el.attributes, a.OneLine
  bindings : ∀ a ∈ el.bindings, a.OneLine
  helpers : ∀ e ∈ el.helpers, e.OneLine
  content : el.content.template.OneLine

variable {el el' : Element} {t rest : Bytes}

theorem oneLine_bare (h : t.OneLine) : (bare t).OneLine := by
  constructor <;> simp [bare, Span.template, h]

theorem oneLine_of_readTag (h : readTag t = .ok (el, rest)) (ht : t.OneLine) :
    el.OneLine ∧ rest.OneLine := by
  unfold readTag at h
  split at h
  · rename_i rest'
    simp only at h
    split_ifs at h
    cases h
    have ht' := (Bytes.oneLine_cons.1 ht).2
    exact ⟨oneLine_bare (ht'.of_sublist (List.takeWhile_sublist _)),
      ht'.of_sublist (List.dropWhile_sublist _)⟩
  · cases h
    exact ⟨oneLine_bare (by decide), ht⟩

/-- A name after its sigil, and what follows it. -/
theorem oneLine_shorthand {s c : UInt8} (h : Bytes.OneLine (s :: c :: t)) :
    Bytes.OneLine (c :: t.takeWhile isNameByte) ∧ Bytes.OneLine (t.dropWhile isNameByte) := by
  obtain ⟨-, hc, ht⟩ : s ≠ Byte.lf ∧ c ≠ Byte.lf ∧ t.OneLine := by simpa using h
  exact ⟨Bytes.oneLine_cons.2 ⟨hc, ht.of_sublist (List.takeWhile_sublist _)⟩,
    ht.of_sublist (List.dropWhile_sublist _)⟩

theorem oneLine_of_readShorthands {len : Nat} (h : readShorthands len el t = .ok (el', rest))
    (hel : el.OneLine) (ht : t.OneLine) : el'.OneLine ∧ rest.OneLine := by
  fun_induction readShorthands len el t with
  | case1 el c t name rest' _ _ ih =>
    obtain ⟨hname, hrest⟩ := oneLine_shorthand ht
    have hclasses := List.forall_mem_append.2 ⟨hel.classes, List.forall_mem_singleton.2 hname⟩
    exact ih h { hel with classes := hclasses } hrest
  | case2 el s c t _ name rest' _ _ _ ih =>
    obtain ⟨hname, hrest⟩ := oneLine_shorthand ht
    exact ih h { hel with id := hname } hrest
  | case3 => cases h
  | case4 =>
    cases h
    exact ⟨hel, ht⟩
  | case5 =>
    cases h
    exact ⟨hel, ht⟩

theorem oneLine_of_addParens {start : Nat} {inner : Bytes}
    (h : addParens start el inner = .ok el') (hel : el.OneLine) (hinner : inner.OneLine) :
    el'.OneLine := by
  obtain ⟨as, has, h⟩ := bind_eq_ok_iff.1 h
  cases h
  have has' := Attribute.oneLine_of_parse (mapError_eq_ok_iff.1 has) hinner
  exact { hel with attributes := List.forall_mem_append.2 ⟨hel.attributes, has'⟩ }

theorem oneLine_of_addBraces {start stop : Nat} {inner : Bytes}
    (h : addBraces start stop el inner = .ok el') (hel : el.OneLine) (hinner : inner.OneLine) :
    el'.OneLine := by
  rw [addBraces] at h
  split_ifs at h
  · obtain ⟨as, has, h⟩ := bind_eq_ok_iff.1 h
    cases h
    exact { hel with bindings := Attribute.oneLine_of_parse (mapError_eq_ok_iff.1 has) hinner }
  · simp only at h
    split_ifs at h
    cases h
    have htrim := hinner.of_sublist (Bytes.trim_sublist inner)
    exact { hel with helpers := List.forall_mem_append.2 ⟨hel.helpers, by simpa using htrim⟩ }

theorem oneLine_of_readGroups {len : Nat} (h : readGroups len el t = .ok (el', rest))
    (hel : el.OneLine) (ht : t.OneLine) : el'.OneLine ∧ rest.OneLine := by
  fun_induction readGroups len el t with
  | case1 => cases h
  | case2 => cases h
  | case3 el t start _ inner rest' hgroup _ el₁ hadd ih =>
    obtain ⟨hinner, hrest⟩ := Bracket.oneLine_of_group hgroup ht
    exact ih h (oneLine_of_addParens hadd hel hinner) hrest
  | case4 => cases h
  | case5 => cases h
  | case6 el t start _ inner rest' hgroup _ el₁ hadd ih =>
    obtain ⟨hinner, hrest⟩ := Bracket.oneLine_of_group hgroup ht
    exact ih h (oneLine_of_addBraces hadd hel hinner) hrest
  | case7 =>
    cases h
    exact ⟨hel, ht⟩

theorem oneLine_of_readContent {len : Nat} {s : Span} (h : readContent len t = .ok s)
    (ht : t.OneLine) : s.template.OneLine := by
  unfold readContent at h
  split at h
  · rename_i rest'
    simp only at h
    split_ifs at h
    cases h
    have htrim := (Bytes.oneLine_cons.1 ht).2.of_sublist (Bytes.trim_sublist rest')
    simpa [Span.template, Segment.template] using oneLine_mustache htrim
  · exact Span.oneLine_of_parseFrom h (ht.of_sublist (List.dropWhile_sublist _))

/-- There is no line feed in an element read from a text without one. -/
theorem oneLine_of_parse (h : parse t = .ok el) (ht : t.OneLine) : el.OneLine := by
  obtain ⟨⟨el₁, t₁⟩, h₁, h⟩ := bind_eq_ok_iff.1 h
  obtain ⟨⟨el₂, t₂⟩, h₂, h⟩ := bind_eq_ok_iff.1 h
  simp only at h
  split at h
  · cases h
  · obtain ⟨⟨el₃, t₃⟩, h₃, h⟩ := bind_eq_ok_iff.1 h
    obtain ⟨content, h₄, h⟩ := bind_eq_ok_iff.1 h
    cases h
    obtain ⟨hel₁, ht₁⟩ := oneLine_of_readTag h₁ ht
    obtain ⟨hel₂, ht₂⟩ := oneLine_of_readShorthands h₂ hel₁ ht₁
    obtain ⟨hel₃, ht₃⟩ := oneLine_of_readGroups h₃ hel₂ ht₂
    exact { hel₃ with content := oneLine_of_readContent h₄ ht₃ }

theorem oneLine_bindings (style : BindingStyle) {as : List Attribute} (h : ∀ a ∈ as, a.OneLine) :
    (style.text as).OneLine := by
  cases style with
  | oneHelper =>
    have hword : Bytes.OneLine ("bind-attr " : Bytes) := by decide
    refine oneLine_mustache (Bytes.oneLine_append.2 ⟨hword, Bytes.oneLine_join ?_⟩)
    exact List.forall_mem_map.2 fun a ha => Attribute.oneLine_helperText (h a ha)
  | boundAttributes =>
    refine Bytes.oneLine_join ?_
    exact List.forall_mem_map.2 fun a ha => Attribute.oneLine_boundText (h a ha)

theorem oneLine_tagParts (style : BindingStyle) (h : el.OneLine) :
    ∀ p ∈ el.tagParts style, p.OneLine := by
  have hkeys : Bytes.OneLine ("id" : Bytes) ∧ Bytes.OneLine ("class" : Bytes) := by decide
  have hid : (Attribute.text ⟨"id", el.id, false⟩).OneLine :=
    Attribute.oneLine_text ⟨hkeys.1, h.id⟩
  have hclass : (Attribute.text ⟨"class", Bytes.join " " el.classes, false⟩).OneLine :=
    Attribute.oneLine_text ⟨hkeys.2, Bytes.oneLine_join h.classes⟩
  have hattributes : (Attribute.textOfList el.attributes).OneLine :=
    Bytes.oneLine_join
      (List.forall_mem_map.2 fun a ha => Attribute.oneLine_text (h.attributes a ha))
  have hhelpers : ∀ p ∈ el.helpers.map mustache, p.OneLine :=
    List.forall_mem_map.2 fun e he => oneLine_mustache (h.helpers e he)
  simp only [tagParts, List.forall_mem_append, List.forall_mem_singleton]
  refine ⟨⟨⟨⟨⟨h.tag, ?_⟩, ?_⟩, ?_⟩, ?_⟩, hhelpers⟩ <;> split_ifs <;>
    simp [hid, hclass, hattributes, oneLine_bindings style h.bindings]

theorem oneLine_openTag (style : BindingStyle) (h : el.OneLine) : (el.openTag style).OneLine := by
  have hparts := Bytes.oneLine_join (oneLine_tagParts style h)
  have hangle : Bytes.OneLine ("<" : Bytes) ∧ Bytes.OneLine (">" : Bytes) := by decide
  simp [openTag, hangle, hparts]

theorem oneLine_closeTag (h : el.OneLine) : el.closeTag.OneLine := by
  have hangle : Bytes.OneLine ("</" : Bytes) ∧ Bytes.OneLine (">" : Bytes) := by decide
  simp [closeTag, hangle, h.tag]

end Element

/-! ## Blocks and expressions -/

namespace Block

variable {b : Block} {t : Bytes}

theorem oneLine_of_parse (h : parse t = .ok b) (ht : t.OneLine) :
    b.keyword.name.OneLine ∧ b.argument.OneLine := by
  have hbody : (Bytes.dropBlanks (t.drop 1)).OneLine :=
    ht.of_sublist ((List.dropWhile_sublist _).trans (List.drop_sublist _ _))
  have hparts := And.intro (hbody.of_sublist (List.takeWhile_sublist (!Bytes.isBlank ·)))
    (hbody.of_sublist ((Bytes.trim_sublist _).trans (List.dropWhile_sublist (!Bytes.isBlank ·))))
  unfold parse at h
  simp only at h
  split_ifs at h <;> cases h <;> exact hparts

theorem oneLine_opening (h : b.keyword.name.OneLine ∧ b.argument.OneLine) :
    b.opening.OneLine := by
  rw [opening]
  split_ifs
  · decide
  · have hmarks : Bytes.OneLine ("#" : Bytes) ∧ Bytes.OneLine (" " : Bytes) := by decide
    exact oneLine_mustache (by simp [hmarks, h])

theorem oneLine_closing (h : b.keyword.name.OneLine) : b.closing.OneLine := by
  have hslash : Bytes.OneLine ("/" : Bytes) := by decide
  exact oneLine_mustache (by simp [hslash, h])

end Block

theorem oneLine_of_parseExpression {t v : Bytes} (h : parseExpression t = .ok v)
    (ht : t.OneLine) : v.OneLine := by
  unfold parseExpression at h
  simp only at h
  split_ifs at h
  cases h
  exact ht.of_sublist ((Bytes.trim_sublist _).trans (List.drop_sublist _ _))

end IndentMarkup
