import IndentMarkup.Proofs.Branches
import IndentMarkup.Proofs.Indentation
import IndentMarkup.Proofs.Preorder

/-!
# Well-formed documents

A tree that is built by hand may hold anything. The document of a source is *well formed*
(`Document.wellFormed_of_mem_preorder`): names are made of the bytes of names (`Bytes.MadeOf`),
expressions, arguments and helper calls are not empty and have no white space around them
(`Bytes.IsTrimmed`), an element has content on its own line or others nested in it but not both,
and an else follows its block. There is no line feed in any of the texts of a node (`Node.texts`).

What a node is on its own is settled when its line is read, with one lemma for each reader. What is
nested in it comes later and does not change that, so the rest is one induction over the nesting of
the lines (`Nesting.forall_mem_preorderAll`).
-/

namespace IndentMarkup

/-! ## Texts -/

namespace Bytes

/-- The text is not empty, and all its bytes satisfy `p`. -/
def MadeOf (p : UInt8 → Bool) (t : Bytes) : Prop := t ≠ [] ∧ ∀ b ∈ t, p b

/-- The text is not empty, and there is no white space around it. -/
def IsTrimmed (t : Bytes) : Prop := t ≠ [] ∧ trim t = t

instance (p : UInt8 → Bool) (t : Bytes) : Decidable (t.MadeOf p) :=
  inferInstanceAs (Decidable (_ ∧ _))

theorem madeOf_cons_takeWhile {p : UInt8 → Bool} {b : UInt8} (hb : p b) (t : Bytes) :
    MadeOf p (b :: t.takeWhile p) :=
  ⟨List.cons_ne_nil _ _, List.forall_mem_cons.2 ⟨hb, fun _ => List.mem_takeWhile_imp⟩⟩

variable {ws : List Bytes} {s t : Bytes}

theorem dropOne?_eq_none_iff : dropOne? ws t = none ↔ ∀ w ∈ ws, ¬w <+: t := by
  rw [dropOne?, List.findSome?_eq_none_iff]
  refine forall₂_congr fun w _ => ?_
  rw [Option.eq_none_iff_forall_ne_some]
  refine ⟨?_, fun h rest hrest => h ⟨rest, (after?_eq_some_iff.1 hrest).symm⟩⟩
  rintro h ⟨rest, rfl⟩
  exact h rest (after?_eq_some_iff.2 rfl)

/-- Nothing that is dropped is left at the beginning. -/
theorem dropOne?_dropAll (hws : [] ∉ ws) (t : Bytes) : dropOne? ws (dropAll ws t) = none := by
  fun_induction dropAll ws t with
  | case1 t rest h hlt ih => exact ih
  | case2 t rest h hle =>
    -- What was dropped is not empty, so the rest is shorter.
    obtain ⟨w, hw, hrest⟩ := List.exists_of_findSome?_eq_some h
    rw [after?_eq_some_iff.1 hrest, List.length_append] at hle
    have : w ≠ [] := fun hnil => hws (hnil ▸ hw)
    have := List.length_pos_iff.2 this
    omega
  | case3 t h => exact h

theorem dropAll_eq_self (h : dropOne? ws t = none) : dropAll ws t = t := by
  rw [dropAll, h]

theorem nil_notMem_whites : [] ∉ whites := by decide +kernel

theorem trimRight_isPrefix (t : Bytes) : trimRight t <+: t := by
  rw [trimRight, ← List.reverse_suffix, List.reverse_reverse]
  exact dropAll_suffix _ _

/-- There is no white space to take off a text from which it was taken off. -/
theorem trim_trim (t : Bytes) : trim (trim t) = trim t := by
  have hleft : trimLeft (trim t) = trim t := by
    -- What is at the beginning of the result was there before its end was cut off.
    refine dropAll_eq_self (dropOne?_eq_none_iff.2 fun w hw hstart => ?_)
    exact dropOne?_eq_none_iff.1 (dropOne?_dropAll nil_notMem_whites t) w hw
      (hstart.trans (trimRight_isPrefix _))
  have hright : trimRight (trim t) = trim t := by
    have hnil : [] ∉ whites.map List.reverse := by
      simpa using nil_notMem_whites
    have hself := dropAll_eq_self (dropOne?_dropAll hnil (trimLeft t).reverse)
    rw [trim, trimRight, trimRight, List.reverse_reverse, hself]
  rw [trim, hleft, hright]

theorem isTrimmed_trim (h : ¬(trim t).isEmpty) : (trim t).IsTrimmed :=
  ⟨fun hnil => h (List.isEmpty_iff.2 hnil), trim_trim t⟩

end Bytes

/-! ## Attributes -/

/-- A word token is made of the bytes of words. -/
theorem Token.madeOf_of_mem_scan {s t : Bytes} (h : .word t ∈ (scan s).1) :
    t.MadeOf isWordByte := by
  fun_induction scan s with
  | case1 s _ => cases h
  | case2 s k rest hnext _ r ih =>
    rcases List.mem_cons.1 h with rfl | h
    · cases s with
      | nil => cases hnext
      | cons b s =>
        rw [next?] at hnext
        split_ifs at hnext with hquote heq hgap
        · obtain ⟨_, _, he⟩ := Option.map_eq_some_iff.1 hnext
          cases he
        · cases hnext
        · cases hnext
        · cases hnext
          exact Bytes.madeOf_cons_takeWhile (by simp [isWordByte, hquote, heq, hgap]) s
    · exact ih h

namespace Attribute

/-- The key is a word, and so is the value unless it was quoted. -/
structure WellFormed (a : Attribute) : Prop where
  key : a.key.MadeOf isWordByte
  value : a.quoted = false → a.value.MadeOf isWordByte

theorem wellFormed_of_assignments {len : Nat} {ks : List (Nat × Token)} {as : List Attribute}
    (h : assignments len ks = .ok as)
    (hks : ∀ x ∈ ks, ∀ t, x.2 = .word t → t.MadeOf isWordByte) : ∀ a ∈ as, a.WellFormed := by
  fun_induction assignments len ks generalizing as with
  | case1 =>
    cases h
    exact fun _ ha => absurd ha List.not_mem_nil
  | case2 _ key _ _ t ks ih =>
    obtain ⟨as', has, h⟩ := bind_eq_ok_iff.1 h
    cases h
    simp only [List.forall_mem_cons] at hks ⊢
    exact ⟨⟨hks.1 key rfl, fun hq => absurd hq (by simp)⟩, ih has hks.2.2.2⟩
  | case3 _ key _ _ value ks ih =>
    obtain ⟨as', has, h⟩ := bind_eq_ok_iff.1 h
    cases h
    simp only [List.forall_mem_cons] at hks ⊢
    exact ⟨⟨hks.1 key rfl, fun _ => hks.2.2.1 value rfl⟩, ih has hks.2.2.2⟩
  | case4 => cases h
  | case5 => cases h
  | case6 => cases h

theorem wellFormed_of_parse {t : Bytes} {as : List Attribute} (h : parse t = .ok as) :
    ∀ a ∈ as, a.WellFormed := by
  rw [parse] at h
  split at h
  · rename_i ks hks
    refine wellFormed_of_assignments h fun x hx w hw => ?_
    have hmem := Token.mem_of_mem_locate (List.mem_filter.1 hx).1
    rw [hw] at hmem
    refine Token.madeOf_of_mem_scan (s := t) ?_
    rw [hks]
    exact hmem
  · cases h

end Attribute

/-! ## Spans -/

/-- The literal text or the expression of a segment. -/
def Segment.text : Segment → Bytes
  | literal t | interpolation t => t

namespace Span

theorem source_eq_nil_of_isHollow {s : Span} (h : s.isHollow) : s.source = [] := by
  rw [source, List.flatMap_eq_nil_iff]
  intro x hx
  have hx' := List.all_eq_true.1 h x hx
  cases x with
  | literal t => cases t <;> simp_all [Segment.source]
  | interpolation v => cases hx'

/-- There is something to see of the span of a text, unless there is none of the text. -/
theorem isHollow_of_parseFrom {off : Nat} {t : Bytes} {s : Span} (h : parseFrom off t = .ok s)
    (ht : t ≠ []) : s.isHollow = false := by
  by_contra hollow
  rw [Bool.not_eq_false] at hollow
  rw [← source_of_parseFrom h] at ht
  exact ht (source_eq_nil_of_isHollow hollow)

theorem oneLine_of_mem {s : Span} (h : s.template.OneLine) :
    ∀ t ∈ s.map Segment.text, t.OneLine := by
  refine List.forall_mem_map.2 fun x hx hmem => h (List.mem_flatMap.2 ⟨x, hx, ?_⟩)
  cases x with
  | literal t => exact hmem
  | interpolation v => exact List.mem_append_left _ (List.mem_append_right _ hmem)

end Span

/-! ## Elements -/

namespace Element

/-- The names of the element are made of their bytes, its attributes are well formed, its helper
    calls are trimmed, and there is something to see of its content unless it has none. -/
structure WellFormed (el : Element) : Prop where
  tag : el.tag.MadeOf isTagByte
  id : el.id = [] ∨ el.id.MadeOf isNameByte
  classes : ∀ c ∈ el.classes, c.MadeOf isNameByte
  attributes : ∀ a ∈ el.attributes, a.WellFormed
  bindings : ∀ a ∈ el.bindings, a.WellFormed
  helpers : ∀ e ∈ el.helpers, e.IsTrimmed
  content : el.content ≠ [] → el.content.isHollow = false

variable {el el' : Element} {t rest : Bytes} {len : Nat}

theorem wellFormed_bare (h : t.MadeOf isTagByte) : (bare t).WellFormed := by
  constructor <;> simp [bare, h]

theorem wellFormed_of_readTag (h : readTag t = .ok (el, rest)) : el.WellFormed := by
  unfold readTag at h
  split at h
  · simp only at h
    split_ifs at h with htag
    cases h
    exact wellFormed_bare ⟨by simpa using htag, fun _ => List.mem_takeWhile_imp⟩
  · cases h
    exact wellFormed_bare (by decide +kernel)

theorem wellFormed_of_readShorthands (h : readShorthands len el t = .ok (el', rest))
    (hel : el.WellFormed) : el'.WellFormed := by
  fun_induction readShorthands len el t with
  | case1 el c t name rest' _ hc ih =>
    have hname : Bytes.MadeOf isNameByte name := Bytes.madeOf_cons_takeWhile hc.2 t
    have hclasses := List.forall_mem_append.2 ⟨hel.classes, List.forall_mem_singleton.2 hname⟩
    exact ih h { hel with classes := hclasses }
  | case2 el s c t hc name rest' _ _ _ ih =>
    have hname : Bytes.MadeOf isNameByte name := Bytes.madeOf_cons_takeWhile hc.2 t
    exact ih h { hel with id := .inr hname }
  | case3 => cases h
  | case4 =>
    cases h
    exact hel
  | case5 =>
    cases h
    exact hel

theorem wellFormed_of_addParens {start : Nat} {inner : Bytes}
    (h : addParens start el inner = .ok el') (hel : el.WellFormed) : el'.WellFormed := by
  obtain ⟨as, has, h⟩ := bind_eq_ok_iff.1 h
  cases h
  have has' := Attribute.wellFormed_of_parse (mapError_eq_ok_iff.1 has)
  exact { hel with attributes := List.forall_mem_append.2 ⟨hel.attributes, has'⟩ }

theorem wellFormed_of_addBraces {start stop : Nat} {inner : Bytes}
    (h : addBraces start stop el inner = .ok el') (hel : el.WellFormed) : el'.WellFormed := by
  rw [addBraces] at h
  split_ifs at h
  · obtain ⟨as, has, h⟩ := bind_eq_ok_iff.1 h
    cases h
    exact { hel with bindings := Attribute.wellFormed_of_parse (mapError_eq_ok_iff.1 has) }
  · simp only at h
    split_ifs at h with hempty
    cases h
    have hhelper := List.forall_mem_singleton.2 (Bytes.isTrimmed_trim hempty)
    exact { hel with helpers := List.forall_mem_append.2 ⟨hel.helpers, hhelper⟩ }

theorem wellFormed_of_readGroups (h : readGroups len el t = .ok (el', rest))
    (hel : el.WellFormed) : el'.WellFormed := by
  fun_induction readGroups len el t with
  | case1 => cases h
  | case2 => cases h
  | case3 _ _ _ _ _ _ _ _ el₁ hadd ih => exact ih h (wellFormed_of_addParens hadd hel)
  | case4 => cases h
  | case5 => cases h
  | case6 _ _ _ _ _ _ _ _ el₁ hadd ih => exact ih h (wellFormed_of_addBraces hadd hel)
  | case7 =>
    cases h
    exact hel

theorem isHollow_of_readContent {s : Span} (h : readContent len t = .ok s) (hs : s ≠ []) :
    s.isHollow = false := by
  unfold readContent at h
  split at h
  · simp only at h
    split_ifs at h
    cases h
    rfl
  · -- No text has no span, and then there was nothing to show.
    refine Span.isHollow_of_parseFrom h fun hnil => ?_
    rw [hnil, Span.parseFrom] at h
    cases h
    exact hs rfl

theorem wellFormed_of_parse (h : parse t = .ok el) : el.WellFormed := by
  obtain ⟨⟨el₁, t₁⟩, h₁, h⟩ := bind_eq_ok_iff.1 h
  obtain ⟨⟨el₂, t₂⟩, h₂, h⟩ := bind_eq_ok_iff.1 h
  simp only at h
  split at h
  · cases h
  · obtain ⟨⟨el₃, t₃⟩, h₃, h⟩ := bind_eq_ok_iff.1 h
    obtain ⟨content, h₄, h⟩ := bind_eq_ok_iff.1 h
    cases h
    have hel₂ := wellFormed_of_readShorthands h₂ (wellFormed_of_readTag h₁)
    exact { wellFormed_of_readGroups h₃ hel₂ with content := isHollow_of_readContent h₄ }

end Element

/-! ## Blocks and expressions -/

/-- An if, unless or each has an argument, and an else has none. -/
def Block.WellFormed (b : Block) : Prop :=
  (b.keyword = .ifWord ∨ b.keyword = .unlessWord ∨ b.keyword = .eachWord) ∧ b.argument.IsTrimmed ∨
    b.keyword = .elseWord ∧ b.argument = []

theorem Keyword.isKnown_iff {k : Keyword} :
    k.isKnown ↔ k = .ifWord ∨ k = .unlessWord ∨ k = .eachWord ∨ k = .elseWord := by
  simp [isKnown, known]

theorem Block.wellFormed_of_parse {b : Block} {t : Bytes} (h : parse t = .ok b) : b.WellFormed := by
  unfold parse at h
  simp only at h
  split_ifs at h with hword hknown helse hempty hempty
  · cases h
    exact .inr ⟨helse, List.isEmpty_iff.1 hempty⟩
  · cases h
    refine .inl ⟨?_, Bytes.isTrimmed_trim hempty⟩
    rw [Bool.not_eq_true', Bool.not_eq_false] at hknown
    rcases Keyword.isKnown_iff.1 hknown with hk | hk | hk | hk
    · exact .inl hk
    · exact .inr (.inl hk)
    · exact .inr (.inr hk)
    · exact absurd hk helse

theorem isTrimmed_of_parseExpression {t v : Bytes} (h : parseExpression t = .ok v) :
    v.IsTrimmed := by
  unfold parseExpression at h
  simp only at h
  split_ifs at h with hempty
  cases h
  exact Bytes.isTrimmed_trim hempty

/-! ## Nodes -/

namespace Node

/-- The node is well formed on its own, and has content on its line or others nested in it but
    not both. -/
def WellFormed : Node → Prop
  | element _ el cs => el.WellFormed ∧ (el.content ≠ [] → cs = [])
  | text _ s => s.isHollow = false
  | expression _ v => v.IsTrimmed
  | block _ b _ => b.WellFormed
  | document _ _ | absent => False

/-- The texts of a node, apart from what is nested in it. -/
def texts : Node → List Bytes
  | element _ el _ =>
    el.tag :: el.id :: el.classes ++
      (el.attributes ++ el.bindings).flatMap (fun a => [a.key, a.value]) ++
      el.helpers ++ el.content.map Segment.text
  | text _ s => s.map Segment.text
  | expression _ v => [v]
  | block _ b _ => [b.keyword.name, b.argument]
  | document _ _ | absent => []

variable {r : Range} {t : Bytes} {n : Node}

theorem wellFormed_of_ofText (h : ofText r t = .ok n) (ht : t ≠ []) {cs : List Node}
    (hcs : cs ≠ [] → Outline.refusal? n = none) : (n.withChildren cs).WellFormed := by
  obtain ⟨b, hb, rfl⟩ | ⟨v, hv, rfl⟩ | ⟨el, hel, rfl⟩ | ⟨s, hs, rfl⟩ := ofText_eq_ok h
  · exact Block.wellFormed_of_parse hb
  · exact isTrimmed_of_parseExpression hv
  · refine ⟨Element.wellFormed_of_parse hel, fun hcontent => ?_⟩
    by_contra hne
    exact hcontent (by simpa [Outline.refusal?] using hcs hne)
  · exact Span.isHollow_of_parseFrom hs ht

theorem oneLine_texts (h : ofText r t = .ok n) (ht : t.OneLine) (cs : List Node) :
    ∀ s ∈ (n.withChildren cs).texts, s.OneLine := by
  obtain ⟨b, hb, rfl⟩ | ⟨v, hv, rfl⟩ | ⟨el, hel, rfl⟩ | ⟨s, hs, rfl⟩ := ofText_eq_ok h
  · have hone := Block.oneLine_of_parse hb ht
    simpa [withChildren, texts] using hone
  · simpa [withChildren, texts] using oneLine_of_parseExpression hv ht
  · have hone := Element.oneLine_of_parse hel ht
    have hattr : ∀ s ∈ (el.attributes ++ el.bindings).flatMap (fun a => [a.key, a.value]),
        s.OneLine := by
      refine List.forall_mem_flatMap.2 fun a ha => ?_
      have ha' := List.forall_mem_append.2 ⟨hone.attributes, hone.bindings⟩ a ha
      simpa [Attribute.OneLine] using ha'
    simp only [withChildren, texts, List.cons_append, List.forall_mem_cons, List.forall_mem_append]
    exact ⟨hone.tag, hone.id, ⟨⟨hone.classes, hattr⟩, hone.helpers⟩,
      Span.oneLine_of_mem hone.content⟩
  · exact Span.oneLine_of_mem (Span.oneLine_of_parseFrom hs ht)

end Node

/-! ## Documents -/

namespace Nesting

variable {k : Nat} {e : Bool} {ls : List Line} {ns : List Node}

theorem elsesFollow (h : Nesting k false ls ns) : Node.ElsesFollow ns :=
  Node.elsesFollow_iff.2 (h.render_error .oneHelper).1

/-- What holds of the nodes of lines, whatever they admit to be nested in them, holds of all nodes
    of a nesting. -/
theorem forall_mem_preorderAll (h : Nesting k e ls ns) {P : Node → Prop}
    (hP : ∀ l ∈ ls, ∀ n cs, Node.ofLine l = .ok n → (cs ≠ [] → Outline.refusal? n = none) →
      Node.ElsesFollow (n.withChildren cs).children → P (n.withChildren cs)) :
    ∀ j n, (j, n) ∈ Node.preorderAll k ns → P n := by
  suffices hall : ∀ x ∈ Node.preorderAll k ns, P x.2 from fun j n hmem => hall (j, n) hmem
  induction h with
  | nil => exact fun _ hx => absurd hx List.not_mem_nil
  | @cons k e l n inner rest cs ns depth node leads admits children siblings ihc ihs =>
    rw [List.forall_mem_append, List.forall_mem_cons] at hP
    obtain ⟨⟨hl, hinner⟩, hrest⟩ := hP
    have hcs := children_withChildren node admits children
    have hadmits : cs ≠ [] → Outline.refusal? n = none := fun hne =>
      admits fun hnil => hne (children.nil_iff.1 hnil)
    rw [Node.preorderAll, Node.preorder_eq, hcs, List.cons_append, List.forall_mem_cons,
      List.forall_mem_append]
    refine ⟨hl n cs node hadmits ?_, ihc hinner, ihs hrest⟩
    rw [hcs]
    exact children.elsesFollow

end Nesting

/-- Every node of the document of a source is well formed, an else follows an if or unless among
    its siblings, and there is no line feed in any text of a node. The file that a node names is
    the given one. -/
theorem Document.wellFormed_of_mem_preorder {file src : Bytes} {d : Document}
    (h : Document.parse file src = .ok d) :
    Node.ElsesFollow d.children ∧
    ∀ k n, (k, n) ∈ d.preorder →
      n.WellFormed ∧ Node.ElsesFollow n.children ∧ (∀ t ∈ n.texts, Byte.lf ∉ t) ∧
      n.range.start.file = file ∧ n.range.stop.file = file := by
  obtain ⟨lines, hl, hn⟩ := nesting_of_parse h
  refine ⟨hn.elsesFollow, hn.forall_mem_preorderAll ?_⟩
  intro l hmem n cs hnode hadmits hels
  have hlines := (List.mem_filter.1 hmem).1
  have hone := Line.oneLine_of_split hl l hlines
  have hfile := Line.file_of_placeAll hl l hlines
  refine ⟨Node.wellFormed_of_ofText hnode (Line.text_ne_nil hmem) hadmits, hels,
    Node.oneLine_texts hnode hone cs, ?_⟩
  rw [Node.range_withChildren, Node.range_of_ofLine hnode]
  exact ⟨hfile, hfile⟩

/-- An element with all that a header can have, and two branches. -/
theorem Document.wellFormed_of_mem_preorder_branches :
    ∃ d, Document.parse "a"
        "%b#c.d(e=f g='h i'){j=k}{l m}= n\n-if o\n\tp #\x7bq\x7d\n-else\n\t= r" = .ok d ∧
      d.preorder.map Prod.fst = [0, 0, 1, 0, 1] ∧ Node.ElsesFollow d.children ∧
      ∀ k n, (k, n) ∈ d.preorder →
        n.WellFormed ∧ Node.ElsesFollow n.children ∧ (∀ t ∈ n.texts, Byte.lf ∉ t) ∧
        n.range.start.file = "a" ∧ n.range.stop.file = "a" := by
  have hrun : (Document.parse "a"
      "%b#c.d(e=f g='h i'){j=k}{l m}= n\n-if o\n\tp #\x7bq\x7d\n-else\n\t= r").toOption.map
        (·.preorder.map Prod.fst) = some [0, 0, 1, 0, 1] := by decide +kernel
  obtain ⟨d, hd, hdepths⟩ := toOption_map_eq_some_iff.1 hrun
  exact ⟨d, hd, hdepths, wellFormed_of_mem_preorder hd⟩

end IndentMarkup
