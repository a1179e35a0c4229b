import IndentMarkup.Proofs.Basic
import Mathlib.Tactic.SplitIfs

/-!
# Spans and the texts they are read from

Nothing of a text is lost when it is cut into segments: the span of a text is written in a
source exactly like that text (`Span.source_of_parseFrom`). What a span is in a template has the
same bytes in it but for the delimiters of expressions, so questions about it, such as whether
there is anything to see, are questions about the text (`Span.template_eq_nil_iff`,
`Span.lf_mem_template_iff`).
-/

namespace IndentMarkup

theorem getElem?_closingBrace {depth : Int} {t : Bytes} {n : Nat}
    (h : closingBrace depth t = some n) : t[n]? = some Byte.rbrace := by
  fun_induction closingBrace depth t generalizing n with
  | case1 => cases h
  | case3 t =>
    cases h
    rfl
  | case2 depth t ih | case4 depth t _ _ ih | case5 depth b t _ _ ih =>
    obtain ⟨m, hm, rfl⟩ := Option.map_eq_some_iff.1 h
    exact ih hm

/-- A text goes on with a brace at the offset of a closing one. -/
theorem eq_of_closingBrace {depth : Int} {t : Bytes} {n : Nat} (h : closingBrace depth t = some n) :
    t = t.take n ++ Byte.rbrace :: t.drop (n + 1) := by
  obtain ⟨hn, hb⟩ := List.getElem?_eq_some_iff.1 (getElem?_closingBrace h)
  rw [← hb, List.getElem_cons_drop, List.take_append_drop]

namespace Span

theorem eq_of_cutOpening_none {t lit : Bytes} (h : cutOpening t = (lit, none)) : t = lit := by
  induction t using cutOpening.induct generalizing lit with
  | case1 =>
    cases h
    rfl
  | case2 b =>
    cases h
    rfl
  | case3 b c t hbc =>
    rw [cutOpening, if_pos hbc] at h
    cases h
  | case4 b c t hbc ih =>
    rw [cutOpening, if_neg hbc] at h
    obtain ⟨hl, hr⟩ := Prod.mk.inj h
    rw [← hl]
    exact congrArg (b :: ·) (ih (Prod.ext rfl hr))

@[simp] theorem source_cons (x : Segment) (s : Span) : source (x :: s) = x.source ++ source s :=
  List.flatMap_cons

@[simp] theorem source_append (s s' : Span) : source (s ++ s') = source s ++ source s' :=
  List.flatMap_append

@[simp] theorem source_ofLiteral (t : Bytes) : (ofLiteral t).source = t := by
  rw [ofLiteral]
  cases t <;> simp [source, Segment.source]

/-- The span of a text is written like the text. -/
theorem source_of_parseFrom {off : Nat} {t : Bytes} {s : Span} (h : parseFrom off t = .ok s) :
    s.source = t := by
  fun_induction parseFrom off t generalizing s with
  | case1 off t lit hcut =>
    cases h
    rw [eq_of_cutOpening_none hcut, source_ofLiteral]
  | case2 => cases h
  | case3 => cases h
  | case4 off t lit rest hcut start n hn value next hv _ =>
    rename_i ih
    obtain ⟨tail, htail, h⟩ := bind_eq_ok_iff.1 h
    cases h
    have hrest : rest = value ++ Byte.rbrace :: tail.source := by
      rw [ih htail]
      exact eq_of_closingBrace hn
    have hvalue : (Segment.interpolation value).source ++ tail.source =
        Byte.hash :: Byte.lbrace :: (value ++ Byte.rbrace :: tail.source) := by
      rw [Segment.source, List.append_assoc]
      exact List.append_assoc _ _ _
    rw [eq_of_cutOpening hcut, source_append, source_ofLiteral, source_cons, hvalue, ← hrest]

/-! ## Spans in templates -/

theorem template_eq_nil_iff {s : Span} : s.template = [] ↔ s.source = [] := by
  rw [template, source, List.flatMap_eq_nil_iff, List.flatMap_eq_nil_iff]
  refine forall₂_congr fun x _ => ?_
  cases x with
  | literal t => rfl
  | interpolation v =>
    refine ⟨fun h => ?_, fun h => ?_⟩ <;> cases h

theorem lf_mem_template_iff {s : Span} : Byte.lf ∈ s.template ↔ Byte.lf ∈ s.source := by
  rw [template, source, List.mem_flatMap, List.mem_flatMap]
  refine exists_congr fun x => and_congr_right fun _ => ?_
  cases x with
  | literal t => rfl
  | interpolation v =>
    have hdelims : Byte.lf ∉ ("\x7b\x7b" : Bytes) ∧ Byte.lf ∉ ("\x7d\x7d" : Bytes) ∧
        Byte.lf ∉ ("#\x7b" : Bytes) ∧ Byte.lf ∉ ("\x7d" : Bytes) := by decide
    simp [Segment.template, Segment.source, mustache, hdelims]

end Span

end IndentMarkup
