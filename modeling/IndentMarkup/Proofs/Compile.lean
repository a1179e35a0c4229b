import IndentMarkup.Compile
import IndentMarkup.Proofs.Branches
import IndentMarkup.Proofs.Session

/-!
# When there is a template

A compilation goes through three steps that may fail: the target is checked, the source is
parsed, and a new encoder writes the document, which is then what its sink has received. The last
step never fails for the document of a source, so a compilation fails only on the target or on the
source (`compile_error_iff`), and otherwise gives the text of what is rendered (`compile_eq_ok`).
-/

namespace IndentMarkup

namespace Target

variable {target : Bytes}

theorem canonical_error_iff :
    (∃ e, canonical target = .error e) ↔ ∃ e, style target = .error e := by
  unfold style
  cases canonical target <;> simp [bind, Except.bind, pure, Except.pure]

theorem exists_style {v : Bytes} (h : canonical target = .ok v) : ∃ s, style target = .ok s :=
  ⟨_, bind_eq_ok_iff.2 ⟨v, h, rfl⟩⟩

/-- A target is checked by what decides on its style. -/
theorem validate_of_style {s : BindingStyle} (h : style target = .ok s) :
    validate target = .ok () := by
  obtain ⟨v, hv, -⟩ := bind_eq_ok_iff.1 h
  rw [validate, hv]
  rfl

theorem validate_of_style_error {e : InvalidTarget} (h : style target = .error e) :
    validate target = .error e := by
  obtain h | ⟨_, _, h⟩ := bind_eq_error_iff.1 h
  · rw [validate, h]
    rfl
  · cases h

end Target

theorem Encoder.new_of_style {target : Bytes} {s : BindingStyle} (h : Target.style target = .ok s)
    (refusal : Option Bytes) : new target refusal = .ok (fresh s refusal) :=
  bind_eq_ok_iff.2 ⟨s, h, rfl⟩

/-- A source is compiled whenever it has a document and the target is a version. -/
theorem compile_of_parse {opts : Options} {src : Bytes} {style : BindingStyle} {d : Document}
    (hs : Target.style opts.target = .ok style) (hd : Document.parse opts.file src = .ok d) :
    compile opts src = .ok (d.render style).text := by
  obtain ⟨e, henc, hreceived⟩ :=
    Encoder.exists_encode_fresh (Document.render_error_of_parse hd style)
  refine bind_eq_ok_iff.2 ⟨(), mapError_eq_ok_iff.2 (Target.validate_of_style hs), ?_⟩
  refine bind_eq_ok_iff.2 ⟨d, mapError_eq_ok_iff.2 hd, ?_⟩
  refine bind_eq_ok_iff.2 ⟨_, mapError_eq_ok_iff.2 (Encoder.new_of_style hs none), ?_⟩
  rw [henc, ← hreceived]
  rfl

theorem compile_of_style_error {opts : Options} {e : InvalidTarget}
    (hs : Target.style opts.target = .error e) (src : Bytes) :
    compile opts src = .error (.target e) :=
  bind_eq_error_iff.2 (.inl (mapError_eq_error_iff.2 ⟨e, Target.validate_of_style_error hs, rfl⟩))

theorem compile_of_parse_error {opts : Options} {src : Bytes} {style : BindingStyle}
    {e : Diagnostic} (hs : Target.style opts.target = .ok style)
    (he : Document.parse opts.file src = .error e) : compile opts src = .error (.source e) := by
  refine bind_eq_error_iff.2 (.inr ⟨(), mapError_eq_ok_iff.2 (Target.validate_of_style hs), ?_⟩)
  exact bind_eq_error_iff.2 (.inl (mapError_eq_error_iff.2 ⟨e, he, rfl⟩))

theorem compile_eq_ok {opts : Options} {src out : Bytes} (h : compile opts src = .ok out) :
    ∃ style d, Target.style opts.target = .ok style ∧ Document.parse opts.file src = .ok d ∧
      out = (d.render style).text := by
  obtain ⟨_, hv, h'⟩ := bind_eq_ok_iff.1 h
  obtain ⟨d, hd, -⟩ := bind_eq_ok_iff.1 h'
  have hv := mapError_eq_ok_iff.1 hv
  have hd := mapError_eq_ok_iff.1 hd
  cases hs : Target.style opts.target with
  | error e => cases hv.symm.trans (Target.validate_of_style_error hs)
  | ok style =>
    rw [compile_of_parse hs hd] at h
    exact ⟨style, d, rfl, hd, (Except.ok.inj h).symm⟩

/-- An encoder writes siblings if their elses are taken, each of them is of the right kind, and what
    is nested in each of them can be written. -/
theorem Encoder.encode_siblings_iff (style : BindingStyle) (range : Range) (ns : List Node) :
    ((fresh style none).encode ⟨range, ns⟩).2 = none ↔ Node.elsesTaken ns ∧
      ∀ n ∈ ns, n.isMarkup ∧ ((fresh style none).encode ⟨range, n.children⟩).2 = none := by
  have hencode : ∀ ns, ((fresh style none).encode ⟨range, ns⟩).2 = none ↔
      (Node.renderAll style 0 none ns).error = none := fun ns => by
    rw [((hasWritten_fresh style).encode ⟨range, ns⟩).2.1, Option.map_eq_none_iff]
    rfl
  simp only [hencode, Node.renderAll_error_iff style 0 none ns, Node.elsesTaken_eq,
    Node.error_render_eq_none_iff style 0]
  rfl

/-- A compilation fails exactly if the target is invalid or the source is rejected. A document
    of a source is always rendered and written, as the two ways to look for the block of an else
    agree on all siblings. -/
theorem compile_error_iff (opts : Options) (src : Bytes) :
    ((∃ e, compile opts src = .error e) ↔
      (∃ e, Target.canonical opts.target = .error e) ∨
      ∃ e, Document.parse opts.file src = .error e) ∧
    (∀ d, Document.parse opts.file src = .ok d → ∀ style,
      (d.render style).error = none ∧ ((Encoder.fresh style none).encode d).2 = none) ∧
    ∀ ns, (Node.elsesTaken ns ↔ Node.ElsesFollow ns) ∧
      (∀ style level, (Node.renderAll style level none ns).error = none ↔
        Node.elsesTaken ns ∧ ∀ n ∈ ns, (n.render style level).error = none) ∧
      ∀ style range, ((Encoder.fresh style none).encode ⟨range, ns⟩).2 = none ↔
        Node.elsesTaken ns ∧ ∀ n ∈ ns, n.isMarkup ∧
          ((Encoder.fresh style none).encode ⟨range, n.children⟩).2 = none := by
  refine ⟨?_, fun d hd style => ?_, fun ns => ⟨?_, fun style level => ?_, fun style range =>
    Encoder.encode_siblings_iff style range ns⟩⟩
  · rw [Target.canonical_error_iff]
    cases hs : Target.style opts.target with
    | error e => exact ⟨fun _ => .inl ⟨e, rfl⟩, fun _ => ⟨_, compile_of_style_error hs src⟩⟩
    | ok style =>
      cases hd : Document.parse opts.file src with
      | error e => exact ⟨fun _ => .inr ⟨e, rfl⟩, fun _ => ⟨_, compile_of_parse_error hs hd⟩⟩
      | ok d => simp [compile_of_parse hs hd]
  · have h := Document.render_error_of_parse hd style
    obtain ⟨e, henc, -⟩ := Encoder.exists_encode_fresh h
    exact ⟨h, congrArg Prod.snd henc⟩
  · rw [Node.elsesTaken_eq, Node.elsesFollow_iff]
  · rw [Node.elsesTaken_eq]
    exact Node.renderAll_error_iff style level none ns

/-- Branches nested in a branch, all of which are rendered. -/
theorem compile_error_iff_branches :
    ∃ d, Document.parse [] "-if a\n\t-unless b\n\t\t%p\n\t-else\n\t\tc\n-else\n\td" = .ok d ∧
      d.children.map Node.isElse = [false, true] ∧
      ∀ style, (d.render style).error = none ∧
        ((Encoder.fresh style none).encode d).2 = none := by
  have hrun : (Document.parse []
      "-if a\n\t-unless b\n\t\t%p\n\t-else\n\t\tc\n-else\n\td").toOption.map
        (·.children.map Node.isElse) = some [false, true] := by decide +kernel
  obtain ⟨d, hd, hels⟩ := toOption_map_eq_some_iff.1 hrun
  exact ⟨d, hd, hels, (compile_error_iff ⟨[], []⟩ _).2.1 d hd⟩

end IndentMarkup
