import IndentMarkup.Proofs.Encoder

/-!
# Documents one after the other

An encoder may write any number of documents, some of which cannot be rendered. What it leaves in
the buffer then is still there when it goes on, in front of what is written next.

Over a destination that takes all bytes, the view of a sink is what has been written to it,
received or still buffered (`Sink.Holds`): writing appends to it, flushing does not change it, and
so every document adds what a new encoder would write of it (`Encoder.emitted`), whether or not
it can be rendered. Over a destination that refuses all bytes, the buffer holds what was written up
to the first failure (`Sink.Refuses`), which comes with the end of the first document that can be
rendered after any byte was written, or earlier with a full buffer. Both are kept by each document,
and so by any number of them (`Encoder.after_emitted`).
-/

namespace IndentMarkup

/-! ## Sinks -/

namespace Sink

variable {s : Sink} {reason t u : Bytes}

/-- The destination takes all bytes, and `t` is what was written, whether or not it has left the
    buffer. -/
structure Holds (t : Bytes) (s : Sink) : Prop where
  refusal : s.refusal = none
  failure : s.failure = none
  written : s.received ++ s.buffered = t
  length_le : s.buffered.length ≤ capacity

theorem holds_new : (new none).Holds [] := ⟨rfl, rfl, rfl, Nat.zero_le _⟩

theorem Holds.deliver (h : s.Holds t) {n : Nat} (hle : (u.drop n).length ≤ capacity) :
    (s.deliver n u).Holds (s.received ++ u) := by
  rw [Sink.deliver, h.refusal]
  exact ⟨rfl, h.failure, by rw [List.append_assoc, List.take_append_drop], hle⟩

theorem Holds.write (h : s.Holds t) (u : Bytes) : (s.write u).Holds (t ++ u) := by
  have htext : t ++ u = s.received ++ (s.buffered ++ u) := by rw [← h.written, List.append_assoc]
  rw [Sink.write, h.failure, htext]
  simp only [Option.isSome_none, Bool.false_eq_true, if_false]
  split_ifs with hle
  · exact ⟨h.refusal, rfl, rfl, hle⟩
  · -- What is left after whole buffers are handed on is a buffer at most.
    refine h.deliver ?_
    rw [List.length_drop]
    generalize (s.buffered ++ u).length = n at hle ⊢
    simp only [capacity] at hle ⊢
    omega

theorem isView_holds : IsView Holds where
  write h _ := h.write _
  failed h hfail := absurd h.failure hfail

theorem Holds.flush (h : s.Holds t) : s.flush.Holds t ∧ s.flush.buffered = [] := by
  rw [Sink.flush]
  split_ifs with hempty
  · exact ⟨h, by simpa [h.failure] using hempty⟩
  · have hdeliver : (s.deliver s.buffered.length s.buffered).Holds (s.received ++ s.buffered) :=
      h.deliver (by simp)
    rw [h.written] at hdeliver
    refine ⟨hdeliver, ?_⟩
    rw [Sink.deliver, h.refusal]
    exact List.drop_length

/-- The destination refuses all bytes, and `t` is what was written: it is in the buffer as long as
    the sink has not failed, which it cannot before there is anything to hand on. -/
structure Refuses (reason t : Bytes) (s : Sink) : Prop where
  refusal : s.refusal = some reason
  received : s.received = []
  buffered : s.failure = none → s.buffered = t
  failure : s.failure ≠ none → t ≠ []

theorem refuses_new (reason : Bytes) : (new (some reason)).Refuses reason [] :=
  ⟨rfl, rfl, fun _ => rfl, fun h => absurd rfl h⟩

theorem Refuses.deliver (h : s.Refuses reason t) (hu : u ≠ []) (n : Nat) (v : Bytes) :
    (s.deliver n v).Refuses reason u ∧ (s.deliver n v).failure = some reason := by
  rw [Sink.deliver, h.refusal]
  exact ⟨⟨rfl, h.received, fun hf => absurd hf (Option.some_ne_none _), fun _ => hu⟩, rfl⟩

theorem Refuses.write (h : s.Refuses reason t) (hu : u ≠ []) :
    (s.write u).Refuses reason (t ++ u) := by
  have hne : t ++ u ≠ [] := List.append_ne_nil_of_right_ne_nil t hu
  rw [Sink.write]
  split_ifs with hf
  · exact ⟨h.refusal, h.received, fun hnone => absurd hf (by simp [hnone]), fun _ => hne⟩
  · have hnone : s.failure = none := by simpa using hf
    simp only
    split_ifs
    · exact ⟨h.refusal, h.received, fun _ => by rw [h.buffered hnone],
        fun hfail => absurd hnone hfail⟩
    · exact (h.deliver hne _ _).1

theorem isView_refuses (reason : Bytes) : IsView (Refuses reason) where
  write h hu := h.write hu
  failed h hfail := ⟨h.refusal, h.received, fun hnone => absurd hnone hfail,
    fun _ => List.append_ne_nil_of_left_ne_nil (h.failure hfail) _⟩

/-- Flushing fails if anything was written. -/
theorem Refuses.flush (h : s.Refuses reason t) :
    s.flush.Refuses reason t ∧ (s.flush.failure = none ↔ t = []) := by
  rw [Sink.flush]
  split_ifs with hf
  · -- A sink that has failed, or has nothing to hand on, stays as it is.
    refine ⟨h, ?_⟩
    rcases Bool.or_eq_true_iff.1 hf with hfail | hempty
    · have hne : s.failure ≠ none := by simpa using Option.isSome_iff_ne_none.1 hfail
      exact ⟨fun hnone => absurd hnone hne, fun ht => absurd ht (h.failure hne)⟩
    · refine ⟨fun hnone => ?_, fun ht => ?_⟩
      · rw [← h.buffered hnone, List.isEmpty_iff.1 hempty]
      · by_contra hne
        exact h.failure hne ht
  · obtain ⟨hfail, hempty⟩ : s.failure = none ∧ s.buffered ≠ [] := by simpa using hf
    have ht : t ≠ [] := h.buffered hfail ▸ hempty
    obtain ⟨hrefuses, hfailure⟩ := h.deliver ht s.buffered.length s.buffered
    exact ⟨hrefuses, by simp [hfailure, ht]⟩

end Sink

/-! ## Encoders -/

namespace Encoder

variable {style : BindingStyle} {e : Encoder} {reason t : Bytes}

/-- The encoder after some documents. -/
def encodeAll (e : Encoder) (ds : List Document) : Encoder := ds.foldl (fun e d => (e.encode d).1) e

/-- A new encoder, over a destination that may refuse all bytes, after some documents. -/
def after (style : BindingStyle) (refusal : Option Bytes) (ds : List Document) : Encoder :=
  encodeAll (fresh style refusal) ds

/-- What a new encoder writes of a document. -/
def emitted (style : BindingStyle) (d : Document) : Bytes :=
  ((fresh style none).encode d).1.sink.received ++ ((fresh style none).encode d).1.sink.buffered

/-- An encoder over a destination that has taken, or will take, the bytes `t`. -/
structure HasWritten (style : BindingStyle) (t : Bytes) (e : Encoder) : Prop where
  style_eq : e.style = style
  holds : e.sink.Holds t

theorem hasWritten_fresh (style : BindingStyle) : HasWritten style [] (fresh style none) :=
  ⟨rfl, Sink.holds_new⟩

/-- What is written of a document is added to what was written before it. A document is reported
    if it cannot be rendered, and otherwise nothing of it stays in the buffer. -/
theorem HasWritten.encode (h : HasWritten style t e) (d : Document) :
    HasWritten style (t ++ (d.render style).text) (e.encode d).1 ∧
      (e.encode d).2 = (d.render style).error.map .render ∧
      ((e.encode d).2 = none → (e.encode d).1.sink.buffered = []) := by
  obtain ⟨rfl, hsink⟩ := h
  obtain ⟨hstyle, hcases⟩ := encode_cases Sink.isView_holds hsink d
  rcases hcases with
    ⟨err, hr, herr, hview⟩ | ⟨reason, -, -, hfail, hview⟩ | ⟨hr, s, hview, hs, herr⟩
  · rw [herr, hr]
    exact ⟨⟨hstyle, hview⟩, rfl, fun hnone => absurd hnone (Option.some_ne_none _)⟩
  · -- The destination takes all bytes, so that the sink does not fail.
    exact absurd (hview.failure.symm.trans hfail) (Option.some_ne_none _).symm
  · obtain ⟨hflush, hbuffered⟩ := hview.flush
    rw [herr, hr, hflush.failure, hs]
    exact ⟨⟨hstyle, hs ▸ hflush⟩, rfl, fun _ => hbuffered⟩

/-- A document is written like by a new encoder, whatever was written before. -/
theorem emitted_eq (style : BindingStyle) (d : Document) :
    emitted style d = (d.render style).text :=
  ((hasWritten_fresh style).encode d).1.holds.written

/-- A document that can be rendered is written completely. -/
theorem exists_encode_fresh {d : Document} (h : (d.render style).error = none) :
    ∃ e, (fresh style none).encode d = (e, none) ∧ e.sink.received = (d.render style).text := by
  obtain ⟨hwritten, herror, hbuffered⟩ := (hasWritten_fresh style).encode d
  rw [h] at herror
  have htext := hwritten.holds.written
  rw [hbuffered herror, List.append_nil] at htext
  exact ⟨_, Prod.ext rfl herror, htext⟩

/-- What holds of an encoder after each document, with what is emitted of it, holds after all of
    them. -/
theorem encodeAll_emitted {P : Bytes → Encoder → Prop}
    (step : ∀ {t e}, P t e → ∀ d : Document, P (t ++ (d.render style).text) (e.encode d).1)
    (h : P t e) (ds : List Document) : P (t ++ ds.flatMap (emitted style)) (e.encodeAll ds) := by
  induction ds generalizing t e with
  | nil => rwa [List.flatMap_nil, List.append_nil]
  | cons d ds ih =>
    have hds := ih (step h d)
    rwa [← emitted_eq, List.append_assoc, ← List.flatMap_cons] at hds

theorem HasWritten.encodeAll (h : HasWritten style t e) (ds : List Document) :
    HasWritten style (t ++ ds.flatMap (emitted style)) (e.encodeAll ds) :=
  encodeAll_emitted (fun h d => (h.encode d).1) h ds

/-- An encoder over a destination that refuses all bytes, after `t` was to be written. -/
structure IsRefused (style : BindingStyle) (reason t : Bytes) (e : Encoder) : Prop where
  style_eq : e.style = style
  refuses : e.sink.Refuses reason t

theorem isRefused_fresh (style : BindingStyle) (reason : Bytes) :
    IsRefused style reason [] (fresh style (some reason)) :=
  ⟨rfl, Sink.refuses_new reason⟩

/-- A document is written only if it can be rendered and there was nothing to write up to now.
    The sink is reported to have failed only if there was. -/
theorem IsRefused.encode (h : IsRefused style reason t e) (d : Document) :
    IsRefused style reason (t ++ (d.render style).text) (e.encode d).1 ∧
      ((e.encode d).2 = none ↔
        (d.render style).error = none ∧ t ++ (d.render style).text = []) ∧
      ∀ r, (e.encode d).2 = some (.write r) ∨ (e.encode d).2 = some (.flush r) →
        t ++ (d.render style).text ≠ [] := by
  obtain ⟨rfl, hsink⟩ := h
  obtain ⟨hstyle, hcases⟩ := encode_cases (Sink.isView_refuses reason) hsink d
  rcases hcases with
    ⟨err, hr, herr, hview⟩ | ⟨r, htext, herr, -, hview⟩ | ⟨hr, s, hview, hs, herr⟩
  · rw [herr]
    exact ⟨⟨hstyle, hview⟩, by simp [hr], by simp⟩
  · have hne := List.append_ne_nil_of_right_ne_nil t htext
    rw [herr]
    exact ⟨⟨hstyle, hview⟩, by simp [htext], fun _ _ => hne⟩
  · obtain ⟨hflush, hfailure⟩ := hview.flush
    rw [herr]
    refine ⟨⟨hstyle, hs ▸ hflush⟩, ?_, fun r hrep => ?_⟩
    · rw [Option.map_eq_none_iff, hfailure, and_iff_right hr]
    · intro hnil
      simp [hfailure.2 hnil] at hrep

theorem IsRefused.encodeAll (h : IsRefused style reason t e) (ds : List Document) :
    IsRefused style reason (t ++ ds.flatMap (emitted style)) (e.encodeAll ds) :=
  encodeAll_emitted (fun h d => (h.encode d).1) h ds

/-- After any documents, the first node of a document that cannot be rendered is reported. -/
theorem encode_after_eq (style : BindingStyle) (ds : List Document) (d : Document) :
    ((after style none ds).encode d).2 =
      (d.visits.findSome? fun v => v.2.offence? v.1).map .render := by
  rw [← d.render_error style]
  exact (((hasWritten_fresh style).encodeAll ds).encode d).2.1

theorem encode_after_eq_none_iff (style : BindingStyle) (ds : List Document) (d : Document) :
    ((after style none ds).encode d).2 = none ↔ d.IsRenderable := by
  rw [encode_after_eq, Option.map_eq_none_iff, d.isRenderable_iff]

theorem emitted_of_isRenderable {d : Document} (h : d.IsRenderable) (style : BindingStyle) :
    emitted style d = Bytes.join [Byte.lf] ((d.lines style).map Row.bytes) := by
  rw [d.isRenderable_iff, ← d.render_error style] at h
  rw [emitted_eq, Rendering.text, d.rows_render h]

end Encoder

/-- What a new encoder does with a document, over a destination that takes all bytes. The document
    is written exactly if all its nodes are elements, texts, expressions and blocks, and every else
    comes right after an if or unless. What is written then are the rows of the document, each
    indented by two spaces for each level unless it is empty, with a line feed between each two of
    them. Otherwise the first node that cannot be rendered is reported. -/
theorem Encoder.encode_eq_lines (style : BindingStyle) (d : Document) :
    (((fresh style none).encode d).2 = none ↔
      ∀ v ∈ d.visits, v.2.isMarkup ∧ (v.2.isElse → ∃ r b cs, v.1 = some (.block r b cs) ∧
        (b.keyword = .ifWord ∨ b.keyword = .unlessWord))) ∧
    (((fresh style none).encode d).2 = none →
      ((fresh style none).encode d).1.sink.received =
        Bytes.join [Byte.lf] ((d.lines style).map fun row =>
          if row.text = [] then [] else List.replicate (2 * row.level) Byte.space ++ row.text)) ∧
    ((fresh style none).encode d).2 =
      (d.visits.findSome? fun v => v.2.offence? v.1).map .render := by
  refine ⟨encode_after_eq_none_iff style [] d, fun hnone => ?_, encode_after_eq style [] d⟩
  have hemitted := emitted_of_isRenderable ((encode_after_eq_none_iff style [] d).1 hnone) style
  rw [emitted, ((hasWritten_fresh style).encode d).2.2 hnone, List.append_nil] at hemitted
  rw [hemitted]
  refine congrArg _ (List.map_congr_left fun row _ => ?_)
  rw [Row.bytes, Bytes.spaces]
  simp only [List.isEmpty_iff]

/-- Documents that one encoder writes one after the other, each of which may or may not be rendered.
    Of each of them, what a new encoder writes of it is emitted: the rows on its tour up to the
    first node that cannot be rendered, which are all its rows if there is no such node.

    Over a destination that takes all bytes, what was received and what is still buffered is all
    that was emitted. Exactly the documents that can be rendered are written, and nothing is
    buffered after one of them. Otherwise the first node that cannot be rendered is reported.

    Over a destination that refuses all bytes, nothing is received, a document is written only if it
    can be rendered and no byte was emitted up to now, and none is written after the failure of the
    destination was reported. -/
theorem Encoder.after_emitted (style : BindingStyle) :
    (∀ d, Event.rows (d.tour style) = d.lines style ∧ Event.visits (d.tour style) = d.visits ∧
      emitted style d = Bytes.join [Byte.lf] ((Event.rows
        ((d.tour style).takeWhile fun ev => ev.offence?.isNone)).map Row.bytes)) ∧
    (∀ ds, (after style none ds).sink.received ++ (after style none ds).sink.buffered =
        ds.flatMap (emitted style) ∧
      (after style none ds).sink.buffered.length ≤ 4096) ∧
    (∀ ds d, (((after style none ds).encode d).2 = none ↔ d.IsRenderable) ∧
      ((after style none ds).encode d).2 =
        (d.visits.findSome? fun v => v.2.offence? v.1).map .render ∧
      (((after style none ds).encode d).2 = none →
        emitted style d = Bytes.join [Byte.lf] ((d.lines style).map Row.bytes) ∧
        ((after style none ds).encode d).1.sink.buffered = [])) ∧
    ∀ reason,
      (∀ ds, (after style (some reason) ds).sink.received = []) ∧
      (∀ ds d, ((after style (some reason) ds).encode d).2 = none ↔
        d.IsRenderable ∧ ∀ x ∈ ds ++ [d], emitted style x = []) ∧
      ∀ ds d ds' d' r,
        ((after style (some reason) ds).encode d).2 = some (.write r) ∨
          ((after style (some reason) ds).encode d).2 = some (.flush r) →
        ((after style (some reason) (ds ++ d :: ds')).encode d').2 ≠ none := by
  have hwritten := fun ds => (hasWritten_fresh style).encodeAll ds
  have hrefused := fun reason ds => (isRefused_fresh style reason).encodeAll ds
  have hiff : ∀ reason ds d, ((after style (some reason) ds).encode d).2 = none ↔
      d.IsRenderable ∧ ∀ x ∈ ds ++ [d], emitted style x = [] := by
    intro reason ds d
    rw [after, ((hrefused reason ds).encode d).2.1, d.render_error, ← d.isRenderable_iff,
      List.nil_append, ← emitted_eq, List.append_eq_nil_iff, List.flatMap_eq_nil_iff,
      List.forall_mem_append, List.forall_mem_singleton]
  refine ⟨fun d => ⟨d.rows_tour style, d.visits_tour style, ?_⟩,
    fun ds => ⟨(hwritten ds).holds.written, (hwritten ds).holds.length_le⟩,
    fun ds d => ⟨encode_after_eq_none_iff style ds d, encode_after_eq style ds d, fun hnone => ?_⟩,
    fun reason => ⟨fun ds => (hrefused reason ds).refuses.received, hiff reason, ?_⟩⟩
  · rw [emitted_eq, d.render_eq_ofEvents]
    rfl
  · exact ⟨emitted_of_isRenderable ((encode_after_eq_none_iff style ds d).1 hnone) style,
      ((hwritten ds).encode d).2.2 hnone⟩
  · intro ds d ds' d' r hrep
    -- A failure is only reported after there was something to write, and then there always was.
    have hne := ((hrefused reason ds).encode d).2.2 r hrep
    rw [List.nil_append, ← emitted_eq] at hne
    intro hnone
    have hnil := ((hiff reason _ d').1 hnone).2
    simp only [List.append_assoc, List.cons_append, List.forall_mem_append,
      List.forall_mem_cons] at hnil
    exact hne (by rw [List.flatMap_eq_nil_iff.2 hnil.1, hnil.2.1, List.append_nil])

/-- An else that belongs to nothing inside an element, and then a document that can be rendered. The
    first one leaves the encoder one level deeper and with two lines, which does not show in the
    second one. A destination that refuses all bytes fails with the second one, and from then on. -/
theorem Encoder.after_emitted_stray_else :
    ∃ bad good : Document, emitted .oneHelper bad = "<p>\n  a" ∧ emitted .oneHelper good = "b" ∧
      ((after .oneHelper none []).encode bad).2 = some (.render (.orphanElse default)) ∧
      (after .oneHelper none [bad]).indent = 1 ∧ (after .oneHelper none [bad]).lines = 2 ∧
      ((after .oneHelper none [bad]).encode good).2 = none ∧
      (after .oneHelper none [bad, good]).sink.received = "<p>\n  ab" ∧
      ((after .oneHelper (some "boom") [bad]).encode good).2 = some (.flush "boom") ∧
      ((after .oneHelper (some "boom") [bad, good]).encode ⟨default, []⟩).2 ≠ none := by
  obtain ⟨-, hwritten, hencode, hrefused⟩ := after_emitted .oneHelper
  have hreceived : ∀ bad good : Document, ((after .oneHelper none [bad]).encode good).2 = none →
      (after .oneHelper none [bad, good]).sink.received =
        emitted .oneHelper bad ++ emitted .oneHelper good := by
    intro bad good hnone
    have hbuffered : (after .oneHelper none [bad, good]).sink.buffered = [] :=
      ((hencode [bad] good).2.2 hnone).2
    have hall := (hwritten [bad, good]).1
    rwa [hbuffered, List.append_nil, List.flatMap_cons, List.flatMap_singleton] at hall
  refine ⟨⟨default, [.element default (.bare "p")
      [.text default [.literal "a"], .block default ⟨.elseWord, []⟩ []]]⟩,
    ⟨default, [.text default [.literal "b"]]⟩, by decide +kernel, by decide +kernel,
    by decide +kernel, by decide +kernel, by decide +kernel, by decide +kernel, ?_,
    by decide +kernel, (hrefused "boom").2.2 [_] _ [] _ "boom" (.inr (by decide +kernel))⟩
  rw [hreceived _ _ (by decide +kernel)]
  decide +kernel

end IndentMarkup
