import IndentMarkup.Proofs.LookAhead

/-!
# What an encoder writes

An encoder goes through a document with a level of indentation and a count of lines that change on
the way, and stops where something fails. What it has written by then is said by a rendering
(`Encoder.Writes`): its rows are written at their levels, up to its error or to the failure of the
sink. For a document, this is the rendering of the tour of the document (`Encoder.writes_nodes`),
whatever the encoder has written before (`Encoder.encode_cases`).

How a sink looks after something is written to it depends on its destination. All that is used here
is that the bytes that were to be written are known (`Sink.IsView`).
-/

namespace IndentMarkup

theorem Bytes.join_cons (sep t : Bytes) (ts : List Bytes) :
    join sep (t :: ts) = t ++ ts.flatMap (sep ++ ·) := by
  induction ts generalizing t with
  | nil => simp [join]
  | cons u ts ih =>
    rw [List.flatMap_cons, List.append_assoc, ← ih u, join, List.intercalate_cons_cons,
      List.append_assoc]
    rfl

/-- The rows as they are written after a number of lines, with a line feed before each row that is
    not the first one. -/
def Row.textFrom (lines : Nat) : List Row → Bytes
  | [] => []
  | r :: rs => (if lines = 0 then [] else [Byte.lf]) ++ r.bytes ++ textFrom (lines + 1) rs

theorem Row.textFrom_append (lines : Nat) (rs rs' : List Row) :
    textFrom lines (rs ++ rs') = textFrom lines rs ++ textFrom (lines + rs.length) rs' := by
  induction rs generalizing lines with
  | nil => rfl
  | cons r rs ih =>
    rw [List.cons_append, textFrom, textFrom, ih, List.length_cons, Nat.add_right_comm,
      List.append_assoc _ (textFrom _ _), Nat.add_assoc]

theorem Row.textFrom_succ (lines : Nat) (rs : List Row) :
    textFrom (lines + 1) rs = (rs.map Row.bytes).flatMap ([Byte.lf] ++ ·) := by
  induction rs generalizing lines with
  | nil => rfl
  | cons r rs ih =>
    rw [textFrom, ih, if_neg (Nat.succ_ne_zero lines), List.map_cons, List.flatMap_cons]

/-- From the first line on, the rows are written with a line feed between each two of them. -/
theorem Rendering.text_eq_textFrom (r : Rendering) : r.text = Row.textFrom 0 r.rows := by
  rw [text]
  cases r.rows with
  | nil => rfl
  | cons row rows =>
    rw [List.map_cons, Bytes.join_cons, Row.textFrom, Row.textFrom_succ]
    rfl

/-- The bytes `t` were to be written to the sink in the state `s` if `P t s`: those that are written
    next come after them, and a sink that has failed stays as it is. -/
structure Sink.IsView (P : Bytes → Sink → Prop) : Prop where
  write {t u : Bytes} {s : Sink} : P t s → u ≠ [] → P (t ++ u) (s.write u)
  failed {t u : Bytes} {s : Sink} : P t s → s.failure ≠ none → P (t ++ u) s

namespace Encoder

variable {P : Bytes → Sink → Prop} {style : BindingStyle} {level : Nat}

/-- Where an encoder is: the bytes `t` were to be written to its sink, and `n` lines of the document
    have been started. -/
structure IsAt (P : Bytes → Sink → Prop) (style : BindingStyle) (level : Nat) (t : Bytes) (n : Nat)
    (e : Encoder) : Prop where
  style_eq : e.style = style
  indent_eq : e.indent = level
  lines_eq : e.lines = n
  view : P t e.sink

/-- What comes out where the rows of a rendering are to be written, up to its error. -/
inductive Outcome (P : Bytes → Sink → Prop) (style : BindingStyle) (level : Nat) (t : Bytes)
    (n : Nat) (r : Rendering) : EStateM.Result EncodeError Encoder Unit → Prop
  /-- All of it is written, and the encoder is at the same level as before. -/
  | written {e : Encoder} (error : r.error = none)
      (isAt : IsAt P style level (t ++ Row.textFrom n r.rows) (n + r.rows.length) e) :
      Outcome P style level t n r (.ok () e)
  /-- The rows are written, and then the error is reported. -/
  | stopped {err : RenderError} {e : Encoder} (error : r.error = some err)
      (style_eq : e.style = style) (view : P (t ++ Row.textFrom n r.rows) e.sink) :
      Outcome P style level t n r (.error (.render err) e)
  /-- There was something to write, but the sink has failed. -/
  | failed {reason : Bytes} {e : Encoder} (text : Row.textFrom n r.rows ≠ [])
      (failure : e.sink.failure = some reason) (style_eq : e.style = style)
      (view : P (t ++ Row.textFrom n r.rows) e.sink) :
      Outcome P style level t n r (.error (.write reason) e)

/-- At the given level, the rows of a rendering are written, up to its error. -/
def Writes (P : Bytes → Sink → Prop) (style : BindingStyle) (level : Nat) (w : Writing)
    (r : Rendering) : Prop :=
  ∀ t n e, IsAt P style level t n e → Outcome P style level t n r (w e)

theorem writes_return : Writes P style level (return) .empty := by
  intro t n e h
  refine .written rfl ?_
  rw [Rendering.empty, Row.textFrom, List.append_nil]
  exact h

theorem writes_throw (err : RenderError) :
    Writes P style level (throw (.render err)) (.fail err) := by
  intro t n e h
  refine .stopped rfl h.style_eq ?_
  rw [Rendering.fail, Row.textFrom, List.append_nil]
  exact h.view

theorem bind_of_ok {w w' : Writing} {e e' : Encoder} (h : w e = .ok () e') :
    (do w; w' : Writing) e = w' e' := by
  change EStateM.bind w (fun _ => w') e = w' e'
  rw [EStateM.bind, h]

theorem bind_of_error {w w' : Writing} {err : EncodeError} {e e' : Encoder}
    (h : w e = .error err e') : (do w; w' : Writing) e = .error err e' := by
  change EStateM.bind w (fun _ => w') e = .error err e'
  rw [EStateM.bind, h]

/-- One thing is written after the other. -/
theorem Writes.bind (hP : Sink.IsView P) {w w' : Writing} {r r' : Rendering}
    (h : Writes P style level w r) (h' : Writes P style level w' r') :
    Writes P style level (do w; w') (r ++ r') := by
  intro t n e he
  have hw := h t n e he
  generalize hres : w e = res at hw
  cases hw with
  | @written e₁ herr hat =>
    -- The second part starts where the first one ends, with the lines counted so far.
    have hrows : (r ++ r').rows = r.rows ++ r'.rows := Rendering.rows_append herr
    have htext : t ++ Row.textFrom n (r ++ r').rows =
        t ++ Row.textFrom n r.rows ++ Row.textFrom (n + r.rows.length) r'.rows := by
      rw [hrows, Row.textFrom_append, List.append_assoc]
    have hw' := h' _ _ e₁ hat
    rw [bind_of_ok hres]
    generalize w' e₁ = res' at hw'
    cases hw' with
    | written herr' hat' =>
      refine .written (by simp [herr, herr']) ?_
      rw [htext, hrows, List.length_append, ← Nat.add_assoc]
      exact hat'
    | stopped herr' hstyle hview =>
      refine .stopped (by simp [herr, herr']) hstyle ?_
      rw [htext]
      exact hview
    | failed hne hfail hstyle hview =>
      refine .failed ?_ hfail hstyle ?_
      · rw [hrows, Row.textFrom_append]
        exact List.append_ne_nil_of_right_ne_nil _ hne
      · rw [htext]
        exact hview
  | stopped herr hstyle hview =>
    have hstop : r ++ r' = r := Rendering.append_of_error herr r'
    rw [bind_of_error hres, hstop]
    exact .stopped herr hstyle hview
  | failed hne hfail hstyle hview =>
    -- The second part is not tried, but it was to be written as well.
    obtain ⟨u, hu⟩ : ∃ u, Row.textFrom n (r ++ r').rows = Row.textFrom n r.rows ++ u := by
      obtain ⟨rs, hrs⟩ := Rendering.exists_rows_append r r'
      exact ⟨_, by rw [hrs, Row.textFrom_append]⟩
    rw [bind_of_error hres]
    refine .failed ?_ hfail hstyle ?_
    · rw [hu]
      exact List.append_ne_nil_of_left_ne_nil hne _
    · rw [hu, ← List.append_assoc]
      exact hP.failed hview (by rw [hfail]; exact Option.some_ne_none _)

/-! ## Lines -/

theorem check_of_none {error : Bytes → EncodeError} {e : Encoder} (h : e.sink.failure = none) :
    check error e = .ok () e := by
  obtain ⟨style, ⟨refusal, received, buffered, failure⟩, indent, lines⟩ := e
  obtain rfl : failure = none := h
  rfl

theorem check_of_some {error : Bytes → EncodeError} {e : Encoder} {reason : Bytes}
    (h : e.sink.failure = some reason) : check error e = .error (error reason) e := by
  obtain ⟨style, ⟨refusal, received, buffered, failure⟩, indent, lines⟩ := e
  obtain rfl : failure = some reason := h
  rfl

/-- A text goes to the sink, which may fail on it. -/
theorem writeText_cases (u : Bytes) (e : Encoder) :
    writeText u e = .ok () { e with sink := e.sink.write u } ∨
      ∃ reason, (e.sink.write u).failure = some reason ∧
        writeText u e = .error (.write reason) { e with sink := e.sink.write u } := by
  have hcheck : writeText u e = check .write { e with sink := e.sink.write u } := rfl
  rw [hcheck]
  cases hf : (e.sink.write u).failure with
  | none => exact .inl (check_of_none hf)
  | some reason => exact .inr ⟨reason, rfl, check_of_some hf⟩

/-- The line feed in front of all lines but the first goes to the sink, which may fail on it. -/
theorem startLine_cases (hP : Sink.IsView P) {t : Bytes} {e : Encoder} (h : P t e.sink) :
    ∃ s, P (t ++ if e.lines = 0 then [] else [Byte.lf]) s ∧
      (startLine e = .ok () { e with sink := s } ∨
        e.lines ≠ 0 ∧ ∃ reason, s.failure = some reason ∧
          startLine e = .error (.write reason) { e with sink := s }) := by
  have hstart : startLine e =
      (if e.lines ≠ 0 then writeText [Byte.lf] else return : Writing) e := rfl
  rw [hstart]
  by_cases hlines : e.lines = 0
  · refine ⟨e.sink, ?_, .inl ?_⟩
    · rw [if_pos hlines, List.append_nil]
      exact h
    · rw [if_neg (not_not.2 hlines)]
      rfl
  · refine ⟨e.sink.write [Byte.lf], ?_, ?_⟩
    · rw [if_neg hlines]
      exact hP.write h (List.cons_ne_nil _ _)
    · rw [if_pos hlines]
      exact (writeText_cases [Byte.lf] e).imp id fun ⟨reason, hf, hw⟩ => ⟨hlines, reason, hf, hw⟩

theorem writes_row (hP : Sink.IsView P) (r : Row) :
    Writes P style level (writeRow r) (.row r.level r.text) := by
  intro t n e h
  obtain rfl := h.lines_eq
  have htext : Row.textFrom e.lines (Rendering.row r.level r.text).rows =
      (if e.lines = 0 then [] else [Byte.lf]) ++ r.bytes := List.append_nil _
  obtain ⟨s, hview, hstart⟩ := startLine_cases hP h.view
  rcases hstart with hstart | ⟨hn, reason, hfail, hstart⟩
  · have hrow : writeRow r e =
        (if r.text.isEmpty then return else writeText r.bytes : Writing)
          { e with sink := s, lines := e.lines + 1 } := bind_of_ok hstart
    rw [hrow]
    by_cases hempty : r.text.isEmpty
    · have hbytes : r.bytes = [] := if_pos hempty
      rw [if_pos hempty]
      refine .written rfl ⟨h.style_eq, h.indent_eq, rfl, ?_⟩
      rw [htext, hbytes, List.append_nil]
      exact hview
    · have hbytes : r.bytes ≠ [] := by
        rw [Row.bytes, if_neg hempty]
        exact List.append_ne_nil_of_right_ne_nil _ (by simpa using hempty)
      have hview' := hP.write hview hbytes
      rw [List.append_assoc, ← htext] at hview'
      rw [if_neg hempty]
      rcases writeText_cases r.bytes { e with sink := s, lines := e.lines + 1 } with
        hw | ⟨reason, hfail, hw⟩
      · rw [hw]
        exact .written rfl ⟨h.style_eq, h.indent_eq, rfl, hview'⟩
      · rw [hw]
        refine .failed ?_ hfail h.style_eq hview'
        rw [htext]
        exact List.append_ne_nil_of_right_ne_nil _ hbytes
  · have hrow : writeRow r e = .error (.write reason) { e with sink := s } := bind_of_error hstart
    rw [hrow]
    refine .failed ?_ hfail h.style_eq ?_
    · rw [htext, if_neg hn]
      exact List.cons_ne_nil _ _
    · rw [htext, ← List.append_assoc]
      exact hP.failed hview (by rw [hfail]; exact Option.some_ne_none _)

theorem writes_line (hP : Sink.IsView P) (t : Bytes) :
    Writes P style level (writeLine t) (.row level t) := by
  intro t' n e h
  have hrow := writes_row hP ⟨level, t⟩ t' n e h
  have : writeLine t e = writeRow ⟨level, t⟩ e := by
    rw [← h.indent_eq]
    rfl
  rw [this]
  exact hrow

theorem writes_tag (hP : Sink.IsView P) (tag : BindingStyle → Bytes) :
    Writes P style level (writeTag tag) (.row level (tag style)) := by
  intro t n e h
  have hline := writes_line hP (tag style) t n e h
  have : writeTag tag e = writeLine (tag style) e := by
    rw [← h.style_eq]
    rfl
  rw [this]
  exact hline

theorem writes_content (hP : Sink.IsView P) (content : Span) :
    Writes P style level (writeContent content)
      (if content.isHollow then .empty else .row level content.template) := by
  rw [writeContent]
  split_ifs
  · exact writes_return
  · exact writes_line hP _

/-! ## Levels -/

theorem IsAt.enter {t : Bytes} {n : Nat} {e : Encoder} (h : IsAt P style level t n e) :
    IsAt P style (level + 1) t n { e with indent := e.indent + 1 } :=
  ⟨h.style_eq, congrArg (· + 1) h.indent_eq, h.lines_eq, h.view⟩

theorem IsAt.leave {t : Bytes} {n : Nat} {e : Encoder} (h : IsAt P style (level + 1) t n e) :
    IsAt P style level t n { e with indent := e.indent - 1 } :=
  ⟨h.style_eq, congrArg (· - 1) h.indent_eq, h.lines_eq, h.view⟩

/-- Something is written one level deeper. After a failure the encoder may stay there, as nothing is
    said about its level then. -/
theorem Writes.deeper {w w' : Writing} {r : Rendering} (h : Writes P style (level + 1) w r)
    (hok : ∀ e e', w { e with indent := e.indent + 1 } = .ok () e' →
      w' e = .ok () { e' with indent := e'.indent - 1 })
    (herror : ∀ err e e', w { e with indent := e.indent + 1 } = .error err e' →
      ∃ indent, w' e = .error err { e' with indent := indent }) : Writes P style level w' r := by
  intro t n e he
  have hw := h t n _ he.enter
  generalize hres : w { e with indent := e.indent + 1 } = res at hw
  cases hw with
  | written herr hat =>
    rw [hok e _ hres]
    exact .written herr hat.leave
  | stopped herr hstyle hview =>
    obtain ⟨indent, hw'⟩ := herror _ e _ hres
    rw [hw']
    exact .stopped herr hstyle hview
  | failed hne hfail hstyle hview =>
    obtain ⟨indent, hw'⟩ := herror _ e _ hres
    rw [hw']
    exact .failed hne hfail hstyle hview

theorem Writes.inside {w : Writing} {r : Rendering} (h : Writes P style (level + 1) w r) :
    Writes P style level (inside w) r := by
  have hinside : ∀ e, Encoder.inside w e =
      (do w; Encoder.leave : Writing) { e with indent := e.indent + 1 } := fun _ => rfl
  refine h.deeper (fun e e' hw => ?_) fun err e e' hw => ⟨e'.indent, ?_⟩
  · rw [hinside, bind_of_ok hw]
    rfl
  · rw [hinside, bind_of_error hw]

theorem nested_of_ok {w : Writing} {e e' : Encoder}
    (h : w { e with indent := e.indent + 1 } = .ok () e') :
    nested w e = .ok () { e' with indent := e'.indent - 1 } := by
  change (tryFinally w leave : Writing) { e with indent := e.indent + 1 } = _
  simp only [tryFinally, tryFinally', Functor.map, EStateM.map, h]
  rfl

theorem nested_of_error {w : Writing} {err : EncodeError} {e e' : Encoder}
    (h : w { e with indent := e.indent + 1 } = .error err e') :
    nested w e = .error err { e' with indent := e'.indent - 1 } := by
  change (tryFinally w leave : Writing) { e with indent := e.indent + 1 } = _
  simp only [tryFinally, tryFinally', Functor.map, EStateM.map, h]
  rfl

theorem Writes.nested {w : Writing} {r : Rendering} (h : Writes P style (level + 1) w r) :
    Writes P style level (nested w) r :=
  h.deeper (fun _ _ => nested_of_ok) fun _ _ _ hw => ⟨_, nested_of_error hw⟩

/-! ## Nodes -/

open Node (tour tourAll takesElse offence? NoElseFor noElseFor_false)

theorem writeNodes_cons {n : Node} {ns : List Node} (h : NoElseFor n.takesElse ns) :
    writeNodes (n :: ns) = (do writeNode (return) n; writeNodes ns) := by
  cases ns with
  | nil => rfl
  | cons m ns =>
    cases m with
    | block r e es => rw [writeNodes, if_neg h.not_takes]
    | _ => rfl

/-- A node that is no else, or comes after a node that takes none, is written as its tour says, if
    what is nested in it is. -/
theorem writes_node (hP : Sink.IsView P) {prev : Option Node} {branch : List Event} {w : Writing}
    {n : Node} (hcs : ∀ level, Writes P style level (writeNodes n.children)
      (.ofEvents (tourAll style level none n.children)))
    (hprev : n.isElse → prev.any takesElse = false)
    (hw : Writes P style level w (.ofEvents branch)) :
    Writes P style level (writeNode w n) (.ofEvents (tour style level prev branch n)) := by
  cases n with
  | element r el cs =>
    cases cs with
    | nil =>
      rw [writeNode]
      exact writes_tag hP _
    | cons c cs =>
      have hinside := ((writes_content hP el.content).bind hP (hcs (level + 1))).inside
      have hrest := hinside.bind hP (writes_line hP el.closeTag)
      rw [Rendering.append_assoc] at hrest
      rw [writeNode, tour, Rendering.ofEvents_append, Rendering.ofEvents_append,
        Rendering.ofEvents_append, Rendering.ofEvents_content, Rendering.append_assoc,
        Rendering.append_assoc]
      exact (writes_tag hP _).bind hP hrest
  | text | expression =>
    rw [writeNode]
    exact writes_line hP _
  | block r b cs =>
    by_cases he : b.keyword = .elseWord
    · have he' : Node.isElse (.block r b cs) := by simpa [Node.isElse] using he
      obtain ⟨evs, hevs⟩ := Node.exists_tour_eq style level prev branch (.block r b cs)
      rw [writeNode, if_pos he, hevs,
        Rendering.ofEvents_offence (Node.offence?_of_orphan he' (hprev he'))]
      exact writes_throw _
    · have hvisit : offence? prev (.block r b cs) = none :=
        Node.offence?_eq_none_iff.2 ⟨rfl, fun h => absurd (by simpa [Node.isElse] using h) he⟩
      rw [writeNode, if_neg he, tour, Rendering.ofEvents_append, Rendering.ofEvents_append,
        Rendering.ofEvents_append, Rendering.ofEvents_visit hvisit, Rendering.append_assoc,
        Rendering.append_assoc]
      exact (writes_line hP _).bind hP
        ((hcs (level + 1)).nested.bind hP (hw.bind hP (writes_line hP _)))
  | document | absent =>
    rw [writeNode]
    exact writes_throw _

/-- Siblings are written as their tour says. -/
theorem writes_nodes (hP : Sink.IsView P) {prev : Option Node} {ns : List Node}
    (hns : NoElseFor (prev.any takesElse) ns) :
    Writes P style level (writeNodes ns) (.ofEvents (tourAll style level prev ns)) := by
  induction ns using Node.siblings_induct generalizing level prev with
  | nil =>
    rw [writeNodes]
    exact writes_return
  | taken n r e es ns htakes he ihcs ihes ihns =>
    have htakes' : takesElse (.block r e es) = false :=
      Node.takesElse_of_isElse (by simpa [Node.isElse] using he)
    have hvisit : offence? (some n) (.block r e es) = none :=
      Node.offence?_eq_none_iff.2 ⟨rfl, fun _ => htakes⟩
    have hbranch : Writes P style level (do writeLine (mustache "else"); nested (writeNodes es))
        (.ofEvents (.visit (some n, .block r e es) :: .row ⟨level, mustache "else"⟩ ::
          tourAll style (level + 1) none es)) := by
      rw [Rendering.ofEvents_visit hvisit, Rendering.ofEvents_row]
      have hes := @ihes (level + 1) none (noElseFor_false es)
      exact (writes_line hP _).bind hP hes.nested
    rw [writeNodes, if_pos ⟨htakes, he⟩, tourAll, if_pos ⟨htakes, he⟩, Rendering.ofEvents_append]
    refine (writes_node hP (fun level => @ihcs level none (noElseFor_false _)) ?_ hbranch).bind hP
      (ihns ?_)
    · exact fun h => by simp [Node.takesElse_of_isElse h] at htakes
    · rw [Option.any_some, htakes']
      exact noElseFor_false ns
  | cons n ns h ihcs ihns =>
    rw [writeNodes_cons h, Node.tourAll_cons h, Rendering.ofEvents_append]
    refine (writes_node hP (fun level => @ihcs level none (noElseFor_false _)) (fun he => ?_)
      writes_return).bind hP (ihns h)
    exact Bool.eq_false_iff.2 fun htakes => absurd (he.symm.trans (hns htakes n rfl)) (by decide)

/-! ## Documents -/

/-- How a document is written: its rows go to the sink. Then a node that cannot be rendered is
    reported, or a failure of the sink, or else the sink is flushed. What the encoder has counted
    before makes no difference. -/
theorem encode_cases (hP : Sink.IsView P) {t : Bytes} {e : Encoder} (h : P t e.sink)
    (d : Document) :
    (e.encode d).1.style = e.style ∧
      ((∃ err, (d.render e.style).error = some err ∧ (e.encode d).2 = some (.render err) ∧
          P (t ++ (d.render e.style).text) (e.encode d).1.sink) ∨
        (∃ reason, (d.render e.style).text ≠ [] ∧ (e.encode d).2 = some (.write reason) ∧
          (e.encode d).1.sink.failure = some reason ∧
          P (t ++ (d.render e.style).text) (e.encode d).1.sink) ∨
        (d.render e.style).error = none ∧ ∃ s, P (t ++ (d.render e.style).text) s ∧
          (e.encode d).1.sink = s.flush ∧ (e.encode d).2 = s.flush.failure.map .flush) := by
  have hstart : IsAt P e.style 0 t 0 { e with indent := 0, lines := 0 } := ⟨rfl, rfl, rfl, h⟩
  have hnodes : Writes P e.style 0 (writeNodes d.children) (d.render e.style) := by
    rw [d.render_eq_ofEvents]
    exact writes_nodes hP (noElseFor_false _)
  have hw := hnodes t 0 _ hstart
  have hdoc : writeDocument d e =
      (do writeNodes d.children; flush : Writing) { e with indent := 0, lines := 0 } := rfl
  rw [encode, hdoc, Rendering.text_eq_textFrom]
  generalize hres : writeNodes d.children { e with indent := 0, lines := 0 } = res at hw
  cases hw with
  | @written e' herr hat =>
    have hflush : flush e' = check .flush { e' with sink := e'.sink.flush } := rfl
    rw [bind_of_ok hres, hflush]
    cases hfail : e'.sink.flush.failure with
    | none =>
      rw [check_of_none hfail]
      exact ⟨hat.style_eq, .inr (.inr ⟨herr, e'.sink, hat.view, rfl, by rw [hfail]; rfl⟩)⟩
    | some reason =>
      rw [check_of_some hfail]
      exact ⟨hat.style_eq, .inr (.inr ⟨herr, e'.sink, hat.view, rfl, by rw [hfail]; rfl⟩)⟩
  | stopped herr hstyle hview =>
    rw [bind_of_error hres]
    exact ⟨hstyle, .inl ⟨_, herr, rfl, hview⟩⟩
  | failed hne hfail hstyle hview =>
    rw [bind_of_error hres]
    exact ⟨hstyle, .inr (.inl ⟨_, hne, rfl, hfail, hview⟩)⟩

end Encoder

end IndentMarkup
