import IndentMarkup.Proofs.Nesting
import IndentMarkup.Proofs.Rendering

/-!
# Else branches

An else belongs to the if or unless right before it. There are two ways to check that all of some
siblings do. Looking back, every else has to follow such a block (`Node.ElsesFollow`), which is
how lines are attached. Looking ahead, every such block takes the else after it, and no else may
be left over (`Node.elsesTaken`), which is how a template is written. Both come down to a pass
over the siblings that remembers whether the last one takes an else (`Node.elsesLed`), so they
agree, and siblings can be rendered exactly if they do and each of them can
(`Node.renderAll_error_iff`).

The nodes of a source are nested in this way at every depth, so its document can always be
rendered (`Document.render_error_of_parse`).
-/

namespace IndentMarkup

namespace Node

/-- Whether all elses are taken by the block before them: a block that takes an else takes the
    one right after it, and an else that comes first is left over. -/
def elsesTaken : List Node → Bool
  | [] => true
  | [n] => !n.isElse
  | n :: m :: ns =>
    if n.isElse then false
    else if n.takesElse && m.isElse then elsesTaken ns
    else elsesTaken (m :: ns)

/-- Every else has a block that takes it as its preceding sibling. -/
def ElsesFollow (ns : List Node) : Prop :=
  ∀ before n after, ns = before ++ n :: after → n.isElse → before.getLast?.any takesElse

/-- Whether every else comes after a node that takes it, where `e` says so of the node before
    all of them. -/
def elsesLed (e : Bool) : List Node → Bool
  | [] => true
  | n :: ns => (!n.isElse || e) && elsesLed n.takesElse ns

theorem elsesTaken_eq (ns : List Node) : elsesTaken ns = elsesLed false ns := by
  fun_induction elsesTaken ns with
  | case1 => rfl
  | case2 n => simp [elsesLed]
  | case3 n m ns hn => simp [elsesLed, hn]
  | case4 n m ns hn hm ih =>
    obtain ⟨hn', hm'⟩ := Bool.and_eq_true_iff.1 hm
    simp [elsesLed, hn, hn', ih, takesElse_of_isElse hm']
  | case5 n m ns hn hm ih =>
    -- If `m` is an else, then `n` does not take it, and it is left over either way.
    rw [ih, elsesLed, elsesLed, elsesLed]
    cases hm' : m.isElse <;> simp_all

theorem elsesLed_iff {e : Bool} {ns : List Node} :
    elsesLed e ns ↔
      ∀ before n after, ns = before ++ n :: after → n.isElse →
        (before.getLast?.map takesElse).getD e := by
  induction ns generalizing e with
  | nil => simp [elsesLed]
  | cons m ns ih =>
    rw [forall_split_cons (P := fun b n => n.isElse → (b.getLast?.map takesElse).getD e), elsesLed,
      Bool.and_eq_true, ih]
    refine and_congr ?_ ?_
    · cases m.isElse <;> simp
    · simp only [List.getLast?_cons, Option.map_some, Option.getD_some, Option.getD_map]

theorem elsesFollow_iff {ns : List Node} : ElsesFollow ns ↔ elsesLed false ns := by
  rw [elsesLed_iff, ElsesFollow]
  refine forall_congr' fun before => ?_
  cases before.getLast? <;> simp

end Node

/-! ## Rendering -/

namespace Node

@[simp] theorem opened_withChildren (n : Node) (cs : List Node) :
    (n.withChildren cs).opened = n.opened := by
  cases n <;> rfl

theorem isSome_opened_of_isElse {n : Node} (h : n.isElse) : n.opened.isSome := by
  cases n with
  | block => rfl
  | _ => cases h

/-- Siblings after a block that is still open can be rendered exactly if every else comes after
    a block that takes it and each of them can be rendered. -/
theorem renderAll_error_iff (style : BindingStyle) (level : Nat) (last : Option Block)
    (ns : List Node) :
    (renderAll style level last ns).error = none ↔
      elsesLed (last.any (·.keyword.takesElse)) ns ∧
      ∀ n ∈ ns, (n.render style level).error = none := by
  induction ns generalizing last with
  | nil => simp [renderAll, elsesLed]
  | cons n ns ih =>
    rw [renderAll, elsesLed, List.forall_mem_cons]
    cases hn : n.isElse with
    | true =>
      rw [takesElse_of_isElse hn]
      cases last.any (·.keyword.takesElse) <;> simp [ih, and_left_comm]
    | false => simp [ih, any_opened, and_left_comm]

end Node

/-! ## Documents of sources -/

/-- In a nesting, every else follows a block that takes it, at every depth, and there is nothing
    that cannot be rendered. -/
theorem Nesting.render_error {k : Nat} {e : Bool} {ls : List Line} {ns : List Node}
    (h : Nesting k e ls ns) (style : BindingStyle) :
    Node.elsesLed e ns ∧ ∀ n ∈ ns, ∀ level, (n.render style level).error = none := by
  induction h with
  | nil => simp [Node.elsesLed]
  | @cons k e l n inner rest cs ns depth node leads admits children siblings ihc ihs =>
    have hcs : ∀ level, (Node.renderAll style level none cs).error = none := fun level =>
      (Node.renderAll_error_iff style level none cs).2 ⟨ihc.1, fun c hc => ihc.2 c hc level⟩
    have hn : ∀ level, ((n.withChildren cs).render style level).error = none := by
      intro level
      obtain ⟨_, _, rfl⟩ | ⟨_, _, rfl⟩ | ⟨_, _, rfl⟩ | ⟨_, _, rfl⟩ := Node.ofText_eq_ok node
      · simp [Node.withChildren, Node.render, hcs]
      · rfl
      · cases cs with
        | nil => rfl
        | cons c cs =>
          simp only [Node.withChildren, Node.render, Rendering.error_append, Rendering.error_row,
            hcs, Option.none_or, Option.or_none]
          split_ifs <;> rfl
      · rfl
    refine ⟨?_, List.forall_mem_cons.2 ⟨hn, ihs.2⟩⟩
    rw [Node.elsesLed, Node.isElse_withChildren, Node.takesElse_withChildren, ihs.1]
    cases hels : n.isElse <;> simp [hels, leads]

theorem Nesting.renderAll_error {k : Nat} {e : Bool} {ls : List Line} {ns : List Node}
    (h : Nesting k e ls ns) (style : BindingStyle) (level : Nat) {last : Option Block}
    (hlast : last.any (·.keyword.takesElse) = e) :
    (Node.renderAll style level last ns).error = none := by
  subst hlast
  obtain ⟨hled, hnodes⟩ := h.render_error style
  exact (Node.renderAll_error_iff style level last ns).2 ⟨hled, fun n hn => hnodes n hn level⟩

theorem Document.render_error_of_parse {file src : Bytes} {d : Document}
    (h : Document.parse file src = .ok d) (style : BindingStyle) :
    (d.render style).error = none := by
  obtain ⟨lines, -, hn⟩ := nesting_of_parse h
  exact hn.renderAll_error style 0 rfl

end IndentMarkup
