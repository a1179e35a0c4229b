import IndentMarkup.FileTree.System
import IndentMarkup.Proofs.Indentation

/-!
# Clean paths as routes

What is left of a path when it is clean is a *route*: it goes up some times, which it does not if it
starts at the root, and then down by names of entries (`Path.Route`). Every path has a route
(`Path.exists_isRouteOf`), and its clean form is the text of the route, whose own route is the same
(`Path.isRouteOf_text`). So a clean path stays as it is, and two paths are the same when clean if
and only if they have the same route (`Path.clean_eq_clean_iff`).

A path and its route lead to the same place, as far as names tell (`Path.go`): a name `..` takes off
the name before it, and that is the name of the directory that it goes up from.
-/

namespace IndentMarkup.Path

/-! ## Names -/

/-- Whether a text is a name that an entry of a directory can have. -/
def isName (n : Bytes) : Bool :=
  !n.isEmpty && n != here && n != parent && !n.contains Byte.slash

theorem isName_iff {n : Bytes} :
    isName n = true ↔ ¬(n.isEmpty ∨ n = here) ∧ n ≠ parent ∧ Byte.slash ∉ n := by
  simp [isName, and_assoc]

theorem slash_notMem_names {path n : Bytes} (h : n ∈ names path) : Byte.slash ∉ n :=
  Bytes.notMem_of_mem_pieces h

theorem names_append_slash {path n : Bytes} (h : Byte.slash ∉ n) :
    names (path ++ "/" ++ n) = names path ++ [n] := by
  have hslash : path ++ "/" ++ n = path ++ Byte.slash :: n := List.append_assoc path "/" n
  rw [names, hslash, Bytes.pieces_append, Bytes.pieces_of_notMem h, names]

theorem push_of_isName {n : Bytes} (h : isName n = true) (rooted : Bool) (out : List Bytes) :
    push rooted out n = n :: out := by
  obtain ⟨hself, habove, -⟩ := isName_iff.1 h
  rw [push.eq_def, if_neg hself, if_neg habove]

/-! ## Places -/

/-- Where a name leads to from a location, if there are no links. -/
def go (loc : Location) (n : Bytes) : Location :=
  if n.isEmpty ∨ n = here then loc else if n = parent then loc.dropLast else loc ++ [n]

theorem go_of_isName {n : Bytes} (h : isName n = true) (loc : Location) :
    go loc n = loc ++ [n] := by
  obtain ⟨hself, habove, -⟩ := isName_iff.1 h
  rw [go, if_neg hself, if_neg habove]

theorem foldl_go_of_isName {ns : List Bytes} (h : ∀ n ∈ ns, isName n = true) (loc : Location) :
    ns.foldl go loc = loc ++ ns := by
  induction ns generalizing loc with
  | nil => exact (List.append_nil loc).symm
  | cons n ns ih =>
    obtain ⟨hn, hns⟩ := List.forall_mem_cons.1 h
    rw [List.foldl_cons, go_of_isName hn, ih hns, List.append_assoc, List.singleton_append]

theorem foldl_push_of_isName {ns : List Bytes} (h : ∀ n ∈ ns, isName n = true) (rooted : Bool)
    (out : List Bytes) : ns.foldl (push rooted) out = ns.reverse ++ out := by
  induction ns generalizing out with
  | nil => rfl
  | cons n ns ih =>
    obtain ⟨hn, hns⟩ := List.forall_mem_cons.1 h
    rw [List.foldl_cons, push_of_isName hn, ih hns, List.reverse_cons, List.append_assoc,
      List.singleton_append]

/-- The location that lies so many directories above another one. -/
def above (loc : Location) (k : Nat) : Location := loc.take (loc.length - k)

@[simp] theorem above_zero (loc : Location) : above loc 0 = loc := by
  rw [above, Nat.sub_zero, List.take_length]

@[simp] theorem above_nil (k : Nat) : above [] k = [] := List.take_nil

theorem dropLast_above (loc : Location) (k : Nat) : (above loc k).dropLast = above loc (k + 1) := by
  rw [above, above, List.dropLast_eq_take, List.take_take, List.length_take]
  congr 1
  omega

/-- Going up from a directory leads to the one above. -/
theorem go_parent (loc : Location) : go loc parent = loc.dropLast := by
  rw [go, if_neg (by decide +kernel), if_pos rfl]

theorem foldl_go_parent (loc : Location) (k : Nat) :
    (List.replicate k parent).foldl go loc = above loc k := by
  induction k with
  | zero => exact (above_zero loc).symm
  | succ k ih => rw [List.replicate_succ', List.foldl_concat, ih, go_parent, dropLast_above]

/-! ## Routes -/

/-- A way that goes up and then down. -/
@[ext]
structure Route where
  /-- Whether it starts at the root. -/
  rooted : Bool
  /-- How often it goes up. -/
  ups : Nat
  /-- The names by which it goes down. -/
  downs : List Bytes
  /-- Nothing is above the root. -/
  ups_of_rooted : rooted = true → ups = 0
  /-- The names are those of entries. -/
  isName_downs : ∀ n ∈ downs, isName n = true

namespace Route

variable {path n : Bytes}

/-- The names of a route. -/
def names (r : Route) : List Bytes := List.replicate r.ups parent ++ r.downs

/-- Where a route leads to from the location that it starts at. -/
def goal (r : Route) (start : Location) : Location := above start r.ups ++ r.downs

/-- The path that a route is written as. -/
def text (r : Route) : Bytes :=
  if r.rooted then Byte.slash :: Bytes.join "/" r.names
  else if r.names.isEmpty then here
  else Bytes.join "/" r.names

/-- The route that stays where it starts. -/
def stay (rooted : Bool) : Route := ⟨rooted, 0, [], fun _ => rfl, by simp⟩

/-- The route that goes on by the name of an entry. -/
def down (r : Route) (n : Bytes) (hn : isName n = true) : Route where
  rooted := r.rooted
  ups := r.ups
  downs := r.downs ++ [n]
  ups_of_rooted := r.ups_of_rooted
  isName_downs := List.forall_mem_append.2 ⟨r.isName_downs, by simpa using hn⟩

theorem names_down (r : Route) (hn : isName n = true) : (r.down n hn).names = r.names ++ [n] := by
  rw [names, names, List.append_assoc]
  rfl

theorem goal_down (r : Route) (hn : isName n = true) (start : Location) :
    (r.down n hn).goal start = r.goal start ++ [n] := by
  rw [goal, goal, List.append_assoc]
  rfl

/-- The names of a route lead to its goal. -/
theorem foldl_go_names (r : Route) (start : Location) : r.names.foldl go start = r.goal start := by
  rw [names, List.foldl_append, foldl_go_parent, foldl_go_of_isName r.isName_downs, goal]

theorem foldl_push_parent (j k : Nat) :
    (List.replicate k parent).foldl (push false) (List.replicate j parent) =
      List.replicate (k + j) parent := by
  have hpush : ∀ j,
      push false (List.replicate j parent) parent = List.replicate (j + 1) parent := by
    intro j
    cases j with
    | zero => decide +kernel
    | succ j =>
      rw [push.eq_def, if_neg (by decide +kernel), if_pos rfl, List.replicate_succ]
      simp only [if_true]
      rfl
  induction k generalizing j with
  | zero => rw [Nat.zero_add, List.replicate_zero, List.foldl_nil]
  | succ k ih =>
    rw [List.replicate_succ, List.foldl_cons, hpush, ih, Nat.add_right_comm, Nat.add_assoc]

/-- None of the names of a route can be left out. -/
theorem foldl_push_names (r : Route) : r.names.foldl (push r.rooted) [] = r.names.reverse := by
  have hups : (List.replicate r.ups parent).foldl (push r.rooted) [] =
      List.replicate r.ups parent := by
    cases hrooted : r.rooted with
    | true => rw [r.ups_of_rooted hrooted, List.replicate_zero, List.foldl_nil]
    | false => exact foldl_push_parent 0 r.ups
  rw [names, List.foldl_append, hups, foldl_push_of_isName r.isName_downs, List.reverse_append,
    List.reverse_replicate]

theorem parent_notMem_downs (r : Route) : parent ∉ r.downs := fun h =>
  (isName_iff.1 (r.isName_downs _ h)).2.1 rfl

theorem eq_of_names_eq {r r' : Route} (hrooted : r.rooted = r'.rooted)
    (hnames : r.names = r'.names) : r = r' := by
  have hcount : ∀ r : Route, r.names.count parent = r.ups := by
    intro r
    rw [names, List.count_append, List.count_replicate_self,
      List.count_eq_zero.2 r.parent_notMem_downs, Nat.add_zero]
  have hups : r.ups = r'.ups := by rw [← hcount, hnames, hcount]
  have hdowns : r.downs = r'.downs := by
    rw [names, names, hups] at hnames
    exact List.append_cancel_left hnames
  exact Route.ext hrooted hups hdowns

/-- One more name is a step up or down, or none at all. -/
theorem exists_push (r : Route) (hn : Byte.slash ∉ n) : ∃ r' : Route, r'.rooted = r.rooted ∧
    push r.rooted r.names.reverse n = r'.names.reverse ∧
    ∀ start, (r.rooted = true → start = []) → go (r.goal start) n = r'.goal start := by
  by_cases hself : n.isEmpty ∨ n = here
  · exact ⟨r, rfl, by rw [push.eq_def, if_pos hself], fun _ _ => by rw [go, if_pos hself]⟩
  by_cases habove : n = parent
  · subst habove
    simp only [go_parent, push.eq_def, if_neg hself, if_true]
    rcases List.eq_nil_or_concat' r.downs with hdowns | ⟨ns, m, hdowns⟩
    · -- There is no name to take off: the route goes up further, unless it is at the root.
      have hnames : r.names.reverse = List.replicate r.ups parent := by
        rw [names, hdowns, List.append_nil, List.reverse_replicate]
      have hgoal : ∀ start, r.goal start = above start r.ups := by
        intro start
        rw [goal, hdowns, List.append_nil]
      cases hrooted : r.rooted with
      | true =>
        refine ⟨r, hrooted, ?_, fun start hstart => ?_⟩
        · rw [hnames, r.ups_of_rooted hrooted]
          rfl
        · rw [hgoal, hstart rfl, above_nil, List.dropLast_nil]
      | false =>
        refine ⟨⟨false, r.ups + 1, [], fun h => (by cases h), by simp⟩, rfl, ?_, fun start _ => ?_⟩
        · rw [hnames, names, List.append_nil, List.reverse_replicate]
          cases hups : r.ups with
          | zero => rfl
          | succ k => simp [List.replicate_succ]
        · rw [hgoal, dropLast_above, goal, List.append_nil]
    · have hall := r.isName_downs
      rw [hdowns] at hall
      have hm : m ≠ parent := (isName_iff.1 (hall m (by simp))).2.1
      refine ⟨⟨r.rooted, r.ups, ns, r.ups_of_rooted, fun k hk => hall k (by simp [hk])⟩, rfl, ?_,
        fun start _ => ?_⟩
      · have hnames : r.names.reverse = m :: (List.replicate r.ups parent ++ ns).reverse := by
          rw [names, hdowns, ← List.append_assoc, List.reverse_concat]
        rw [hnames]
        simp only [if_neg hm]
        rfl
      · rw [goal, hdowns, ← List.append_assoc, List.dropLast_concat]
        rfl
  · have hname := isName_iff.2 ⟨hself, habove, hn⟩
    refine ⟨r.down n hname, rfl, ?_, fun start _ => ?_⟩
    · rw [push_of_isName hname, names_down, List.reverse_concat]
    · rw [go_of_isName hname, goal_down]

theorem exists_foldl_push (r : Route) {ns : List Bytes} (hns : ∀ n ∈ ns, Byte.slash ∉ n) :
    ∃ r' : Route, r'.rooted = r.rooted ∧
      ns.foldl (push r.rooted) r.names.reverse = r'.names.reverse ∧
      ∀ start, (r.rooted = true → start = []) → ns.foldl go (r.goal start) = r'.goal start := by
  induction ns generalizing r with
  | nil => exact ⟨r, rfl, rfl, fun _ _ => rfl⟩
  | cons n ns ih =>
    obtain ⟨hn, hns⟩ := List.forall_mem_cons.1 hns
    obtain ⟨r₁, hrooted₁, hpush₁, hgo₁⟩ := r.exists_push hn
    obtain ⟨r₂, hrooted₂, hpush₂, hgo₂⟩ := ih r₁ hns
    rw [hrooted₁] at hrooted₂ hpush₂ hgo₂
    refine ⟨r₂, hrooted₂, ?_, fun start hstart => ?_⟩
    · rw [List.foldl_cons, hpush₁, hpush₂]
    · rw [List.foldl_cons, hgo₁ start hstart, hgo₂ start hstart]

end Route

/-- The route is what is left of a path when it is clean. -/
structure IsRouteOf (r : Route) (path : Bytes) : Prop where
  rooted_eq : r.rooted = isRooted path
  pushed : (names path).foldl (push (isRooted path)) [] = r.names.reverse
  goes : ∀ start, (isRooted path = true → start = []) →
    (names path).foldl go start = r.goal start

theorem exists_isRouteOf (path : Bytes) : ∃ r, IsRouteOf r path := by
  have hnames : ∀ n ∈ names path, Byte.slash ∉ n := fun _ hn => slash_notMem_names hn
  obtain ⟨r, hrooted, hpush, hgo⟩ := (Route.stay (isRooted path)).exists_foldl_push hnames
  refine ⟨r, hrooted, hpush, fun start hstart => ?_⟩
  have hstay : (Route.stay (isRooted path)).goal start = start := by
    rw [Route.goal, Route.stay, above_zero, List.append_nil]
  rw [← hgo start hstart, hstay]

namespace IsRouteOf

variable {r r' : Route} {path path' n : Bytes}

theorem clean_eq (h : IsRouteOf r path) : clean path = r.text := by
  rw [clean, h.pushed, List.reverse_reverse, Route.text, h.rooted_eq]

theorem unique (h : IsRouteOf r path) (h' : IsRouteOf r' path) : r = r' := by
  refine Route.eq_of_names_eq (h.rooted_eq.trans h'.rooted_eq.symm) ?_
  exact List.reverse_inj.1 (h.pushed.symm.trans h'.pushed)

/-- The path of an entry has the route of the directory and then the name. -/
theorem join_eq (h : IsRouteOf r path) (hne : path ≠ []) (hn : isName n = true) :
    join path n = (r.down n hn).text := by
  have hrooted : isRooted (path ++ "/" ++ n) = isRooted path := by
    obtain ⟨b, path, rfl⟩ := List.exists_cons_of_ne_nil hne
    rfl
  rw [join, if_neg (by simpa using hne), clean, names_append_slash (isName_iff.1 hn).2.2, hrooted,
    List.foldl_append, h.pushed, List.foldl_cons, List.foldl_nil, push_of_isName hn,
    ← List.reverse_concat, List.reverse_reverse, Route.text, Route.names_down, ← h.rooted_eq]
  rfl

end IsRouteOf

/-! ## The text of a route -/

theorem isRooted_here : isRooted here = false := by decide +kernel

theorem names_here : names here = [here] := by decide +kernel

namespace Route

theorem slash_notMem_of_mem_names (r : Route) {n : Bytes} (h : n ∈ r.names) : Byte.slash ∉ n := by
  rcases List.mem_append.1 h with h | h
  · rw [List.eq_of_mem_replicate h]
    decide +kernel
  · exact (isName_iff.1 (r.isName_downs n h)).2.2

theorem ne_nil_of_mem_names (r : Route) {n : Bytes} (h : n ∈ r.names) : n ≠ [] := by
  rcases List.mem_append.1 h with h | h
  · rw [List.eq_of_mem_replicate h]
    decide +kernel
  · rintro rfl
    exact (isName_iff.1 (r.isName_downs _ h)).1 (.inl rfl)

theorem names_join (r : Route) (hne : r.names ≠ []) :
    Path.names (Bytes.join "/" r.names) = r.names :=
  Bytes.pieces_join hne fun _ hn => r.slash_notMem_of_mem_names hn

theorem isRooted_join (r : Route) (hne : r.names ≠ []) :
    isRooted (Bytes.join "/" r.names) = false := by
  obtain ⟨n, ns, hnames⟩ := List.exists_cons_of_ne_nil hne
  have hmem : n ∈ r.names := hnames ▸ List.mem_cons_self
  have hslash := r.slash_notMem_of_mem_names hmem
  rw [hnames, Bytes.join_cons]
  obtain ⟨b, n, rfl⟩ := List.exists_cons_of_ne_nil (r.ne_nil_of_mem_names hmem)
  have hb : b ≠ Byte.slash := fun hb => hslash (hb ▸ List.mem_cons_self)
  simpa [isRooted] using hb

theorem text_of_rooted {r : Route} (h : r.rooted = true) :
    r.text = Byte.slash :: Bytes.join "/" r.names := by
  rw [text, if_pos h]

theorem text_of_names_eq_nil {r : Route} (h : r.rooted = false) (hnil : r.names = []) :
    r.text = here := by
  rw [text, h, if_neg Bool.false_ne_true, hnil]
  rfl

theorem text_of_names_ne_nil {r : Route} (h : r.rooted = false) (hne : r.names ≠ []) :
    r.text = Bytes.join "/" r.names := by
  rw [text, h, if_neg Bool.false_ne_true, if_neg (by simpa using hne)]

theorem isRooted_text (r : Route) : isRooted r.text = r.rooted := by
  cases h : r.rooted with
  | true =>
    rw [text_of_rooted h]
    rfl
  | false =>
    by_cases hnil : r.names = []
    · rw [text_of_names_eq_nil h hnil, isRooted_here]
    · rw [text_of_names_ne_nil h hnil, r.isRooted_join hnil]

theorem names_text_of_rooted {r : Route} (h : r.rooted = true) :
    Path.names r.text = [] :: if r.names = [] then [[]] else r.names := by
  have hsplit : Path.names (Byte.slash :: Bytes.join "/" r.names) =
      [] :: Path.names (Bytes.join "/" r.names) := Bytes.pieces_append Byte.slash [] _
  rw [text_of_rooted h, hsplit]
  split
  next hnil =>
    rw [hnil]
    rfl
  next hne => rw [r.names_join hne]

theorem names_text_of_not_rooted {r : Route} (h : r.rooted = false) :
    Path.names r.text = if r.names = [] then [here] else r.names := by
  split
  next hnil => rw [text_of_names_eq_nil h hnil, names_here]
  next hne => rw [text_of_names_ne_nil h hne, r.names_join hne]

theorem text_ne_nil (r : Route) : r.text ≠ [] := by
  intro h
  have hnames : Path.names r.text = [[]] := by
    rw [h]
    rfl
  cases hrooted : r.rooted with
  | true =>
    rw [text_of_rooted hrooted] at h
    cases h
  | false =>
    rw [names_text_of_not_rooted hrooted] at hnames
    split at hnames
    · exact absurd hnames (by decide +kernel)
    · exact r.ne_nil_of_mem_names (hnames ▸ List.mem_singleton_self []) rfl

/-- The names that are read from the text are those of the route, but for names that stay. -/
theorem foldl_names_text {α : Type} (r : Route) (f : α → Bytes → α) (a : α)
    (hempty : ∀ a, f a [] = a) (hhere : ∀ a, f a here = a) :
    (Path.names r.text).foldl f a = r.names.foldl f a := by
  cases h : r.rooted with
  | true =>
    rw [names_text_of_rooted h, List.foldl_cons, hempty]
    split
    next hnil => rw [hnil, List.foldl_cons, hempty]
    next => rfl
  | false =>
    rw [names_text_of_not_rooted h]
    split
    next hnil => rw [hnil, List.foldl_cons, hhere]
    next => rfl

end Route

/-- The route of the text of a route is that route. -/
theorem isRouteOf_text (r : Route) : IsRouteOf r r.text where
  rooted_eq := r.isRooted_text.symm
  pushed := by
    rw [r.isRooted_text, r.foldl_names_text, r.foldl_push_names]
    · intro out
      rw [push.eq_def, if_pos (.inl rfl)]
    · intro out
      rw [push.eq_def, if_pos (.inr rfl)]
  goes := by
    intro start _
    rw [r.foldl_names_text, r.foldl_go_names]
    · intro loc
      rw [go, if_pos (.inl rfl)]
    · intro loc
      rw [go, if_pos (.inr rfl)]

theorem Route.clean_text (r : Route) : clean r.text = r.text := (isRouteOf_text r).clean_eq

/-- A clean path stays as it is. -/
theorem clean_clean (path : Bytes) : clean (clean path) = clean path := by
  obtain ⟨r, hr⟩ := exists_isRouteOf path
  rw [hr.clean_eq, r.clean_text]

theorem clean_join (dir name : Bytes) : clean (join dir name) = join dir name := by
  rw [join]
  split <;> exact clean_clean _

theorem Route.text_inj {r r' : Route} : r.text = r'.text ↔ r = r' := by
  refine ⟨fun h => ?_, congrArg text⟩
  exact (isRouteOf_text r).unique (h ▸ isRouteOf_text r')

/-- Paths are the same when clean if they have the same route. -/
theorem clean_eq_clean_iff {r r' : Route} {path path' : Bytes} (h : IsRouteOf r path)
    (h' : IsRouteOf r' path') : clean path = clean path' ↔ r = r' := by
  rw [h.clean_eq, h'.clean_eq, Route.text_inj]

/-- Whether a path, when it is clean, neither starts at the root nor goes up. -/
def isInside (path : Bytes) : Bool :=
  !isRooted path && (names (clean path)).head? != some parent

theorem IsRouteOf.isInside_iff {r : Route} {path : Bytes} (h : IsRouteOf r path) :
    isInside path = true ↔ r.rooted = false ∧ r.ups = 0 := by
  rw [isInside, h.clean_eq, ← h.rooted_eq]
  cases hrooted : r.rooted with
  | true => simp
  | false =>
    have hhere : here ≠ parent := by decide +kernel
    rw [Route.names_text_of_not_rooted hrooted, Route.names]
    cases r.ups with
    | succ k => simp [List.replicate_succ]
    | zero =>
      cases hdowns : r.downs with
      | nil => simp [hhere]
      | cons n ns =>
        have hn : n ≠ parent := fun hn => r.parent_notMem_downs (by simp [hdowns, hn])
        simp [hn]

end IndentMarkup.Path
