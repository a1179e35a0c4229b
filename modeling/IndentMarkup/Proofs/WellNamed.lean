import IndentMarkup.Proofs.FileTree
import IndentMarkup.Proofs.Route

/-!
# Trees with proper names

A tree is one of files if the entries of every directory have distinct names, each of which is a
name that a path can have on its way (`Path.isName`): it is not empty, it has no slash, and it is
neither that of the directory itself nor that of the one above (`FileTree.isWellNamed`). A tree is
*plain* if it also has no links (`FileTree.IsPlain`). Files that are written keep a plain tree
well-named (`FileSystem.isWellNamed_write`).

The clean path of an entry is made from names alone, without a look at the tree. In a plain tree it
leads to the entry all the same, whatever the path of its directory is (`FileSystem.locate_join`):
without links the names on a path and its route lead to the same place.
-/

namespace IndentMarkup

namespace FileTree

/-! ## Well-named trees -/

mutual

/-- Whether the entries of every directory have distinct names, which are names of entries. -/
def isWellNamed : FileTree → Bool
  | file _ | link _ => true
  | dir es => decide (es.map Prod.fst).Nodup && isWellNamedAll es

/-- Whether all entries have names of entries, and the same holds below them. -/
def isWellNamedAll : List (Bytes × FileTree) → Bool
  | [] => true
  | (n, t) :: es => Path.isName n && isWellNamed t && isWellNamedAll es

end

/-- What holds of files and links, and of a directory if it does of all its entries, holds of all
    trees. -/
@[elab_as_elim]
theorem induct {motive : FileTree → Prop} (file : ∀ c, motive (file c))
    (dir : ∀ es, (∀ e ∈ es, motive e.2) → motive (dir es)) (link : ∀ target, motive (link target))
    (t : FileTree) : motive t :=
  t.rec file dir link (fun _ h => absurd h List.not_mem_nil)
    (fun _ _ hhead htail => List.forall_mem_cons.2 ⟨hhead, htail⟩) fun _ _ h => h

theorem isWellNamed_dir {es : List (Bytes × FileTree)} :
    (dir es).isWellNamed = true ↔ (es.map Prod.fst).Nodup ∧
      ∀ e ∈ es, Path.isName e.1 = true ∧ e.2.isWellNamed = true := by
  have hall : isWellNamedAll es = true ↔
      ∀ e ∈ es, Path.isName e.1 = true ∧ e.2.isWellNamed = true := by
    induction es with
    | nil => simp [isWellNamedAll]
    | cons e es ih =>
      obtain ⟨n, t⟩ := e
      rw [isWellNamedAll, Bool.and_eq_true, Bool.and_eq_true, ih, List.forall_mem_cons]
  rw [isWellNamed, Bool.and_eq_true, decide_eq_true_iff, hall]

/-- Each entry of a well-named directory is the one with its name. -/
theorem lookup_eq_some_iff {es : List (Bytes × FileTree)} (h : (es.map Prod.fst).Nodup)
    {n : Bytes} {t : FileTree} : es.lookup n = some t ↔ (n, t) ∈ es := by
  induction es with
  | nil => simp
  | cons e es ih =>
    obtain ⟨m, s⟩ := e
    obtain ⟨hm, hes⟩ := List.nodup_cons.1 h
    rw [lookup_cons_eq_if]
    by_cases hn : n = m
    · subst hn
      have hnot : (n, t) ∉ es := fun hmem => hm (List.mem_map.2 ⟨_, hmem, rfl⟩)
      simp [hnot, eq_comm]
    · simp [hn, ih hes]

@[simp] theorem get?_nil (t : FileTree) : t.get? [] = some t := by
  cases t <;> rfl

theorem get?_append (t : FileTree) (d loc : Location) :
    t.get? (d ++ loc) = (t.get? d).bind (get? · loc) := by
  induction d generalizing t with
  | nil => rw [List.nil_append, get?_nil, Option.bind_some]
  | cons n d ih =>
    cases t with
    | file c => rfl
    | link target => rfl
    | dir es =>
      rw [List.cons_append, get?, get?]
      cases es.lookup n with
      | none => rfl
      | some s => exact ih s

theorem isWellNamed_get? {t e : FileTree} {loc : Location} (ht : t.isWellNamed = true)
    (h : t.get? loc = some e) : e.isWellNamed = true := by
  induction loc generalizing t with
  | nil =>
    rw [get?_nil] at h
    exact Option.some.inj h ▸ ht
  | cons n loc ih =>
    cases t with
    | file c => cases h
    | link target => cases h
    | dir es =>
      rw [get?, Option.bind_eq_some_iff] at h
      obtain ⟨s, hs, h⟩ := h
      obtain ⟨hnodup, hall⟩ := isWellNamed_dir.1 ht
      exact ih (hall (n, s) ((lookup_eq_some_iff hnodup).1 hs)).2 h

/-- The names that lead to what is in a well-named tree are names of entries. -/
theorem isName_of_entryAt? {t : FileTree} {loc : Location} {e : Entry}
    (ht : t.isWellNamed = true) (h : t.entryAt? loc = some e) :
    ∀ n ∈ loc, Path.isName n = true := by
  induction loc generalizing t with
  | nil => exact fun _ hn => absurd hn List.not_mem_nil
  | cons n loc ih =>
    cases t with
    | file c => cases h
    | link target => cases h
    | dir es =>
      rw [entryAt?_dir_cons] at h
      obtain ⟨s, hs, h⟩ := Option.bind_eq_some_iff.1 h
      obtain ⟨hnodup, hall⟩ := isWellNamed_dir.1 ht
      obtain ⟨hn, hs⟩ := hall (n, s) ((lookup_eq_some_iff hnodup).1 hs)
      exact List.forall_mem_cons.2 ⟨hn, ih hs h⟩

/-! ## Entries that are put in a tree -/

theorem mem_alter {f : FileTree → FileTree} {n : Bytes} {es : List (Bytes × FileTree)}
    {e : Bytes × FileTree} (h : e ∈ alter f n es) :
    e ∈ es ∨ ∃ s, (s = empty ∨ (n, s) ∈ es) ∧ e = (n, f s) := by
  induction es with
  | nil => exact .inr ⟨empty, .inl rfl, List.mem_singleton.1 h⟩
  | cons e' es ih =>
    obtain ⟨m, t⟩ := e'
    rw [alter] at h
    split at h
    next hm =>
      subst hm
      rcases List.mem_cons.1 h with rfl | h
      · exact .inr ⟨t, .inr List.mem_cons_self, rfl⟩
      · exact .inl (List.mem_cons_of_mem _ h)
    next =>
      rcases List.mem_cons.1 h with rfl | h
      · exact .inl List.mem_cons_self
      · rcases ih h with h | ⟨s, hs, rfl⟩
        · exact .inl (List.mem_cons_of_mem _ h)
        · exact .inr ⟨s, hs.imp_right (List.mem_cons_of_mem _), rfl⟩

theorem nodup_alter {f : FileTree → FileTree} {n : Bytes} {es : List (Bytes × FileTree)}
    (h : (es.map Prod.fst).Nodup) : ((alter f n es).map Prod.fst).Nodup := by
  induction es with
  | nil => simp [alter]
  | cons e es ih =>
    obtain ⟨m, t⟩ := e
    obtain ⟨hm, hes⟩ := List.nodup_cons.1 h
    rw [alter]
    split
    · exact h
    next hne =>
      refine List.nodup_cons.2 ⟨fun hmem => ?_, ih hes⟩
      -- The only name that may be new is the one of the entry that is altered.
      obtain ⟨e, he, hfst⟩ := List.mem_map.1 hmem
      rcases mem_alter he with he | ⟨s, -, rfl⟩
      · exact hm (List.mem_map.2 ⟨e, he, hfst⟩)
      · exact hne hfst.symm

theorem isWellNamed_put {t new : FileTree} {loc : Location} (ht : t.isWellNamed = true)
    (hnew : new.isWellNamed = true) (hloc : ∀ n ∈ loc, Path.isName n = true) :
    (t.put loc new).isWellNamed = true := by
  induction loc generalizing t with
  | nil => cases t <;> exact hnew
  | cons n loc ih =>
    cases t with
    | file c => rfl
    | link target => rfl
    | dir es =>
      obtain ⟨hn, hloc⟩ := List.forall_mem_cons.1 hloc
      obtain ⟨hnodup, hall⟩ := isWellNamed_dir.1 ht
      refine isWellNamed_dir.2 ⟨nodup_alter hnodup, fun e he => ?_⟩
      rcases mem_alter he with he | ⟨s, hs, rfl⟩
      · exact hall e he
      · refine ⟨hn, ih ?_ hloc⟩
        rcases hs with rfl | hs
        · rfl
        · exact (hall _ hs).2

theorem alter_eq_self {f : FileTree → FileTree} {n : Bytes} {es : List (Bytes × FileTree)}
    {s : FileTree} (h : es.lookup n = some s) (hf : f s = s) : alter f n es = es := by
  induction es with
  | nil => cases h
  | cons e es ih =>
    obtain ⟨m, t⟩ := e
    rw [lookup_cons_eq_if] at h
    rw [alter]
    split
    next hm =>
      rw [if_pos hm.symm] at h
      rw [Option.some.inj h, hf]
    next hm =>
      rw [if_neg (Ne.symm hm)] at h
      rw [ih h]

/-- A tree stays the same if what is put in it is there already. -/
theorem put_eq_self {t e : FileTree} {loc : Location} (h : t.get? loc = some e) :
    t.put loc e = t := by
  induction loc generalizing t with
  | nil =>
    rw [get?_nil] at h
    rw [put, Option.some.inj h]
  | cons n loc ih =>
    cases t with
    | file c => cases h
    | link target => cases h
    | dir es =>
      obtain ⟨s, hs, h⟩ := Option.bind_eq_some_iff.1 h
      rw [put, alter_eq_self hs (ih h)]

/-! ## Plain trees -/

/-- The tree is well-named and has no links. -/
structure IsPlain (t : FileTree) : Prop where
  wellNamed : t.isWellNamed = true
  linkFree : ∀ loc, t.linkAt? loc = none

variable {t : FileTree} {through : Bool} {loc l : Location} {ns : List Bytes}
  {jump jump' : Location → List Bytes → Except PathError Location}

/-- Without links, every name leads on from a directory. -/
theorem walk_cons_of_linkFree (ht : ∀ loc, t.linkAt? loc = none) {n : Bytes} :
    t.walk through jump loc (n :: ns) = .ok l ↔
      t.entryAt? loc = some .dir ∧ t.walk through jump (Path.go loc n) ns = .ok l := by
  rw [walk_cons_eq_ok_iff, ht, Path.go]
  refine and_congr_right fun _ => ?_
  split
  · exact Iff.rfl
  · split
    · exact Iff.rfl
    · exact Iff.rfl

theorem eq_foldl_go_of_walk (ht : ∀ loc, t.linkAt? loc = none)
    (h : t.walk through jump loc ns = .ok l) : l = ns.foldl Path.go loc := by
  induction ns generalizing loc with
  | nil => exact (Except.ok.inj h).symm
  | cons n ns ih => exact ih ((walk_cons_of_linkFree ht).1 h).2

theorem walk_iff_of_linkFree (ht : ∀ loc, t.linkAt? loc = none) {through' : Bool} :
    t.walk through jump loc ns = .ok l ↔ t.walk through' jump' loc ns = .ok l := by
  induction ns generalizing loc with
  | nil => exact Iff.rfl
  | cons n ns ih => rw [walk_cons_of_linkFree ht, walk_cons_of_linkFree ht, ih]

theorem exists_follow_eq_walk (t : FileTree) (through : Bool) (links : Nat) :
    ∃ jump, t.follow through links = t.walk through jump := by
  cases links with
  | zero => exact ⟨_, rfl⟩
  | succ links => exact ⟨_, rfl⟩

/-- The names of a location lead to it, by way of directories that exist. -/
theorem walk_of_isName (ht : ∀ loc, t.linkAt? loc = none)
    (hns : ∀ n ∈ ns, Path.isName n = true) (hdir : t.entryAt? (loc ++ ns.dropLast) = some .dir) :
    t.walk through jump loc ns = .ok (loc ++ ns) := by
  induction ns generalizing loc with
  | nil => rw [walk, List.append_nil]
  | cons n ns ih =>
    obtain ⟨hn, hns⟩ := List.forall_mem_cons.1 hns
    rw [walk_cons_of_linkFree ht, Path.go_of_isName hn, List.append_cons loc n ns]
    cases ns with
    | nil => exact ⟨by simpa using hdir, by rw [walk, List.append_nil]⟩
    | cons m ns =>
      rw [List.dropLast_cons_cons] at hdir
      exact ⟨entryAt?_eq_dir_of_cons hdir, ih hns (by rwa [List.append_assoc])⟩

/-- The text of a route is followed as its names are, from a directory. -/
theorem walk_names_text (ht : ∀ loc, t.linkAt? loc = none) (hloc : t.entryAt? loc = some .dir)
    (r : Path.Route) : t.walk through jump loc (Path.names r.text) = .ok l ↔
      t.walk through jump loc r.names = .ok l := by
  have hempty : Path.go loc [] = loc := by rw [Path.go, if_pos (.inl rfl)]
  have hhere : Path.go loc Path.here = loc := by rw [Path.go, if_pos (.inr rfl)]
  cases hrooted : r.rooted with
  | true =>
    rw [Path.Route.names_text_of_rooted hrooted, walk_cons_of_linkFree ht, and_iff_right hloc,
      hempty]
    split
    next hnil => rw [hnil, walk_cons_of_linkFree ht, and_iff_right hloc, hempty]
    next => exact Iff.rfl
  | false =>
    rw [Path.Route.names_text_of_not_rooted hrooted]
    split
    next hnil => rw [hnil, walk_cons_of_linkFree ht, and_iff_right hloc, hhere]
    next => exact Iff.rfl

/-- All that is above a directory is one. -/
theorem entryAt?_above (h : t.entryAt? loc = some .dir) (k : Nat) :
    t.entryAt? (Path.above loc k) = some .dir := by
  have hsplit : Path.above loc k ++ loc.drop (loc.length - k) = loc := List.take_append_drop _ loc
  cases hdrop : loc.drop (loc.length - k) with
  | nil =>
    rw [hdrop, List.append_nil] at hsplit
    rwa [hsplit]
  | cons n ns =>
    rw [← hsplit, hdrop] at h
    exact entryAt?_eq_dir_of_cons h

theorem walk_parent (ht : ∀ loc, t.linkAt? loc = none) (hloc : t.entryAt? loc = some .dir)
    (k : Nat) : t.walk through jump loc (List.replicate k Path.parent ++ ns) =
      .ok l ↔ t.walk through jump (Path.above loc k) ns = .ok l := by
  induction k generalizing ns with
  | zero => rw [List.replicate_zero, List.nil_append, Path.above_zero]
  | succ k ih =>
    rw [List.replicate_succ', List.append_assoc, List.singleton_append, ih,
      walk_cons_of_linkFree ht, Path.go_parent, Path.dropLast_above,
      and_iff_right (entryAt?_above hloc k)]

end FileTree

namespace FileSystem

open IndentMarkup.Path (Route IsRouteOf)

variable {fs fs' : FileSystem} {through : Bool} {loc l d : Location} {path c : Bytes} {r : Route}

/-! ## Clean paths -/

theorem start_eq_nil (fs : FileSystem) (h : Path.isRooted path = true) : fs.start path = [] := by
  rw [start, if_pos h]

/-- A path without links on it is followed name by name. -/
theorem resolve_eq_ok_iff (ht : fs.tree.IsPlain) : fs.resolve through path = .ok l ↔
    path ≠ [] ∧ fs.tree.walk true (fun _ _ => .error .tooManyLinks) (fs.start path)
      (Path.names path) = .ok l := by
  obtain ⟨jump, hfollow⟩ := fs.tree.exists_follow_eq_walk through maxLinks
  rw [resolve, hfollow]
  cases path with
  | nil => simp
  | cons b path =>
    rw [if_neg (by simp), and_iff_right (List.cons_ne_nil b path)]
    exact FileTree.walk_iff_of_linkFree ht.linkFree

theorem resolve_iff_locate (ht : fs.tree.IsPlain) :
    fs.resolve through path = .ok l ↔ fs.locate path = .ok l := by
  rw [locate, resolve_eq_ok_iff ht, resolve_eq_ok_iff ht]

theorem entryAt?_start (ht : fs.tree.IsPlain) (h : fs.locate path = .ok l) :
    fs.tree.entryAt? (fs.start path) = some .dir := by
  obtain ⟨-, h⟩ := (resolve_eq_ok_iff ht).1 h
  obtain ⟨n, ns, hnames⟩ := List.exists_cons_of_ne_nil (Bytes.pieces_ne_nil Byte.slash path)
  rw [Path.names, hnames] at h
  exact ((FileTree.walk_cons_of_linkFree ht.linkFree).1 h).1

/-- A path leads where its route does. -/
theorem eq_goal_of_locate (ht : fs.tree.IsPlain) (hr : IsRouteOf r path)
    (h : fs.locate path = .ok l) : l = r.goal (fs.start path) := by
  obtain ⟨-, h⟩ := (resolve_eq_ok_iff ht).1 h
  rw [FileTree.eq_foldl_go_of_walk ht.linkFree h, hr.goes _ fs.start_eq_nil]

theorem isName_of_locate (ht : fs.tree.IsPlain) (h : fs.locate path = .ok l) :
    ∀ n ∈ l, Path.isName n = true := by
  obtain ⟨r, hr⟩ := Path.exists_isRouteOf path
  have hstart := FileTree.isName_of_entryAt? ht.wellNamed (entryAt?_start ht h)
  rw [eq_goal_of_locate ht hr h, Route.goal]
  exact List.forall_mem_append.2 ⟨fun n hn => hstart n (List.mem_of_mem_take hn), r.isName_downs⟩

/-- Files that are written keep a tree well-named. -/
theorem isWellNamed_write (ht : fs.tree.IsPlain) (h : fs.write path c = .ok fs') :
    fs'.tree.isWellNamed = true := by
  obtain ⟨loc, hloc, -, rfl⟩ := write_eq_ok_iff.1 h
  exact FileTree.isWellNamed_put ht.wellNamed rfl (isName_of_locate ht hloc)

theorem start_text (hr : IsRouteOf r path) : fs.start r.text = fs.start path := by
  rw [start, start, r.isRooted_text, hr.rooted_eq]

/-- The clean path of an entry leads to it. -/
theorem locate_join (ht : fs.tree.IsPlain) {n : Bytes} (h : fs.locate path = .ok d)
    (hd : fs.tree.entryAt? d = some .dir) (hn : Path.isName n = true) :
    fs.locate (Path.join path n) = .ok (d ++ [n]) := by
  obtain ⟨r, hr⟩ := Path.exists_isRouteOf path
  have hstart := entryAt?_start ht h
  have hgoal := eq_goal_of_locate ht hr h
  have hsame : fs.start (r.down n hn).text = fs.start path := by
    rw [start, Route.isRooted_text, start, ← hr.rooted_eq]
    rfl
  have hne : path ≠ [] := ((resolve_eq_ok_iff ht).1 h).1
  rw [hr.join_eq hne hn, locate, resolve_eq_ok_iff ht, hsame,
    FileTree.walk_names_text ht.linkFree hstart, Route.names,
    FileTree.walk_parent ht.linkFree hstart]
  refine ⟨Route.text_ne_nil _, ?_⟩
  rw [FileTree.walk_of_isName ht.linkFree (r.down n hn).isName_downs, hgoal, ← r.goal_down hn]
  · rfl
  · rw [hgoal, Route.goal] at hd
    simpa [Route.down] using hd

/-- Paths that are the same when clean lead to the same place. -/
theorem eq_of_clean_eq (ht : fs.tree.IsPlain) {path' : Bytes} (h : fs.locate path = .ok l)
    (h' : fs.locate path' = .ok d) (hclean : Path.clean path = Path.clean path') : l = d := by
  obtain ⟨r, hr⟩ := Path.exists_isRouteOf path
  obtain ⟨r', hr'⟩ := Path.exists_isRouteOf path'
  cases (Path.clean_eq_clean_iff hr hr').1 hclean
  rw [eq_goal_of_locate ht hr h, eq_goal_of_locate ht hr' h', ← start_text hr, ← start_text hr']

/-- Paths to the same place are the same when clean, if they stay inside the working directory. -/
theorem clean_eq_of_isInside (ht : fs.tree.IsPlain) {path' : Bytes} (h : fs.locate path = .ok l)
    (h' : fs.locate path' = .ok l) (hin : Path.isInside path = true)
    (hin' : Path.isInside path' = true) : Path.clean path = Path.clean path' := by
  have hgoal : ∀ {p : Bytes} {r : Route}, IsRouteOf r p → Path.isInside p = true →
      r.rooted = false ∧ r.ups = 0 ∧ (fs.locate p = .ok l → l = fs.cwd ++ r.downs) := by
    intro p r hr hp
    obtain ⟨hrooted, hups⟩ := hr.isInside_iff.1 hp
    refine ⟨hrooted, hups, fun hl => ?_⟩
    rw [eq_goal_of_locate ht hr hl, Route.goal, hups, Path.above_zero, start, ← hr.rooted_eq,
      hrooted, if_neg Bool.false_ne_true]
  obtain ⟨r, hr⟩ := Path.exists_isRouteOf path
  obtain ⟨r', hr'⟩ := Path.exists_isRouteOf path'
  obtain ⟨hrooted, hups, hl⟩ := hgoal hr hin
  obtain ⟨hrooted', hups', hl'⟩ := hgoal hr' hin'
  refine (Path.clean_eq_clean_iff hr hr').2 (Route.ext ?_ ?_ ?_)
  · rw [hrooted, hrooted']
  · rw [hups, hups']
  · exact List.append_cancel_left ((hl h).symm.trans (hl' h'))

end FileSystem

end IndentMarkup
