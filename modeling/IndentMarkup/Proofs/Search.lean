import Mathlib.Data.List.Sort
import IndentMarkup.Proofs.Sources
import IndentMarkup.Proofs.WellNamed

/-!
# What patterns find

A pattern has a root, from which it reaches some locations (`Sources.root`, `Sources.Reaches`): the
root and the entries in it or, for a search, all that is not below a directory that is left out. In
a plain tree the pattern finds the files with the extension of sources that it reaches, under the
path from the root to them (`Sources.mem_ofPattern_iff`). A search looks up the directories in its
root by their clean paths, which lead there as there are no links (`Sources.search_of_locate`).

The paths that some patterns find are in increasing order, so the list of them is determined by
which paths there are (`Sources.collect_eq_ok_iff`). All of them lead to files
(`Sources.read_of_collect`).
-/

namespace IndentMarkup

/-! ## Paths from a root -/

namespace Path

/-- The path of a location below the root with the given path. -/
def under (root : Bytes) (loc : Location) : Bytes := loc.foldl join root

@[simp] theorem under_nil (root : Bytes) : under root [] = root := rfl

/-- The path of what is below a root is clean. -/
theorem clean_under (root : Bytes) {loc : Location} (h : loc ≠ []) :
    clean (under root loc) = under root loc := by
  obtain ⟨loc, n, rfl⟩ := (List.eq_nil_or_concat' loc).resolve_left h
  rw [under, List.foldl_concat, clean_join]

end Path

namespace FileTree

variable {t e : FileTree} {d loc : Location}

theorem entryAt?_append (h : t.get? d = some e) (loc : Location) :
    t.entryAt? (d ++ loc) = e.entryAt? loc := by
  rw [entryAt?, get?_append, h]
  rfl

theorem root_ne_dir_iff : t.root ≠ .dir ↔ t.isDir = false := by
  cases t <;> simp [root, isDir]

theorem exists_of_isDir (h : t.isDir = true) : ∃ es, t = dir es := by
  cases t with
  | dir es => exact ⟨es, rfl⟩
  | file c => cases h
  | link target => cases h

theorem mem_insertEntry {e e' : Bytes × FileTree} {es : List (Bytes × FileTree)} :
    e' ∈ insertEntry e es ↔ e' = e ∨ e' ∈ es := by
  induction es with
  | nil => simp [insertEntry]
  | cons e'' es ih =>
    rw [insertEntry]
    split
    · rw [List.mem_cons, ih, List.mem_cons]
      exact or_left_comm
    · exact List.mem_cons

theorem mem_inOrder {e : Bytes × FileTree} {es : List (Bytes × FileTree)} :
    e ∈ inOrder es ↔ e ∈ es := by
  induction es with
  | nil => exact Iff.rfl
  | cons e' es ih => rw [inOrder, List.foldr_cons, mem_insertEntry, ← inOrder, ih, List.mem_cons]

theorem IsPlain.linksAside (ht : t.IsPlain) : t.LinksAside := fun _ _ _ => ht.linkFree _

/-- What is no directory in a plain tree is a file. -/
theorem IsPlain.exists_file (ht : t.IsPlain) {x : Entry} (h : t.entryAt? loc = some x)
    (hx : x ≠ .dir) : ∃ c, x = .file c := by
  cases x with
  | file c => exact ⟨c, rfl⟩
  | dir => exact absurd rfl hx
  | link target => cases (ht.linkFree loc).symm.trans (linkAt?_eq_some_iff.2 h)

end FileTree

namespace FileSystem

variable {fs : FileSystem} {root : Bytes} {d loc : Location}

theorem exists_find_iff (P : Entry → Prop) : (∃ e, fs.find root = .ok e ∧ P e.root) ↔
    ∃ d x, fs.locate root = .ok d ∧ fs.tree.entryAt? d = some x ∧ P x := by
  simp only [find_eq_ok_iff, FileTree.entryAt?, Option.map_eq_some_iff]
  constructor
  · rintro ⟨e, ⟨d, hd, he⟩, h⟩
    exact ⟨d, e.root, hd, ⟨e, he, rfl⟩, h⟩
  · rintro ⟨d, -, hd, ⟨e, he, rfl⟩, h⟩
    exact ⟨e, ⟨d, hd, he⟩, h⟩

/-- The path of what exists below a root leads to it. -/
theorem locate_under {x : Entry} (ht : fs.tree.IsPlain) (hroot : fs.locate root = .ok d)
    (h : fs.tree.entryAt? (d ++ loc) = some x) :
    fs.locate (Path.under root loc) = .ok (d ++ loc) := by
  induction loc generalizing root d with
  | nil => rwa [Path.under_nil, List.append_nil]
  | cons n loc ih =>
    have hdir := FileTree.entryAt?_eq_dir_of_cons h
    have hn : Path.isName n = true := FileTree.isName_of_entryAt? ht.wellNamed h n (by simp)
    rw [List.append_cons] at h ⊢
    exact ih (locate_join ht hroot hdir hn) h

/-- An entry of a directory has the name of a source if the path of it is one of a source. -/
theorem isSource_of_under {n : Bytes} {x : Entry} (ht : fs.tree.IsPlain)
    (hroot : fs.locate root = .ok d) (h : fs.tree.entryAt? (d ++ [n]) = some x)
    (hsource : IsSource (Path.under root [n])) : IsSource n := by
  obtain ⟨d', n', heq, hn⟩ := hsource.of_locate ht.linksAside (locate_under ht hroot h)
  obtain ⟨-, hname⟩ := List.append_inj' heq rfl
  rwa [List.singleton_inj.1 hname]

end FileSystem

namespace Sources

variable {fs : FileSystem} {t : FileTree} {path p pattern : Bytes}
  {es : List (Bytes × FileTree)}

/-! ## Searches -/

theorem mem_belowAll_iff : p ∈ belowAll path es ↔
    ∃ e ∈ es, (e.2.isDir && isSkipped e.1) = false ∧ p ∈ below (Path.join path e.1) e.2 := by
  induction es with
  | nil => simp [belowAll]
  | cons e es ih =>
    obtain ⟨n, t⟩ := e
    simp only [belowAll, List.mem_append, ih, List.mem_cons, exists_eq_or_imp]
    cases t.isDir && isSkipped n <;> simp

/-- No directory is left out on the way to what is none if none is from the second name on, and the
    first name is not that of a directory that is left out. -/
theorem forall_isSkipped_cons_iff {n : Bytes} {x : Entry} {loc : Location}
    (h : t.entryAt? loc = some x) (hx : x ≠ .dir) :
    (∀ m ∈ (n :: loc).dropLast, isSkipped m = false) ↔
      (t.isDir && isSkipped n) = false ∧ ∀ m ∈ loc.dropLast, isSkipped m = false := by
  cases loc with
  | nil =>
    cases h
    simp [FileTree.root_ne_dir_iff.1 hx]
  | cons k loc =>
    cases t with
    | file c => cases h
    | link target => cases h
    | dir es => simp [FileTree.isDir]

/-- An entry that is no directory is found at its own location alone. -/
theorem mem_below_iff_of_isDir (hdir : t.isDir = false) : p ∈ below path t ↔
    IsSource p ∧ ∃ loc x, (∀ n ∈ loc.dropLast, isSkipped n = false) ∧
      t.entryAt? loc = some x ∧ x ≠ .dir ∧ p = Path.under path loc := by
  rw [mem_below_of_isDir hdir]
  constructor
  · rintro ⟨hsource, rfl⟩
    exact ⟨hsource, [], t.root, by simp, FileTree.entryAt?_nil t,
      FileTree.root_ne_dir_iff.2 hdir, rfl⟩
  · rintro ⟨hsource, loc, x, -, hx, -, rfl⟩
    cases loc with
    | nil => exact ⟨hsource, rfl⟩
    | cons n loc =>
      cases t with
      | file c => cases hx
      | link target => cases hx
      | dir es => cases hdir

/-- A search finds the sources that are not below a directory that is left out. -/
theorem mem_below_iff (ht : t.isWellNamed = true) : p ∈ below path t ↔
    IsSource p ∧ ∃ loc x, (∀ n ∈ loc.dropLast, isSkipped n = false) ∧
      t.entryAt? loc = some x ∧ x ≠ .dir ∧ p = Path.under path loc := by
  induction t using FileTree.induct generalizing path with
  | file c => exact mem_below_iff_of_isDir rfl
  | link target => exact mem_below_iff_of_isDir rfl
  | dir es ih =>
    obtain ⟨hnodup, hall⟩ := FileTree.isWellNamed_dir.1 ht
    rw [below, mem_belowAll_iff]
    constructor
    · rintro ⟨⟨n, t⟩, he, hskip, hp⟩
      obtain ⟨hsource, loc, x, hskips, hc, hx, rfl⟩ := (ih _ he (hall _ he).2).1 hp
      refine ⟨hsource, n :: loc, x, (forall_isSkipped_cons_iff hc hx).2 ⟨hskip, hskips⟩, ?_, hx,
        rfl⟩
      rw [FileTree.entryAt?_dir_cons, (FileTree.lookup_eq_some_iff hnodup).2 he]
      exact hc
    · rintro ⟨hsource, loc, x, hskips, hc, hx, rfl⟩
      cases loc with
      | nil => exact absurd (Option.some.inj hc).symm hx
      | cons n loc =>
        rw [FileTree.entryAt?_dir_cons] at hc
        obtain ⟨t, ht, hc⟩ := Option.bind_eq_some_iff.1 hc
        have he := (FileTree.lookup_eq_some_iff hnodup).1 ht
        obtain ⟨hskip, hskips⟩ := (forall_isSkipped_cons_iff hc hx).1 hskips
        exact ⟨(n, t), he, hskip, (ih _ he (hall _ he).2).2 ⟨hsource, loc, x, hskips, hc, hx, rfl⟩⟩

/-- A directory that exists is listed, with the same entries. -/
theorem entries_of_find (root : Bytes) (h : fs.find path = .ok (.dir es)) :
    entries fs root path = .ok (FileTree.inOrder es) := by
  rw [entries, h]
  rfl

/-- What a search finds at or below an entry of its root. The clean path of the entry leads to it,
    as there are no links. -/
theorem branch_of_mem (ht : fs.tree.IsPlain) {d : Location} {e : Bytes × FileTree}
    (hd : fs.locate path = .ok d) (hes : fs.tree.get? d = some (.dir es)) (he : e ∈ es) :
    ∃ qs, branch fs path e = .ok qs ∧
      ∀ p, p ∈ qs ↔ (e.2.isDir && isSkipped e.1) = false ∧ p ∈ below (Path.join path e.1) e.2 := by
  obtain ⟨n, t⟩ := e
  obtain ⟨hnodup, hall⟩ :=
    FileTree.isWellNamed_dir.1 (FileTree.isWellNamed_get? ht.wellNamed hes)
  simp only [branch]
  cases hdir : t.isDir with
  | false => exact ⟨_, rfl, fun p => by simp⟩
  | true =>
    cases hskip : isSkipped n with
    | true => exact ⟨[], rfl, fun p => by simp⟩
    | false =>
      obtain ⟨es', rfl⟩ := FileTree.exists_of_isDir hdir
      have hloc := FileSystem.locate_join ht hd (FileTree.entryAt?_eq_dir_iff.2 ⟨es, hes⟩)
        (hall _ he).1
      have hget : fs.tree.get? (d ++ [n]) = some (.dir es') := by
        rw [FileTree.get?_append, hes, Option.bind_some, FileTree.get?,
          (FileTree.lookup_eq_some_iff hnodup).2 he]
        rfl
      have hentries := entries_of_find path (FileSystem.find_eq_ok_iff.2 ⟨_, hloc, hget⟩)
      refine ⟨belowAll (Path.join path n) (FileTree.inOrder es'), ?_, fun p => ?_⟩
      · exact bind_eq_ok_iff.2 ⟨_, hentries, rfl⟩
      · simp [below, mem_belowAll_iff, FileTree.mem_inOrder]

/-- A search finds what is at or below the entry that its root leads to. -/
theorem search_of_locate (ht : fs.tree.IsPlain) {d : Location} (hd : fs.locate path = .ok d)
    (hget : fs.tree.get? d = some t) :
    ∃ qs, search fs path = .ok qs ∧ ∀ p, p ∈ qs ↔ p ∈ below path t := by
  have hstatus : fs.status path = .ok t :=
    FileSystem.entry_eq_ok_iff.2 ⟨d, (FileSystem.resolve_iff_locate ht).2 hd, hget⟩
  cases hdir : t.isDir with
  | false =>
    refine ⟨below path t, bind_eq_ok_iff.2 ⟨t, mapError_eq_ok_iff.2 hstatus, ?_⟩, fun p => Iff.rfl⟩
    rw [hdir, if_neg Bool.false_ne_true]
    rfl
  | true =>
    obtain ⟨es, rfl⟩ := FileTree.exists_of_isDir hdir
    have hentries := entries_of_find path (FileSystem.find_eq_ok_iff.2 ⟨d, hd, hget⟩)
    obtain ⟨found, hfound⟩ : ∃ found,
        (FileTree.inOrder es).mapM (branch fs path) = .ok found := by
      rw [exists_ok_iff, mapM_error_iff]
      rintro ⟨e, he, err, herr⟩
      obtain ⟨qs, hqs, -⟩ := branch_of_mem ht hd hget (FileTree.mem_inOrder.1 he)
      cases herr.symm.trans hqs
    refine ⟨found.flatten, ?_, fun p => ?_⟩
    · refine bind_eq_ok_iff.2 ⟨.dir es, mapError_eq_ok_iff.2 hstatus, ?_⟩
      rw [hdir, if_pos rfl]
      exact bind_eq_ok_iff.2 ⟨_, hentries, bind_eq_ok_iff.2 ⟨found, hfound, rfl⟩⟩
    · rw [below, mem_belowAll_iff, List.mem_flatten]
      simp only [mem_mapM_iff hfound, FileTree.mem_inOrder]
      constructor
      · rintro ⟨qs, ⟨e, he, hqs⟩, hp⟩
        obtain ⟨qs', hqs', hmem⟩ := branch_of_mem ht hd hget he
        cases hqs.symm.trans hqs'
        exact ⟨e, he, (hmem p).1 hp⟩
      · rintro ⟨e, he, hp⟩
        obtain ⟨qs, hqs, hmem⟩ := branch_of_mem ht hd hget he
        exact ⟨qs, ⟨e, he, hqs⟩, (hmem p).2 hp⟩

theorem exists_locate_of_search (ht : fs.tree.IsPlain) {ps : List Bytes}
    (h : search fs path = .ok ps) : ∃ d t, fs.locate path = .ok d ∧ fs.tree.get? d = some t := by
  obtain ⟨t, ht', -⟩ := bind_eq_ok_iff.1 h
  obtain ⟨d, hd, hget⟩ := FileSystem.entry_eq_ok_iff.1 (mapError_eq_ok_iff.1 ht')
  exact ⟨d, t, (FileSystem.resolve_iff_locate ht).1 hd, hget⟩

/-! ## Patterns -/

/-- The path at which a pattern starts. -/
def root (pattern : Bytes) : Bytes := (searchRoot? pattern).getD pattern

theorem root_of_none (h : searchRoot? pattern = none) : root pattern = pattern := by
  rw [root, h, Option.getD_none]

/-- The pattern reaches a location from its root: the root itself, an entry of it or, for a search,
    whatever is not below a directory that is left out. -/
def Reaches (pattern : Bytes) (loc : Location) : Prop :=
  if (searchRoot? pattern).isSome then ∀ n ∈ loc.dropLast, isSkipped n = false
  else loc.length ≤ 1

/-- The pattern finds a path: that of a source file that it reaches. -/
structure Finds (fs : FileSystem) (pattern path : Bytes) : Prop where
  source : IsSource path
  reached : ∃ d loc c, fs.locate (root pattern) = .ok d ∧ Reaches pattern loc ∧
    fs.tree.entryAt? (d ++ loc) = some (.file c) ∧ path = Path.under (root pattern) loc

theorem finds_iff {d : Location} (hd : fs.locate (root pattern) = .ok d) : Finds fs pattern p ↔
    IsSource p ∧ ∃ loc c, Reaches pattern loc ∧ fs.tree.entryAt? (d ++ loc) = some (.file c) ∧
      p = Path.under (root pattern) loc := by
  constructor
  · rintro ⟨hsource, d', loc, c, hd', h⟩
    cases hd.symm.trans hd'
    exact ⟨hsource, loc, c, h⟩
  · rintro ⟨hsource, loc, c, h⟩
    exact ⟨hsource, d, loc, c, hd, h⟩

/-- The paths that are found lead to files. -/
theorem Finds.read (h : Finds fs pattern p) (ht : fs.tree.IsPlain) :
    ∃ c, fs.read p = .ok c := by
  obtain ⟨-, d, loc, c, hd, -, hc, rfl⟩ := h
  exact ⟨c, FileSystem.read_eq_ok_iff.2 ⟨d ++ loc, FileSystem.locate_under ht hd hc, hc⟩⟩

theorem mem_inside_iff : p ∈ inside path es ↔
    ∃ n t, (n, t) ∈ es ∧ t.root ≠ .dir ∧ IsSource n ∧ p = Path.join path n := by
  simp only [inside, List.mem_map, List.mem_filter, Bool.and_eq_true, Bytes.endsWith_iff,
    FileTree.root_ne_dir_iff]
  constructor
  · rintro ⟨⟨n, t⟩, ⟨he, hfile, hn⟩, rfl⟩
    exact ⟨n, t, he, by simpa using hfile, hn, rfl⟩
  · rintro ⟨n, t, he, hfile, hn, rfl⟩
    exact ⟨(n, t), ⟨he, by simpa using hfile, hn⟩, rfl⟩

/-- A directory stands for the sources in it. -/
theorem mem_inside_iff_finds (ht : fs.tree.IsPlain) {d : Location}
    (hpattern : searchRoot? pattern = none) (hd : fs.locate pattern = .ok d)
    (hes : fs.tree.get? d = some (.dir es)) : p ∈ inside pattern es ↔ Finds fs pattern p := by
  have hroot := root_of_none hpattern
  obtain ⟨hnodup, -⟩ := FileTree.isWellNamed_dir.1 (FileTree.isWellNamed_get? ht.wellNamed hes)
  have hentry : ∀ n x, fs.tree.entryAt? (d ++ [n]) = some x ↔ ∃ t, (n, t) ∈ es ∧ t.root = x := by
    intro n x
    simp only [FileTree.entryAt?_append hes, ← FileTree.lookup_eq_some_iff hnodup,
      FileTree.entryAt?_dir_cons, Option.bind_eq_some_iff, FileTree.entryAt?_nil, Option.some.injEq]
  rw [mem_inside_iff, finds_iff (hroot.symm ▸ hd), hroot]
  constructor
  · rintro ⟨n, t, he, hdir, hn, rfl⟩
    have hx := (hentry n t.root).2 ⟨t, he, rfl⟩
    obtain ⟨c, hc⟩ := ht.exists_file hx hdir
    exact ⟨hn.join pattern, [n], c, by simp [Reaches, hpattern], hc ▸ hx, rfl⟩
  · rintro ⟨hsource, loc, c, hreach, hc, rfl⟩
    rcases loc with - | ⟨n, - | ⟨m, loc⟩⟩
    · rw [List.append_nil, FileTree.entryAt?_eq_file_iff, hes] at hc
      cases hc
    · obtain ⟨t, he, hroot⟩ := (hentry n _).1 hc
      refine ⟨n, t, he, ?_, FileSystem.isSource_of_under ht hd hc hsource, rfl⟩
      rw [hroot]
      exact Entry.noConfusion
    · simp [Reaches, hpattern] at hreach

/-- A file stands for itself. -/
theorem eq_iff_finds {d : Location} {c : Bytes} (hpattern : searchRoot? pattern = none)
    (hsource : IsSource pattern) (hd : fs.locate pattern = .ok d)
    (hc : fs.tree.get? d = some (.file c)) : p = pattern ↔ Finds fs pattern p := by
  have hroot := root_of_none hpattern
  rw [finds_iff (hroot.symm ▸ hd), hroot]
  constructor
  · rintro rfl
    refine ⟨hsource, [], c, by simp [Reaches, hpattern], ?_, rfl⟩
    rw [List.append_nil, FileTree.entryAt?_eq_file_iff, hc]
  · rintro ⟨-, loc, c', -, hc', rfl⟩
    cases loc with
    | nil => rfl
    | cons n loc =>
      rw [FileTree.entryAt?_append hc] at hc'
      cases hc'

/-- A path does not lead to a link in a plain tree. -/
theorem not_find_link (ht : fs.tree.IsPlain) {target : Bytes} :
    fs.find path ≠ .ok (.link target) := by
  intro h
  obtain ⟨d, -, hget⟩ := FileSystem.find_eq_ok_iff.1 h
  have hlink : fs.tree.linkAt? d = some target := by rw [FileTree.linkAt?, hget]
  cases (ht.linkFree d).symm.trans hlink

/-- A pattern stands for the paths that it finds. -/
theorem mem_ofPattern_iff (ht : fs.tree.IsPlain) {ps : List Bytes}
    (h : ofPattern fs pattern = .ok ps) : p ∈ ps ↔ Finds fs pattern p := by
  rw [ofPattern] at h
  split at h
  next r hpattern =>
    have hroot : root pattern = r := by rw [root, hpattern, Option.getD_some]
    obtain ⟨d, t, hd, hget⟩ := exists_locate_of_search ht h
    obtain ⟨qs, hqs, hmem⟩ := search_of_locate ht hd hget
    cases h.symm.trans hqs
    rw [hmem, mem_below_iff (FileTree.isWellNamed_get? ht.wellNamed hget),
      finds_iff (hroot.symm ▸ hd), hroot]
    simp only [Reaches, hpattern, Option.isSome_some, if_true, ← FileTree.entryAt?_append hget]
    refine and_congr_right fun _ => exists_congr fun loc => ?_
    constructor
    · rintro ⟨x, hskip, hx, hdir, hp⟩
      obtain ⟨c, rfl⟩ := ht.exists_file hx hdir
      exact ⟨c, hskip, hx, hp⟩
    · rintro ⟨c, hskip, hc, hp⟩
      exact ⟨.file c, hskip, hc, Entry.noConfusion, hp⟩
  next hpattern =>
    obtain ⟨e, he, h⟩ := bind_eq_ok_iff.1 h
    have hfind := mapError_eq_ok_iff.1 he
    obtain ⟨d, hd, hget⟩ := FileSystem.find_eq_ok_iff.1 hfind
    cases e with
    | dir es =>
      cases h
      exact mem_inside_iff_finds ht hpattern hd hget
    | link target => exact absurd hfind (not_find_link ht)
    | file c =>
      simp only at h
      split at h
      next hends =>
        cases h
        rw [List.mem_singleton]
        exact eq_iff_finds hpattern (Bytes.endsWith_iff.1 hends) hd hget
      next => cases h

/-- When a pattern stands for paths: its root exists and, without a search, it is that of a
    directory or of a source. -/
theorem ofPattern_ok_iff (ht : fs.tree.IsPlain) : (∃ ps, ofPattern fs pattern = .ok ps) ↔
    ∃ d e, fs.locate (root pattern) = .ok d ∧ fs.tree.entryAt? d = some e ∧
      ((searchRoot? pattern).isSome ∨ e = .dir ∨ IsSource pattern) := by
  rw [← FileSystem.exists_find_iff fun e => _ ∨ e = .dir ∨ _, ofPattern, root]
  cases searchRoot? pattern with
  | some r =>
    simp only [Option.getD_some, Option.isSome_some, true_or, and_true,
      FileSystem.find_eq_ok_iff]
    constructor
    · rintro ⟨ps, h⟩
      obtain ⟨d, t, hd, hget⟩ := exists_locate_of_search ht h
      exact ⟨t, d, hd, hget⟩
    · rintro ⟨t, d, hd, hget⟩
      obtain ⟨qs, hqs, -⟩ := search_of_locate ht hd hget
      exact ⟨qs, hqs⟩
  | none =>
    simp only [bind_eq_ok_iff, mapError_eq_ok_iff]
    rw [exists_comm]
    refine exists_congr fun e => ?_
    rw [exists_and_left]
    refine and_congr_right fun hfind => ?_
    cases e with
    | dir es => simp [FileTree.root, pure, Except.pure]
    | link target => exact absurd hfind (not_find_link ht)
    | file c =>
      simp only [FileTree.root, IsSource, ← Bytes.endsWith_iff]
      cases Bytes.endsWith pattern sourceExt <;> simp [pure, Except.pure]

/-! ## Lists of paths -/

theorem pairwise_insert {us : List Bytes} (h : us.Pairwise (· < ·)) (u : Bytes) :
    (insert u us).Pairwise (· < ·) := by
  induction us with
  | nil => exact List.pairwise_singleton _ u
  | cons v us ih =>
    obtain ⟨hv, hus⟩ := List.pairwise_cons.1 h
    rw [insert]
    split
    next hlt =>
      refine List.pairwise_cons.2 ⟨List.forall_mem_cons.2 ⟨hlt, fun w hw => ?_⟩, h⟩
      exact List.lt_trans hlt (hv w hw)
    next hnlt =>
      split
      · exact h
      next hne =>
        have hlt : v < u :=
          (List.le_iff_lt_or_eq.1 (List.not_lt.1 hnlt)).resolve_right (Ne.symm hne)
        refine List.pairwise_cons.2 ⟨fun w hw => ?_, ih hus⟩
        rcases mem_insert.1 hw with rfl | hw
        · exact hlt
        · exact hv w hw

theorem pairwise_foldr_insert (us : List Bytes) : (us.foldr insert []).Pairwise (· < ·) := by
  induction us with
  | nil => exact List.Pairwise.nil
  | cons u us ih => exact pairwise_insert ih u

/-- The paths that some patterns stand for, if each of them stands for paths, are those that they
    find, in increasing order. -/
theorem collect_eq_ok_iff (ht : fs.tree.IsPlain) {patterns ps : List Bytes} :
    collect fs patterns = .ok ps ↔
      (∀ x ∈ patterns, x.trim ≠ [] → ∃ qs, ofPattern fs x.trim = .ok qs) ∧
      ps.Pairwise (· < ·) ∧ ∀ p, p ∈ ps ↔ ∃ x ∈ patterns, x.trim ≠ [] ∧ Finds fs x.trim p := by
  have hok : (∃ ps, collect fs patterns = .ok ps) ↔
      ∀ x ∈ patterns, x.trim ≠ [] → ∃ qs, ofPattern fs x.trim = .ok qs := by
    simp only [exists_ok_iff, collect_error_iff, not_exists, not_and]
  have hlist : ∀ ps, collect fs patterns = .ok ps → ps.Pairwise (· < ·) ∧
      ∀ p, p ∈ ps ↔ ∃ x ∈ patterns, x.trim ≠ [] ∧ Finds fs x.trim p := by
    intro ps h
    have hall := hok.1 ⟨ps, h⟩
    obtain ⟨found, hfound, h⟩ := bind_eq_ok_iff.1 h
    cases h
    refine ⟨pairwise_foldr_insert _, fun p => ?_⟩
    rw [mem_foldr_insert, List.mem_flatten]
    simp only [mem_mapM_iff hfound, List.mem_filter, List.mem_map]
    constructor
    · rintro ⟨qs, ⟨-, ⟨⟨x, hx, rfl⟩, hne⟩, hqs⟩, hp⟩
      exact ⟨x, hx, by simpa using hne, (mem_ofPattern_iff ht hqs).1 hp⟩
    · rintro ⟨x, hx, hne, hp⟩
      obtain ⟨qs, hqs⟩ := hall x hx hne
      exact ⟨qs, ⟨_, ⟨⟨x, hx, rfl⟩, by simpa using hne⟩, hqs⟩, (mem_ofPattern_iff ht hqs).2 hp⟩
  constructor
  · intro h
    exact ⟨hok.1 ⟨ps, h⟩, hlist ps h⟩
  · rintro ⟨hall, hsorted, hmem⟩
    obtain ⟨qs, hqs⟩ := hok.2 hall
    obtain ⟨hsorted', hmem'⟩ := hlist qs hqs
    rw [hqs, hsorted.eq_of_mem_iff hsorted' fun p => (hmem p).trans (hmem' p).symm]

/-- All paths that are to be compiled lead to files. -/
theorem read_of_collect (ht : fs.tree.IsPlain) {patterns ps : List Bytes}
    (h : collect fs patterns = .ok ps) : ∀ p ∈ ps, ∃ c, fs.read p = .ok c := by
  intro p hp
  obtain ⟨-, -, hmem⟩ := (collect_eq_ok_iff ht).1 h
  obtain ⟨x, -, -, hfinds⟩ := (hmem p).1 hp
  exact hfinds.read ht

end Sources

end IndentMarkup
