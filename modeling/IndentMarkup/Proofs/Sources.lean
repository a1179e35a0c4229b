import IndentMarkup.Command.Sources
import IndentMarkup.Proofs.FileTree
import IndentMarkup.Proofs.OneLine

/-!
# The paths that patterns stand for

Whatever the patterns and the files are, a path that they stand for ends with the extension of
sources (`Sources.isSource_of_collect`). For the files below a directory this is checked, and for
those in a directory it is checked of the name, which stays at the end of the path as it is no name
that could be left out (`Path.exists_clean_append`). One pattern that stands for nothing is enough
for there to be no paths at all (`Sources.collect_error_iff`).

A path of a source leads to a location with the name of a source unless it ends with a link. What is
said of sources and templates is therefore said of trees in which no link has the name of one
(`FileTree.LinksAside`).
-/

namespace IndentMarkup

theorem Bytes.endsWith_iff {t tail : Bytes} : t.endsWith tail = true ↔ ∃ s, t = s ++ tail := by
  rw [endsWith, List.isSuffixOf_iff_suffix]
  exact exists_congr fun s => eq_comm

theorem Bytes.dropEnd_append_self (s tail : Bytes) : (s ++ tail).dropEnd tail = s := by
  rw [dropEnd, if_pos (endsWith_iff.2 ⟨s, rfl⟩), List.length_append, Nat.add_sub_cancel,
    List.take_left]

/-- The path is one of a source, by its extension. -/
def IsSource (path : Bytes) : Prop := ∃ s, path = s ++ sourceExt

theorem isExt_sourceExt : Path.IsExt sourceExt := ⟨by decide +kernel, by decide +kernel⟩

theorem isExt_templateExt : Path.IsExt templateExt := ⟨by decide +kernel, by decide +kernel⟩

theorem templatePath_append (path : Bytes) :
    templatePath (path ++ sourceExt) = path ++ templateExt := by
  rw [templatePath, Bytes.dropEnd_append_self]

/-- The last name of a path stays the last one in the clean path, if it is that of an entry. -/
theorem Path.exists_clean_append {ext : Bytes} (hext : IsExt ext) (path : Bytes) :
    ∃ s, clean (path ++ ext) = s ++ ext := by
  obtain ⟨hself, habove⟩ := hext.append_ne (base path)
  have hpush : ∀ rooted out, push rooted out (base path ++ ext) = (base path ++ ext) :: out := by
    intro rooted out
    rw [push.eq_def, if_neg hself, if_neg habove]
  obtain ⟨s, hs⟩ := Bytes.exists_join_concat "/" (base path ++ ext)
    ((folderNames path).foldl (push (isRooted path)) []).reverse
  rw [clean, names_append hext.slash_notMem, isRooted_append hext.slash_notMem, List.foldl_append,
    List.foldl_cons, List.foldl_nil, hpush, List.reverse_cons]
  simp only [hs]
  split
  · exact ⟨Byte.slash :: (s ++ base path), by simp⟩
  · exact ⟨s ++ base path, by simp⟩

/-- Whatever the directory is called, the name stays at the end. -/
theorem IsSource.join {n : Bytes} (h : IsSource n) (dir : Bytes) : IsSource (Path.join dir n) := by
  obtain ⟨s, rfl⟩ := h
  rw [Path.join, ← List.append_assoc]
  split
  · exact Path.exists_clean_append isExt_sourceExt s
  · exact Path.exists_clean_append isExt_sourceExt _

/-! ## Links -/

/-- The path is one of a template, by its extension. -/
def IsTemplate (path : Bytes) : Prop := ∃ s, path = s ++ templateExt

namespace FileTree

mutual

/-- The links of a tree, with their locations. -/
def links : FileTree → List (Location × Bytes)
  | file _ => []
  | link target => [([], target)]
  | dir es => linksOfAll es

/-- The links of the entries of a directory, with their locations from there. -/
def linksOfAll : List (Bytes × FileTree) → List (Location × Bytes)
  | [] => []
  | (n, t) :: es => (links t).map (fun l => (n :: l.1, l.2)) ++ linksOfAll es

end

theorem mem_linksOfAll {es : List (Bytes × FileTree)} {n target : Bytes} {t : FileTree}
    {loc : Location} (hn : es.lookup n = some t) (h : (loc, target) ∈ t.links) :
    (n :: loc, target) ∈ linksOfAll es := by
  induction es with
  | nil => cases hn
  | cons e es ih =>
    obtain ⟨m, s⟩ := e
    rw [lookup_cons_eq_if] at hn
    rw [linksOfAll, List.mem_append]
    split at hn
    next heq =>
      cases heq
      cases hn
      exact .inl (List.mem_map.2 ⟨_, h, rfl⟩)
    next => exact .inr (ih hn)

theorem mem_links_of_linkAt? {t : FileTree} {loc : Location} {target : Bytes}
    (h : t.linkAt? loc = some target) : (loc, target) ∈ t.links := by
  rw [linkAt?_eq_some_iff] at h
  induction loc generalizing t with
  | nil =>
    cases t with
    | file c => cases h
    | dir es => cases h
    | link target' =>
      cases h
      exact List.mem_singleton_self _
  | cons n loc ih =>
    cases t with
    | file c => cases h
    | link target' => cases h
    | dir es =>
      rw [entryAt?_dir_cons] at h
      obtain ⟨s, hs, h⟩ := Option.bind_eq_some_iff.1 h
      exact mem_linksOfAll hs (ih h)

theorem linkFree_of_links {t : FileTree} (h : t.links = []) (loc : Location) :
    t.linkAt? loc = none := by
  rw [Option.eq_none_iff_forall_not_mem]
  intro target htarget
  exact absurd (mem_links_of_linkAt? htarget) (h ▸ List.not_mem_nil)

/-- No link has the name of a source or of a template. -/
def LinksAside (t : FileTree) : Prop :=
  ∀ d n, IsSource n ∨ IsTemplate n → t.linkAt? (d ++ [n]) = none

theorem linksAside_of_links {t : FileTree}
    (h : ∀ l ∈ t.links, ∀ n ∈ l.1.getLast?,
      (Bytes.endsWith n sourceExt || Bytes.endsWith n templateExt) = false) : t.LinksAside := by
  intro d n hn
  rw [Option.eq_none_iff_forall_not_mem]
  intro target htarget
  have hends := h _ (mem_links_of_linkAt? htarget) n (by simp)
  rw [Bool.or_eq_false_iff] at hends
  rcases hn with hn | hn
  · exact absurd (Bytes.endsWith_iff.2 hn) (by simp [hends.1])
  · exact absurd (Bytes.endsWith_iff.2 hn) (by simp [hends.2])

theorem LinksAside.of_sameWays {t t' : FileTree} (h : t.LinksAside) (hways : t.SameWays t') :
    t'.LinksAside := fun d n hn => (hways.links _).trans (h d n hn)

end FileTree

/-- A path of a source leads to a location with the name of a source. -/
theorem IsSource.of_locate {fs : FileSystem} {path : Bytes} {loc : Location} (h : IsSource path)
    (haside : fs.tree.LinksAside) (hloc : fs.locate path = .ok loc) :
    ∃ d n, loc = d ++ [n] ∧ IsSource n := by
  obtain ⟨s, rfl⟩ := h
  obtain ⟨d, -, rfl⟩ := (FileSystem.locate_append_eq_ok_iff isExt_sourceExt
    fun d => haside d _ (.inl ⟨_, rfl⟩)).1 hloc
  exact ⟨d, _, rfl, _, rfl⟩

/-! ## The same sources -/

/-- Both file systems have the same directories and links, and the same at all locations with the
    name of a source. -/
structure FileSystem.SameSources (fs fs' : FileSystem) : Prop where
  cwd_eq : fs'.cwd = fs.cwd
  locked_eq : fs'.locked = fs.locked
  ways : fs.tree.SameWays fs'.tree
  sources : ∀ d n, IsSource n → fs'.tree.entryAt? (d ++ [n]) = fs.tree.entryAt? (d ++ [n])

namespace FileSystem.SameSources

variable {fs fs' fs'' : FileSystem} {path : Bytes}

theorem refl (fs : FileSystem) : fs.SameSources fs :=
  ⟨rfl, rfl, ⟨fun _ => Iff.rfl, fun _ => rfl⟩, fun _ _ _ => rfl⟩

theorem symm (h : fs.SameSources fs') : fs'.SameSources fs where
  cwd_eq := h.cwd_eq.symm
  locked_eq := h.locked_eq.symm
  ways := ⟨fun loc => (h.ways.dirs loc).symm, fun loc => (h.ways.links loc).symm⟩
  sources := fun d n hn => (h.sources d n hn).symm

theorem trans (h : fs.SameSources fs') (h' : fs'.SameSources fs'') : fs.SameSources fs'' where
  cwd_eq := h'.cwd_eq.trans h.cwd_eq
  locked_eq := h'.locked_eq.trans h.locked_eq
  ways := ⟨fun loc => (h.ways.dirs loc).trans (h'.ways.dirs loc),
    fun loc => (h'.ways.links loc).trans (h.ways.links loc)⟩
  sources := fun d n hn => (h'.sources d n hn).trans (h.sources d n hn)

theorem locate_iff (h : fs.SameSources fs') {loc : Location} :
    fs'.locate path = .ok loc ↔ fs.locate path = .ok loc := (locate_congr h.cwd_eq h.ways).symm

/-- The path of a source leads to the same entry. -/
theorem entryAt?_eq (h : fs.SameSources fs') (haside : fs.tree.LinksAside) (hp : IsSource path)
    {loc : Location} (hloc : fs.locate path = .ok loc) :
    fs'.tree.entryAt? loc = fs.tree.entryAt? loc := by
  obtain ⟨d, n, rfl, hn⟩ := hp.of_locate haside hloc
  exact h.sources d n hn

theorem read_iff (h : fs.SameSources fs') (haside : fs.tree.LinksAside) (hp : IsSource path)
    {c : Bytes} : fs'.read path = .ok c ↔ fs.read path = .ok c := by
  rw [read_eq_ok_iff, read_eq_ok_iff]
  refine exists_congr fun loc => ?_
  rw [h.locate_iff]
  exact and_congr_right fun hloc => by rw [h.entryAt?_eq haside hp hloc]

end FileSystem.SameSources

namespace Sources

theorem mem_insert {t u : Bytes} {us : List Bytes} : t ∈ insert u us ↔ t = u ∨ t ∈ us := by
  induction us with
  | nil => simp [insert]
  | cons v us ih =>
    rw [insert]
    split
    · exact List.mem_cons
    · split
      next h =>
        subst h
        simp
      next =>
        rw [List.mem_cons, ih, List.mem_cons]
        exact or_left_comm

theorem mem_foldr_insert {t : Bytes} {us : List Bytes} : t ∈ us.foldr insert [] ↔ t ∈ us := by
  induction us with
  | nil => exact Iff.rfl
  | cons u us ih => rw [List.foldr_cons, mem_insert, ih, List.mem_cons]

/-- An entry that is no directory stands for itself, if it is a source. -/
theorem mem_below_of_isDir {path p : Bytes} {t : FileTree} (ht : t.isDir = false) :
    p ∈ below path t ↔ IsSource path ∧ p = path := by
  cases t with
  | dir es => cases ht
  | file c =>
    rw [below, IsSource, ← Bytes.endsWith_iff]
    split <;> simp [*]
  | link target =>
    rw [below, IsSource, ← Bytes.endsWith_iff]
    split <;> simp [*]

mutual

theorem isSource_of_mem_below {path p : Bytes} {t : FileTree} (h : p ∈ below path t) :
    IsSource p := by
  cases t with
  | file c =>
    obtain ⟨hsource, rfl⟩ := (mem_below_of_isDir rfl).1 h
    exact hsource
  | link target =>
    obtain ⟨hsource, rfl⟩ := (mem_below_of_isDir rfl).1 h
    exact hsource
  | dir es =>
    rw [below] at h
    exact isSource_of_mem_belowAll h

theorem isSource_of_mem_belowAll {path p : Bytes} {es : List (Bytes × FileTree)}
    (h : p ∈ belowAll path es) : IsSource p := by
  cases es with
  | nil => cases h
  | cons e es =>
    obtain ⟨n, t⟩ := e
    rw [belowAll] at h
    rcases List.mem_append.1 h with h | h
    · split at h
      · cases h
      · exact isSource_of_mem_below h
    · exact isSource_of_mem_belowAll h

end

theorem isSource_of_mem_inside {path p : Bytes} {es : List (Bytes × FileTree)}
    (h : p ∈ inside path es) : IsSource p := by
  obtain ⟨e, he, rfl⟩ := List.mem_map.1 h
  obtain ⟨-, hends⟩ := Bool.and_eq_true_iff.1 (List.mem_filter.1 he).2
  exact IsSource.join (Bytes.endsWith_iff.1 hends) path

theorem isSource_of_branch {fs : FileSystem} {root : Bytes} {e : Bytes × FileTree}
    {ps : List Bytes} (h : branch fs root e = .ok ps) : ∀ p ∈ ps, IsSource p := by
  intro p hp
  simp only [branch] at h
  split at h
  · split at h
    · cases h
      cases hp
    · obtain ⟨es, -, h⟩ := bind_eq_ok_iff.1 h
      cases h
      exact isSource_of_mem_belowAll hp
  · cases h
    exact isSource_of_mem_below hp

theorem isSource_of_search {fs : FileSystem} {root : Bytes} {ps : List Bytes}
    (h : search fs root = .ok ps) : ∀ p ∈ ps, IsSource p := by
  intro p hp
  obtain ⟨e, -, h⟩ := bind_eq_ok_iff.1 h
  split at h
  · obtain ⟨es, -, h⟩ := bind_eq_ok_iff.1 h
    obtain ⟨found, hfound, h⟩ := bind_eq_ok_iff.1 h
    cases h
    obtain ⟨qs, hqs, hp⟩ := List.mem_flatten.1 hp
    obtain ⟨e, -, h⟩ := (mem_mapM_iff hfound).1 hqs
    exact isSource_of_branch h p hp
  · cases h
    exact isSource_of_mem_below hp

theorem isSource_of_ofPattern {fs : FileSystem} {pattern : Bytes} {ps : List Bytes}
    (h : ofPattern fs pattern = .ok ps) : ∀ p ∈ ps, IsSource p := by
  intro p hp
  have hself : (if Bytes.endsWith pattern sourceExt = true then .ok [pattern]
      else .error (SourceError.notSource pattern)) = Except.ok ps → IsSource p := by
    intro h
    split at h
    next hends =>
      cases h
      cases List.mem_singleton.1 hp
      exact Bytes.endsWith_iff.1 hends
    next => cases h
  rw [ofPattern] at h
  split at h
  · exact isSource_of_search h p hp
  · obtain ⟨e, -, h⟩ := bind_eq_ok_iff.1 h
    cases e with
    | dir es =>
      cases h
      exact isSource_of_mem_inside hp
    | file c => exact hself h
    | link target => exact hself h

/-- No sources are found at all if there are none for one of the patterns, wherever it stands. -/
theorem collect_error_iff {fs : FileSystem} {patterns : List Bytes} :
    (∃ e, collect fs patterns = .error e) ↔
      ∃ x ∈ patterns, x.trim ≠ [] ∧ ∃ e, ofPattern fs x.trim = .error e := by
  have hcollect : (∃ e, collect fs patterns = .error e) ↔
      ∃ e, ((patterns.map Bytes.trim).filter (!·.isEmpty)).mapM (ofPattern fs) = .error e := by
    refine exists_congr fun e => bind_eq_error_iff.trans (or_iff_left ?_)
    rintro ⟨found, -, h⟩
    cases h
  rw [hcollect, mapM_error_iff]
  simp [and_assoc]

/-- All that is compiled is a source, by its extension. -/
theorem isSource_of_collect {fs : FileSystem} {patterns ps : List Bytes}
    (h : collect fs patterns = .ok ps) : ∀ p ∈ ps, IsSource p := by
  intro p hp
  obtain ⟨found, hfound, h⟩ := bind_eq_ok_iff.1 h
  cases h
  obtain ⟨ps, hps, hp⟩ := List.mem_flatten.1 (mem_foldr_insert.1 hp)
  obtain ⟨pattern, -, h⟩ := (mem_mapM_iff hfound).1 hps
  exact isSource_of_ofPattern h p hp

end Sources

end IndentMarkup
