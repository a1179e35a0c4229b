import Mathlib.Data.List.Nodup
import IndentMarkup.Command.Run
import IndentMarkup.Proofs.Search

/-!
# The collected paths

What a pattern finds, case by case (`Sources.IsFoundBy`): a file is found under the pattern itself,
the files in a directory under the path joined with their name, and those of a search under the path
that goes down from its root. The collected paths are those that some pattern finds, in increasing
order, so that neither the order of the patterns nor a repeated one matters. All of this is said of
plain trees, in which no link leads away from where the names of a path do. Patterns may start at
the root and go up from the working directory.

The paths are distinct as texts, and a file may have more than one path. All that is joined is
clean, so that the only paths that are not are those that a pattern itself gives for a file
(`Sources.Finds.clean_or_root`). Two paths that are the same when clean are collected exactly if a
pattern names a file by one of them and some pattern finds it by the other.
-/

namespace IndentMarkup

namespace Sources

variable {fs : FileSystem} {pattern p q r : Bytes} {patterns ps : List Bytes}

/-! ## Patterns, case by case -/

/-- The pattern asks for a search below a root: it is the root followed by `/...`, or it is `...`
    and the root is the directory that the command runs in. -/
def Searches (pattern r : Bytes) : Prop :=
  pattern = "..." ∧ r = Path.here ∨
    ∃ s, pattern = s ++ "/..." ∧ r = if s = [] then Path.here else s

theorem searchRoot?_eq_some_iff : searchRoot? pattern = some r ↔ Searches pattern r := by
  have hdrop : ∀ s : Bytes, Bytes.dropEnd (Bytes.dropEnd (s ++ "/...") "...") "/" = s := by
    intro s
    have hsplit : s ++ ("/..." : Bytes) = (s ++ ("/" : Bytes)) ++ ("..." : Bytes) := by
      rw [List.append_assoc]
      rfl
    rw [hsplit, Bytes.dropEnd_append_self, Bytes.dropEnd_append_self]
  have hall : searchRoot? "..." = some Path.here := by decide +kernel
  have hbelow : ∀ s : Bytes,
      searchRoot? (s ++ "/...") = some (if s = [] then Path.here else s) := by
    intro s
    rw [searchRoot?, if_pos (.inr (Bytes.endsWith_iff.2 ⟨s, rfl⟩))]
    simp only [hdrop, List.isEmpty_iff]
  constructor
  · intro h
    by_cases hsearch : pattern = "..." ∨ Bytes.endsWith pattern "/..." = true
    · rcases hsearch with rfl | hends
      · exact .inl ⟨rfl, Option.some.inj (h.symm.trans hall)⟩
      · obtain ⟨s, rfl⟩ := Bytes.endsWith_iff.1 hends
        exact .inr ⟨s, rfl, Option.some.inj (h.symm.trans (hbelow s))⟩
    · rw [searchRoot?, if_neg hsearch] at h
      cases h
  · rintro (⟨rfl, rfl⟩ | ⟨s, rfl, rfl⟩)
    · exact hall
    · exact hbelow s

theorem searchRoot?_eq_none_iff : searchRoot? pattern = none ↔ ∀ r, ¬Searches pattern r := by
  simp only [← searchRoot?_eq_some_iff, Option.eq_none_iff_forall_not_mem, Option.mem_def]

theorem Searches.root_eq (h : Searches pattern r) : root pattern = r := by
  rw [root, searchRoot?_eq_some_iff.2 h, Option.getD_some]

/-- The pattern stands for paths: the root of a search exists, and what else a pattern names is a
    directory or a source file. -/
structure Stands (fs : FileSystem) (pattern : Bytes) : Prop where
  search : ∀ r, Searches pattern r → ∃ e, fs.find r = .ok e
  plain : (∀ r, ¬Searches pattern r) →
    fs.HasDir pattern ∨ IsSource pattern ∧ ∃ c, fs.read pattern = .ok c

theorem ofPattern_ok_iff_stands (ht : fs.tree.IsPlain) :
    (∃ qs, ofPattern fs pattern = .ok qs) ↔ Stands fs pattern := by
  rw [ofPattern_ok_iff ht]
  cases hpattern : searchRoot? pattern with
  | some r =>
    have hsearch := searchRoot?_eq_some_iff.1 hpattern
    have hunique : ∀ r', Searches pattern r' → r' = r := fun r' h =>
      h.root_eq.symm.trans hsearch.root_eq
    have hfind : (∃ e, fs.find r = .ok e) ↔
        ∃ d e, fs.locate r = .ok d ∧ fs.tree.entryAt? d = some e := by
      simpa using FileSystem.exists_find_iff fun _ => True
    simp only [hsearch.root_eq, Option.isSome_some, true_or, and_true, ← hfind]
    constructor
    · intro h
      exact ⟨fun r' h' => hunique r' h' ▸ h, fun hnone => absurd hsearch (hnone r)⟩
    · intro h
      exact h.search r hsearch
  | none =>
    have hnone := searchRoot?_eq_none_iff.1 hpattern
    have hplain : Stands fs pattern ↔
        fs.HasDir pattern ∨ IsSource pattern ∧ ∃ c, fs.read pattern = .ok c :=
      ⟨fun h => h.plain hnone, fun h => ⟨fun r hr => absurd hr (hnone r), fun _ => h⟩⟩
    rw [hplain, root_of_none hpattern]
    simp only [Option.isSome_none, Bool.false_eq_true, false_or, FileSystem.hasDir_iff,
      FileSystem.read_eq_ok_iff]
    constructor
    · rintro ⟨d, e, hd, he, hkind⟩
      by_cases hdir : e = .dir
      · exact .inl ⟨d, hd, hdir ▸ he⟩
      · obtain ⟨c, rfl⟩ := ht.exists_file he hdir
        exact .inr ⟨hkind.resolve_left hdir, c, d, hd, he⟩
    · rintro (⟨d, hd, he⟩ | ⟨hsource, c, d, hd, he⟩)
      · exact ⟨d, .dir, hd, he, .inl rfl⟩
      · exact ⟨d, .file c, hd, he, .inr hsource⟩

/-- The paths that a pattern finds. -/
inductive IsFoundBy (fs : FileSystem) (pattern : Bytes) : Bytes → Prop
  /-- A source file is found under the pattern that names it. -/
  | file {c : Bytes} (hplain : ∀ r, ¬Searches pattern r) (hsource : IsSource pattern)
      (hc : fs.read pattern = .ok c) : IsFoundBy fs pattern pattern
  /-- The source files directly inside a directory. -/
  | entry {d : Location} {n c : Bytes} (hplain : ∀ r, ¬Searches pattern r)
      (hd : fs.locate pattern = .ok d) (hc : fs.tree.entryAt? (d ++ [n]) = some (.file c))
      (hsource : IsSource n) : IsFoundBy fs pattern (Path.join pattern n)
  /-- The source files at or below the root of a search, unless a directory below the root on the
      way to them is left out. -/
  | below {r c : Bytes} {d loc : Location} (hsearch : Searches pattern r)
      (hd : fs.locate r = .ok d) (hc : fs.tree.entryAt? (d ++ loc) = some (.file c))
      (hskip : ∀ n ∈ loc.dropLast, isSkipped n = false) (hsource : IsSource (Path.under r loc)) :
      IsFoundBy fs pattern (Path.under r loc)

theorem isFoundBy_iff (ht : fs.tree.IsPlain) :
    IsFoundBy fs pattern p ↔ Finds fs pattern p := by
  constructor
  · intro h
    cases h with
    | file hplain hsource hc =>
      have hpattern := searchRoot?_eq_none_iff.2 hplain
      obtain ⟨d, hd, hc⟩ := FileSystem.read_eq_ok_iff.1 hc
      exact (eq_iff_finds hpattern hsource hd (FileTree.entryAt?_eq_file_iff.1 hc)).1 rfl
    | @entry d n c hplain hd hc hsource =>
      have hpattern := searchRoot?_eq_none_iff.2 hplain
      have hroot := root_of_none hpattern
      exact (finds_iff (hroot.symm ▸ hd)).2
        ⟨hsource.join pattern, [n], c, by simp [Reaches, hpattern], hc, by rw [hroot]; rfl⟩
    | @below r c d loc hsearch hd hc hskip hsource =>
      refine (finds_iff (hsearch.root_eq.symm ▸ hd)).2 ⟨hsource, loc, c, ?_, hc, ?_⟩
      · simpa [Reaches, searchRoot?_eq_some_iff.2 hsearch] using hskip
      · rw [hsearch.root_eq]
  · rintro ⟨hsource, d, loc, c, hd, hreach, hc, rfl⟩
    cases hpattern : searchRoot? pattern with
    | some r =>
      have hsearch := searchRoot?_eq_some_iff.1 hpattern
      rw [hsearch.root_eq] at hd hsource ⊢
      exact .below hsearch hd hc (by simpa [Reaches, hpattern] using hreach) hsource
    | none =>
      have hplain := searchRoot?_eq_none_iff.1 hpattern
      rw [root_of_none hpattern] at hd hsource ⊢
      rcases loc with - | ⟨n, - | ⟨m, loc⟩⟩
      · rw [List.append_nil] at hc
        exact .file hplain hsource (FileSystem.read_eq_ok_iff.2 ⟨d, hd, hc⟩)
      · exact .entry hplain hd hc (FileSystem.isSource_of_under ht hd hc hsource)
      · simp [Reaches, hpattern] at hreach

/-- A path that is found is clean, or it is what the pattern itself calls a file. -/
theorem Finds.clean_or_root (h : Finds fs pattern p) : Path.clean p = p ∨ p = root pattern := by
  obtain ⟨-, d, loc, c, hd, -, hc, rfl⟩ := h
  by_cases hloc : loc = []
  · exact .inr (by rw [hloc, Path.under_nil])
  · exact .inl (Path.clean_under _ hloc)

/-- The collected paths are distinct as texts. Two of them that are the same when clean lead to the
    same place, and so do two in the working directory only if they are the same when clean. They
    are distinct when clean exactly if no file that a pattern names is found by another path that is
    the same when clean, for which it is enough that patterns name files by clean paths. -/
theorem nodup_clean_collect_iff (ht : fs.tree.IsPlain) (h : collect fs patterns = .ok ps) :
    ps.Nodup ∧
    (∀ p ∈ ps, ∀ q ∈ ps, (Path.clean p = Path.clean q → fs.locate p = fs.locate q) ∧
      (Path.isInside p = true → Path.isInside q = true →
        (Path.clean p = Path.clean q ↔ fs.locate p = fs.locate q))) ∧
    ((ps.map Path.clean).Nodup ↔
      ∀ x ∈ patterns, x.trim ≠ [] → IsFoundBy fs x.trim (root x.trim) →
        ∀ y ∈ patterns, y.trim ≠ [] → ∀ p, IsFoundBy fs y.trim p →
          Path.clean p = Path.clean (root x.trim) → p = root x.trim) ∧
    ((∀ x ∈ patterns, x.trim ≠ [] → IsFoundBy fs x.trim (root x.trim) →
        Path.clean (root x.trim) = root x.trim) →
      (ps.map Path.clean).Nodup) := by
  obtain ⟨-, hsorted, hmem⟩ := (collect_eq_ok_iff ht).1 h
  simp only [isFoundBy_iff ht]
  have hnodup : ps.Nodup := hsorted.nodup
  have hclean : ∀ p ∈ ps, Path.clean p = p ∨
      ∃ x ∈ patterns, x.trim ≠ [] ∧ Finds fs x.trim (root x.trim) ∧ p = root x.trim := by
    intro p hp
    obtain ⟨x, hx, hne, hfinds⟩ := (hmem p).1 hp
    refine hfinds.clean_or_root.imp_right fun heq => ⟨x, hx, hne, ?_, heq⟩
    rwa [← heq]
  refine ⟨hnodup, fun p hp q hq => ?_, ?_, fun hroot => ?_⟩
  · obtain ⟨c, hc⟩ := read_of_collect ht h p hp
    obtain ⟨c', hc'⟩ := read_of_collect ht h q hq
    obtain ⟨l, hl, -⟩ := FileSystem.read_eq_ok_iff.1 hc
    obtain ⟨d, hd, -⟩ := FileSystem.read_eq_ok_iff.1 hc'
    rw [hl, hd, Except.ok.injEq]
    refine ⟨FileSystem.eq_of_clean_eq ht hl hd, fun hin hin' => ?_⟩
    refine ⟨FileSystem.eq_of_clean_eq ht hl hd, ?_⟩
    rintro rfl
    exact FileSystem.clean_eq_of_isInside ht hl hd hin hin'
  · rw [List.nodup_map_iff_inj_on hnodup]
    constructor
    · intro hinj x hx hne hfinds y hy hne' p hp heq
      exact hinj p ((hmem p).2 ⟨y, hy, hne', hp⟩) _ ((hmem _).2 ⟨x, hx, hne, hfinds⟩) heq
    · intro hone p hp q hq heq
      obtain ⟨y, hy, hney, hfindsy⟩ := (hmem p).1 hp
      obtain ⟨z, hz, hnez, hfindsz⟩ := (hmem q).1 hq
      rcases hclean p hp with hpc | ⟨x, hx, hne, hfinds, rfl⟩
      · rcases hclean q hq with hqc | ⟨x, hx, hne, hfinds, rfl⟩
        · rw [← hpc, heq, hqc]
        · exact hone x hx hne hfinds y hy hney p hfindsy heq
      · exact (hone x hx hne hfinds z hz hnez q hfindsz heq.symm).symm
  · have hall : ∀ p ∈ ps, Path.clean p = id p := by
      intro p hp
      rcases hclean p hp with hpc | ⟨x, hx, hne, hfinds, rfl⟩
      · exact hpc
      · exact hroot x hx hne hfinds
    rwa [List.map_congr_left hall, List.map_id]

/-- A directory and a search below it, by paths that are not clean, and a clean path of a file. -/
theorem nodup_clean_collect_iff_overlapping :
    ∃ fs : FileSystem,
      fs = ⟨.dir [("d", .dir [("a.hamlbars", .file "%p"), ("b.hamlbars", .file "")])], [], []⟩ ∧
      fs.tree.IsPlain ∧
      collect fs ["./d", "d//...", "d/a.hamlbars"] = .ok ["d/a.hamlbars", "d/b.hamlbars"] ∧
      (List.map Path.clean ["d/a.hamlbars", "d/b.hamlbars"]).Nodup := by
  have ht : FileTree.IsPlain
      (.dir [("d", .dir [("a.hamlbars", .file "%p"), ("b.hamlbars", .file "")])]) :=
    ⟨by decide +kernel, FileTree.linkFree_of_links (by decide +kernel)⟩
  have hok : collect
      ⟨.dir [("d", .dir [("a.hamlbars", .file "%p"), ("b.hamlbars", .file "")])], [], []⟩
      ["./d", "d//...", "d/a.hamlbars"] = .ok ["d/a.hamlbars", "d/b.hamlbars"] :=
    toOption_eq_some_iff.1 (by decide +kernel)
  have hclean : ∀ x ∈ (["./d", "d//...", "d/a.hamlbars"] : List Bytes),
      Bytes.endsWith (root x.trim) sourceExt = true → Path.clean (root x.trim) = root x.trim := by
    decide +kernel
  refine ⟨_, rfl, ht, hok, (nodup_clean_collect_iff ht hok).2.2.2 fun x hx _ hfound => ?_⟩
  exact hclean x hx (Bytes.endsWith_iff.2 ((isFoundBy_iff ht).1 hfound).source)

/-- Two paths of one file, which is then printed twice. -/
theorem collect_two_spellings :
    ∃ fs : FileSystem, fs = ⟨.dir [("a.hamlbars", .file "%p b")], [], []⟩ ∧
      collect fs ["a.hamlbars", "./a.hamlbars"] = .ok ["./a.hamlbars", "a.hamlbars"] ∧
      Path.clean "./a.hamlbars" = Path.clean "a.hamlbars" ∧
      (Command.run fs ["-stdout", "a.hamlbars", "./a.hamlbars"] []).stdout =
        "<p>b</p>\n<p>b</p>\n" := by
  refine ⟨_, rfl, ?_, ?_, ?_⟩
  · exact toOption_eq_some_iff.1 (by decide +kernel)
  · decide +kernel
  · decide +kernel

end Sources

end IndentMarkup
