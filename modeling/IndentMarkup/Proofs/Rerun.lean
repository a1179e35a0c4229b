import IndentMarkup.Proofs.Command
import IndentMarkup.Proofs.Location
import IndentMarkup.Proofs.Search

/-!
# A second run

A run that follows another one with the same arguments starts with the templates of the first run,
and does the same again if there are no links (`Command.run_idempotent`). Three things are behind
this:

* What is found is the same, as patterns find sources, and those stay as they are
  (`Sources.collect_of_sameSources`).
* Steps for the same source among files with the same sources say the same (`Command.step_agree`).
  The reports of errors do not depend on other files, and a template that cannot be written is one
  in the place of a directory or at a location that is locked.
* The templates that are written are there already, so that the files stay the same
  (`Command.compileFiles_files_eq`).

A link breaks the second of them: a run may overwrite one of its own sources through the link, and
compile it the next time (`Command.run_again_through_link`). It is not enough that no link has the
name of a source or of a template, as it is for `Command.run_frame`, because a path that goes up
from the target of a link is not the same path when it is clean.
-/

namespace IndentMarkup

/-! ## The same sources -/

namespace Sources

variable {fs fs' : FileSystem} {pattern p : Bytes} {patterns ps : List Bytes}

theorem Finds.of_sameSources (h : fs.SameSources fs') (ht : fs.tree.IsPlain)
    (hp : Finds fs pattern p) : Finds fs' pattern p := by
  obtain ⟨hsource, d, loc, c, hd, hreach, hc, rfl⟩ := hp
  refine ⟨hsource, d, loc, c, h.locate_iff.2 hd, hreach, ?_, rfl⟩
  rw [h.entryAt?_eq ht.linksAside hsource (FileSystem.locate_under ht hd hc), hc]

theorem ofPattern_ok_of_sameSources (h : fs.SameSources fs') (ht : fs.tree.IsPlain)
    (ht' : fs'.tree.IsPlain)
    (hkept : ∀ loc, fs.tree.entryAt? loc ≠ none → fs'.tree.entryAt? loc ≠ none)
    (hp : ∃ ps, ofPattern fs pattern = .ok ps) : ∃ ps, ofPattern fs' pattern = .ok ps := by
  obtain ⟨d, e, hd, he, hpattern⟩ := (ofPattern_ok_iff ht).1 hp
  obtain ⟨e', he'⟩ := Option.ne_none_iff_exists'.1 (hkept d (by simp [he]))
  refine (ofPattern_ok_iff ht').2 ⟨d, e', h.locate_iff.2 hd, he', ?_⟩
  refine hpattern.imp_right (Or.imp_left ?_)
  rintro rfl
  exact Option.some.inj (he'.symm.trans ((h.ways.dirs d).1 he))

/-- The same paths are found among files with the same sources. -/
theorem collect_of_sameSources (h : fs.SameSources fs') (ht : fs.tree.IsPlain)
    (ht' : fs'.tree.IsPlain)
    (hkept : ∀ loc, fs.tree.entryAt? loc ≠ none → fs'.tree.entryAt? loc ≠ none)
    (hps : collect fs patterns = .ok ps) : collect fs' patterns = .ok ps := by
  rw [collect_eq_ok_iff ht] at hps
  obtain ⟨hok, hsorted, hmem⟩ := hps
  refine (collect_eq_ok_iff ht').2 ⟨fun x hx hne => ?_, hsorted, fun p => (hmem p).trans ?_⟩
  · exact ofPattern_ok_of_sameSources h ht ht' hkept (hok x hx hne)
  · refine exists_congr fun x => and_congr_right fun _ => and_congr_right fun _ => ?_
    exact ⟨.of_sameSources h ht, .of_sameSources h.symm ht'⟩

end Sources

namespace Command

variable {flags : Flags} {fs fs' : FileSystem} {s s' : State} {p c : Bytes} {ps : List Bytes}

theorem Leaves.entryAt?_ne_none (h : Leaves flags fs fs' ps) {loc : Location}
    (hloc : fs.tree.entryAt? loc ≠ none) : fs'.tree.entryAt? loc ≠ none := by
  by_cases hw : ∃ p ∈ ps, ∃ out, Writes flags fs p loc out
  · obtain ⟨p, hp, out, hw⟩ := hw
    simp [h.written p hp loc out hw]
  · rwa [h.kept loc fun p hp out hw' => hw ⟨p, hp, out, hw'⟩]

/-! ## Steps among files with the same sources -/

/-- What has been said so far is the same, and the files have the same sources. -/
structure State.Agree (s s' : State) : Prop where
  stdout_eq : s'.stdout = s.stdout
  stderr_eq : s'.stderr = s.stderr
  files : s.files.SameSources s'.files

namespace State.Agree

theorem log (h : s.Agree s') (flags : Flags) (line : Bytes) :
    (s.log flags line).Agree (s'.log flags line) := by
  rw [State.log, State.log]
  split
  · exact ⟨h.stdout_eq, by rw [h.stderr_eq], h.files⟩
  · exact h

theorem print (h : s.Agree s') (t : Bytes) : (s.print t).Agree (s'.print t) :=
  ⟨congrArg (· ++ t) h.stdout_eq, h.stderr_eq, h.files⟩

theorem report_none (h : s.Agree s') (message : Bytes) :
    (s.report message none).Agree (s'.report message none) := by
  refine ⟨h.stdout_eq, ?_, h.files⟩
  rw [State.report, State.report, h.stderr_eq]

/-- An error is reported in the same words if it is explained without a look at any file. -/
theorem report (h : s.Agree s') (message : Bytes) {d : Option Diagnostic}
    (hd : ∀ x, d = some x → ∀ load load', x.explain load = x.explain load') :
    (s.report message d).Agree (s'.report message d) := by
  cases d with
  | none => exact h.report_none message
  | some d =>
    refine ⟨h.stdout_eq, ?_, h.files⟩
    rw [State.report, State.report, h.stderr_eq, hd d rfl s'.files.load s.files.load]

protected theorem eq (h : s.Agree s') (hfiles : s'.files = s.files) : s' = s := by
  cases s
  cases s'
  cases h.stdout_eq
  cases h.stderr_eq
  cases hfiles
  rfl

end State.Agree

theorem sameSources_step (flags : Flags) (s : State) (haside : s.files.tree.LinksAside)
    (hp : IsSource p) : s.files.SameSources (step flags s p).files := by
  cases hflag : flags.toStdout with
  | true =>
    rw [(step_toStdout hflag s p).1]
    exact .refl s.files
  | false =>
    exact (step_toFile hflag s haside hp).1.sameSources haside (by simpa using hp)

theorem write_error_iff (h : fs.SameSources fs') (haside : fs.tree.LinksAside) (hp : IsSource p)
    {src : Bytes} (hread : fs.read p = .ok src) {e : PathError} :
    fs'.write (templatePath p) c = .error e ↔ fs.write (templatePath p) c = .error e := by
  obtain ⟨l, hl, -⟩ := FileSystem.read_eq_ok_iff.1 hread
  obtain ⟨loc, hloc⟩ := exists_locate_templatePath haside hp hl
  rw [FileSystem.write_eq_error_iff hloc, FileSystem.write_eq_error_iff (h.locate_iff.2 hloc),
    h.locked_eq, ne_eq, ne_eq, h.ways.dirs loc]

/-- Steps for the same source say the same and succeed or fail alike. -/
theorem step_agree (flags : Flags) (h : s.Agree s') (haside : s.files.tree.LinksAside)
    (hp : IsSource p) (hread : s.files.read p = .ok c) :
    (step flags s p).Agree (step flags s' p) ∧
      (compileFile flags s' p).2.isNone = (compileFile flags s p).2.isNone := by
  have haside' := haside.of_sameWays h.files.ways
  have hfind := FileSystem.read_iff_find.1 hread
  have hfind' := FileSystem.read_iff_find.1 ((h.files.read_iff haside hp).2 hread)
  have hfiles : (step flags s p).files.SameSources (step flags s' p).files :=
    (sameSources_step flags s haside hp).symm.trans
      (h.files.trans (sameSources_step flags s' haside' hp))
  suffices hsaid : (step flags s' p).stdout = (step flags s p).stdout ∧
      (step flags s' p).stderr = (step flags s p).stderr ∧
      (compileFile flags s' p).2.isNone = (compileFile flags s p).2.isNone from
    ⟨⟨hsaid.1, hsaid.2.1, hfiles⟩, hsaid.2.2⟩
  have hlog := h.log flags
    (p ++ " -> " ++ (if flags.toStdout then "stdout" else templatePath p : Bytes))
  simp only [step, compileFile, hfind, hfind', input]
  cases hc : compile ⟨p, flags.target⟩ c with
  | error e =>
    simp only [transpile_of_error hc]
    have hreport := hlog.report (TranspileError.compile e).message fun d hd =>
      CompileError.explain_congr hc hd
    exact ⟨hreport.stdout_eq, hreport.stderr_eq, trivial⟩
  | ok out =>
    simp only [transpile_of_ok hc, State.files_log]
    by_cases hflag : flags.toStdout = true
    · simp only [if_pos hflag] at hlog ⊢
      have hprint := hlog.print (out ++ [Byte.lf])
      exact ⟨hprint.stdout_eq, hprint.stderr_eq, trivial⟩
    · simp only [if_neg hflag] at hlog ⊢
      cases hw : s.files.write (templatePath p) (out ++ [Byte.lf]) with
      | error e =>
        simp only [(write_error_iff h.files haside hp hread).2 hw]
        have hreport := hlog.report_none (FileError.unwritable (templatePath p) e).message
        exact ⟨hreport.stdout_eq, hreport.stderr_eq, trivial⟩
      | ok files =>
        obtain ⟨files', hw'⟩ : ∃ files', s'.files.write (templatePath p) (out ++ [Byte.lf]) =
            .ok files' := by
          rw [exists_ok_iff]
          rintro ⟨e, he⟩
          cases hw.symm.trans ((write_error_iff h.files haside hp hread).1 he)
        simp only [hw']
        exact ⟨hlog.stdout_eq, hlog.stderr_eq, trivial⟩

theorem compileFiles_agree (flags : Flags) (h : s.Agree s') (haside : s.files.tree.LinksAside)
    (hps : ∀ p ∈ ps, IsSource p ∧ ∃ c, s.files.read p = .ok c) :
    (compileFiles flags s ps).1.Agree (compileFiles flags s' ps).1 ∧
      (compileFiles flags s' ps).2 = (compileFiles flags s ps).2 := by
  induction ps generalizing s s' with
  | nil => exact ⟨h, rfl⟩
  | cons p ps ih =>
    obtain ⟨⟨hp, c, hread⟩, hps⟩ := List.forall_mem_cons.1 hps
    obtain ⟨hstep, hnone⟩ := step_agree flags h haside hp hread
    have hsame := sameSources_step flags s haside hp
    -- The other sources are still there after the step.
    have hnext : ∀ q ∈ ps, IsSource q ∧ ∃ c, (step flags s p).files.read q = .ok c := by
      intro q hq
      obtain ⟨hsource, c, hc⟩ := hps q hq
      exact ⟨hsource, c, (hsame.read_iff haside hsource).2 hc⟩
    obtain ⟨hagree, hall⟩ := ih hstep (haside.of_sameWays hsame.ways) hnext
    rw [compileFiles_cons, compileFiles_cons]
    exact ⟨hagree, by rw [hnone, hall]⟩

/-! ## Templates that are there already -/

theorem step_files_eq (h : ∀ loc out, Writes flags s.files p loc out →
    s.files.tree.entryAt? loc = some (.file (out ++ [Byte.lf]))) :
    (step flags s p).files = s.files := by
  rcases step_files flags s p with hstep | ⟨out, ht, hstep⟩
  · exact hstep
  · obtain ⟨loc, hloc, hadmits, hput⟩ := FileSystem.write_eq_ok_iff.1 hstep
    have hentry := FileTree.entryAt?_eq_file_iff.1 (h loc out ⟨ht, hloc, hadmits⟩)
    rw [hput, FileTree.put_eq_self hentry]

theorem compileFiles_files_eq (h : ∀ p ∈ ps, ∀ loc out, Writes flags s.files p loc out →
    s.files.tree.entryAt? loc = some (.file (out ++ [Byte.lf]))) :
    (compileFiles flags s ps).1.files = s.files := by
  induction ps generalizing s with
  | nil => rfl
  | cons p ps ih =>
    obtain ⟨hp, hps⟩ := List.forall_mem_cons.1 h
    have hstep := step_files_eq hp
    rw [compileFiles_cons]
    exact (ih (by rwa [hstep])).trans hstep

/-! ## Runs -/

/-- Sources that are compiled again, from the same start but among the files that they left, do the
    same. -/
theorem compileFiles_again {out err : Bytes} (hflag : flags.toStdout = false)
    (haside : fs.tree.LinksAside) (hps : ∀ p ∈ ps, IsSource p ∧ ∃ c, fs.read p = .ok c)
    (hfs : (compileFiles flags ⟨out, err, fs⟩ ps).1.files = fs') :
    compileFiles flags ⟨out, err, fs'⟩ ps = compileFiles flags ⟨out, err, fs⟩ ps := by
  have hsource : ∀ p ∈ ps, IsSource p := fun p hp => (hps p hp).1
  obtain ⟨hleaves, -, -⟩ := compileFiles_toFile hflag ⟨out, err, fs⟩ haside hsource
  rw [hfs] at hleaves
  have hagree : State.Agree ⟨out, err, fs⟩ ⟨out, err, fs'⟩ :=
    ⟨rfl, rfl, hleaves.sameSources haside hsource⟩
  obtain ⟨hstate, hall⟩ := compileFiles_agree flags hagree haside hps
  have hfiles : (compileFiles flags ⟨out, err, fs'⟩ ps).1.files = fs' :=
    compileFiles_files_eq fun p hp loc out hw =>
      hleaves.written p hp loc out ((hleaves.writes_iff haside hsource (hsource p hp)).1 hw)
  exact Prod.ext (hstate.eq (hfiles.trans hfs.symm)) hall

theorem files_compileInput (flags : Flags) (s : State) (stdin : Bytes) :
    (compileInput flags s stdin).1.files = s.files := by
  rw [compileInput]
  split <;> rfl

/-- Sources that are compiled keep a tree plain. -/
theorem isPlain_compileFiles (flags : Flags) (ht : s.files.tree.IsPlain)
    (hps : ∀ p ∈ ps, IsSource p) : (compileFiles flags s ps).1.files.tree.IsPlain := by
  induction ps generalizing s with
  | nil => exact ht
  | cons p ps ih =>
    obtain ⟨hp, hps⟩ := List.forall_mem_cons.1 hps
    rw [compileFiles_cons]
    refine ih ⟨?_, fun loc => ?_⟩ hps
    · rcases step_files flags s p with h | ⟨out, -, h⟩
      · rw [h]
        exact ht.wellNamed
      · exact FileSystem.isWellNamed_write ht h
    · exact ((sameSources_step flags s ht.linksAside hp).ways.links loc).trans (ht.linkFree loc)

/-- A second run with the same arguments and the same input does what the first one did, if there
    are no links: it exits with the same code, says the same, and leaves the files as the first one
    left them. -/
theorem run_idempotent (ht : fs.tree.IsPlain) (args : List Bytes) (stdin : Bytes) :
    run (run fs args stdin).files args stdin = run fs args stdin := by
  -- There is nothing to show unless the first run has written a file.
  have hsame : (run fs args stdin).files = fs →
      run (run fs args stdin).files args stdin = run fs args stdin := fun h => by rw [h]
  cases hargs : Flags.parse args with
  | help => exact hsame (by rw [run, hargs])
  | invalid e => exact hsame (by rw [run, hargs])
  | compile flags patterns =>
    by_cases hne : patterns = []
    · subst hne
      refine hsame ?_
      rw [run, hargs]
      exact files_compileInput flags _ stdin
    cases hps : Sources.collect fs patterns with
    | error e =>
      obtain ⟨s, hfiles, -, hrun⟩ := run_of_collect_error hargs hne stdin hps
      exact hsame (by rw [hrun]; exact hfiles)
    | ok ps =>
      cases hflag : flags.toStdout with
      | true => exact hsame (run_toStdout hargs hne stdin hflag hps).2.1
      | false =>
        obtain ⟨-, hleaves, -⟩ := run_toFile hargs hne stdin hflag ht.linksAside hps
        have hsource := Sources.isSource_of_collect hps
        obtain ⟨messages, hrun⟩ := exists_run_eq hargs hne stdin ps
        have hfiles :
            (compileFiles flags ⟨[], messages, fs⟩ ps).1.files = (run fs args stdin).files := by
          rw [hrun fs hps]
          rfl
        have hplain : (run fs args stdin).files.tree.IsPlain := by
          rw [← hfiles]
          exact isPlain_compileFiles flags ht hsource
        have hread : ∀ p ∈ ps, IsSource p ∧ ∃ c, fs.read p = .ok c :=
          fun p hp => ⟨hsource p hp, Sources.read_of_collect ht hps p hp⟩
        have hagain : Sources.collect (run fs args stdin).files patterns = .ok ps :=
          Sources.collect_of_sameSources (hleaves.sameSources ht.linksAside hsource) ht hplain
            (fun _ => hleaves.entryAt?_ne_none) hps
        rw [hrun _ hagain, compileFiles_again hflag ht.linksAside hread hfiles, ← hrun fs hps]

/-- A source with an error, one that has no template yet, one whose template is in the place of a
    directory, one whose template cannot be written, and second paths to some of them, from above
    the working directory and from the root. -/
theorem run_idempotent_mixed :
    ∃ fs : FileSystem, fs = ⟨.dir [("w", .dir [("a.hamlbars", .file "%p="),
          ("d", .dir [("b.hamlbars", .file "%p c"), ("e.hamlbars", .file "f"), ("e.hbs", .dir []),
            ("g.hamlbars", .file "h")])])], ["w"], [["w", "d", "g.hbs"]]⟩ ∧
      fs.tree.IsPlain ∧
      ∃ o, o = run fs ["-v", "./...", "../w/a.hamlbars", "/w/d"] [] ∧ o.code = 1 ∧
        o.files.read "d/b.hbs" = .ok "<p>c</p>\n" ∧
        run o.files ["-v", "./...", "../w/a.hamlbars", "/w/d"] [] = o := by
  have hplain : FileTree.IsPlain (.dir [("w", .dir [("a.hamlbars", .file "%p="),
      ("d", .dir [("b.hamlbars", .file "%p c"), ("e.hamlbars", .file "f"), ("e.hbs", .dir []),
        ("g.hamlbars", .file "h")])])]) :=
    ⟨by decide +kernel, FileTree.linkFree_of_links (by decide +kernel)⟩
  refine ⟨_, rfl, hplain, _, rfl, ?_, ?_, ?_⟩
  · decide +kernel
  · exact toOption_eq_some_iff.1 (by decide +kernel)
  · exact run_idempotent hplain _ _

/-- Through a link with the name of a template, the first run overwrites a source that fails, and
    the second run compiles it. -/
theorem run_again_through_link :
    ∃ (fs : FileSystem) (o : Outcome), fs = ⟨.dir [("b.hamlbars", .file "%p="),
        ("z.hamlbars", .file "ok"), ("z.hbs", .link "b.hamlbars")], [], []⟩ ∧
      o = run fs ["."] [] ∧ o.code = 1 ∧ o.files.read "b.hamlbars" = .ok "ok\n" ∧
      (run o.files ["."] []).code = 0 := by
  refine ⟨_, _, rfl, rfl, ?_, ?_, ?_⟩
  · decide +kernel
  · exact toOption_eq_some_iff.1 (by decide +kernel)
  · decide +kernel

-- A link is enough even if no source and no template is one. The path `l/../a.hbs` is that of a
-- directory, but what is found in it has a path that starts with `a.hbs`, where the first run finds
-- nothing and the second one the template of the first.
example : ∃ (fs : FileSystem) (args : List Bytes) (o : Outcome), fs = ⟨.dir [
        ("w", .dir [("a.hamlbars", .file "b"), ("d", .dir []), ("l", .link "/u/v")]),
        ("u", .dir [("a.hbs", .dir [("c.hamlbars", .file "e")]), ("v", .dir [])])], ["w"], []⟩ ∧
      fs.tree.LinksAside ∧ args = ["l/../a.hbs", "d/../a.hamlbars"] ∧ o = run fs args [] ∧
      o.stderr = "open a.hbs/c.hamlbars: no such file or directory\n" ∧
      (run o.files args []).stderr = "open a.hbs/c.hamlbars: not a directory\n" := by
  refine ⟨_, _, _, rfl, FileTree.linksAside_of_links (by decide +kernel), rfl, rfl, ?_, ?_⟩
  · decide +kernel
  · decide +kernel

end Command

end IndentMarkup
