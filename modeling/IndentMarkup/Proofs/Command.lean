import IndentMarkup.Command.Run
import IndentMarkup.Proofs.Options
import IndentMarkup.Proofs.Sources

/-!
# What the command leaves behind

The command compiles one file after the other, among the files that have the templates of the
sources before with them. Still, all that it does is said by the files that it starts with. A path
to a source and the path to its template lead to the same directory, where the template has another
extension. So a template never takes the place of a source, and two paths with a template at the
same location are paths to the same source, for which the template is the same
(`Command.template?_congr`).

This needs that no link has the name of a source or of a template: through a link with the name of a
template the command overwrites whatever the link leads to (`Command.run_overwrites_source`).

One step writes the template of one file or leaves the files as they are (`Command.step_toFile`).
Steps compose (`Command.Leaves.trans`), as a step changes neither what there is to compile for the
next ones nor where it is written, and a whole run is a composition of steps
(`Command.compileFiles_toFile`).
-/

namespace IndentMarkup.Command

variable {flags : Flags} {fs fs' fs'' : FileSystem} {s : State} {p q out : Bytes}
  {ps qs : List Bytes} {loc : Location}

/-! ## Locations of templates -/

theorem locate_source_iff (haside : fs.tree.LinksAside) {a : Bytes} :
    fs.locate (a ++ sourceExt) = .ok loc ↔
      ∃ d, fs.HasFolder a d ∧ loc = d ++ [Path.base a ++ sourceExt] :=
  FileSystem.locate_append_eq_ok_iff isExt_sourceExt fun d => haside d _ (.inl ⟨_, rfl⟩)

theorem locate_templatePath_iff (haside : fs.tree.LinksAside) {a : Bytes} :
    fs.locate (templatePath (a ++ sourceExt)) = .ok loc ↔
      ∃ d, fs.HasFolder a d ∧ loc = d ++ [Path.base a ++ templateExt] := by
  rw [templatePath_append]
  exact FileSystem.locate_append_eq_ok_iff isExt_templateExt fun d => haside d _ (.inr ⟨_, rfl⟩)

/-- A template has a place whenever its source has one. -/
theorem exists_locate_templatePath (haside : fs.tree.LinksAside) (hp : IsSource p)
    (h : fs.locate p = .ok loc) : ∃ l, fs.locate (templatePath p) = .ok l := by
  obtain ⟨a, rfl⟩ := hp
  obtain ⟨d, hd, -⟩ := (locate_source_iff haside).1 h
  exact ⟨_, (locate_templatePath_iff haside).2 ⟨d, hd, rfl⟩⟩

/-- Paths to the same template are paths to the same source. -/
theorem locate_eq_of_templatePath (haside : fs.tree.LinksAside) (hp : IsSource p)
    (hq : IsSource q) (hlp : fs.locate (templatePath p) = .ok loc)
    (hlq : fs.locate (templatePath q) = .ok loc) :
    ∃ l, fs.locate p = .ok l ∧ fs.locate q = .ok l := by
  obtain ⟨a, rfl⟩ := hp
  obtain ⟨b, rfl⟩ := hq
  obtain ⟨d, hd, rfl⟩ := (locate_templatePath_iff haside).1 hlp
  obtain ⟨d', hd', heq⟩ := (locate_templatePath_iff haside).1 hlq
  obtain ⟨rfl, hname⟩ := List.append_inj' heq rfl
  have hbase : Path.base a = Path.base b := List.append_cancel_right (List.singleton_inj.1 hname)
  refine ⟨d ++ [Path.base a ++ sourceExt], ?_, ?_⟩
  · exact (locate_source_iff haside).2 ⟨d, hd, rfl⟩
  · exact (locate_source_iff haside).2 ⟨d, hd', by rw [hbase]⟩

/-- A template is at a location with the name of a template. -/
theorem exists_isTemplate_of_templatePath (haside : fs.tree.LinksAside) (hp : IsSource p)
    (h : fs.locate (templatePath p) = .ok loc) : ∃ d n, loc = d ++ [n] ∧ IsTemplate n := by
  obtain ⟨a, rfl⟩ := hp
  obtain ⟨d, -, rfl⟩ := (locate_templatePath_iff haside).1 h
  exact ⟨d, _, rfl, _, rfl⟩

/-- No name is that of a template and of a source. -/
theorem not_isSource_of_isTemplate {n : Bytes} (h : IsTemplate n) : ¬IsSource n := by
  obtain ⟨a, rfl⟩ := h
  rintro ⟨s, hs⟩
  -- The two extensions do not end with the same four bytes.
  have hdrop := congrArg (fun t : Bytes => t.reverse.take 4) hs
  simp only [List.reverse_append] at hdrop
  rw [List.take_append_of_le_length (by decide +kernel),
    List.take_append_of_le_length (by decide +kernel)] at hdrop
  revert hdrop
  decide +kernel

/-! ## Templates -/

/-- The template that the source with the given path is compiled to. -/
def template? (flags : Flags) (fs : FileSystem) (path : Bytes) : Option Bytes := do
  let src ← (fs.read path).toOption
  (compile ⟨path, flags.target⟩ src).toOption

theorem template?_eq_some_iff_read : template? flags fs p = some out ↔
    ∃ src, fs.read p = .ok src ∧ compile ⟨p, flags.target⟩ src = .ok out := by
  rw [template?, Option.bind_eq_bind, Option.bind_eq_some_iff]
  simp only [toOption_eq_some_iff]

/-- What the template of a path depends on: the file at one location, if it leads to one. -/
theorem template?_eq_some_iff :
    template? flags fs p = some out ↔ ∃ loc src, fs.locate p = .ok loc ∧
      fs.tree.entryAt? loc = some (.file src) ∧ compile ⟨p, flags.target⟩ src = .ok out := by
  rw [template?_eq_some_iff_read]
  simp only [FileSystem.read_eq_ok_iff]
  constructor
  · rintro ⟨src, ⟨loc, hloc, hsrc⟩, hout⟩
    exact ⟨loc, src, hloc, hsrc, hout⟩
  · rintro ⟨loc, src, hloc, hsrc, hout⟩
    exact ⟨src, ⟨loc, hloc, hsrc⟩, hout⟩

/-- Paths with their templates at the same location have the same template. -/
theorem template?_congr (flags : Flags) (haside : fs.tree.LinksAside) (hp : IsSource p)
    (hq : IsSource q) (hlp : fs.locate (templatePath p) = .ok loc)
    (hlq : fs.locate (templatePath q) = .ok loc) :
    template? flags fs p = template? flags fs q := by
  obtain ⟨l, hl, hl'⟩ := locate_eq_of_templatePath haside hp hq hlp hlq
  have hread : (fs.read p).toOption = (fs.read q).toOption := by
    ext c
    rw [toOption_eq_some_iff, toOption_eq_some_iff, FileSystem.read_eq_ok_iff,
      FileSystem.read_eq_ok_iff, hl, hl']
  -- The file is compiled under another name, which is seen in errors alone.
  rw [template?, template?, hread]
  exact congrArg _ (funext fun src => compile_toOption_inFile p q flags.target src)

/-! ## Templates among the files -/

/-- The source with the given path has a template, which is to be written at a location where that
    is possible. -/
structure Writes (flags : Flags) (fs : FileSystem) (path : Bytes) (loc : Location) (out : Bytes) :
    Prop where
  template : template? flags fs path = some out
  located : fs.locate (templatePath path) = .ok loc
  admitted : fs.Admits loc

/-- All paths with their templates at the same location write the same. -/
theorem Writes.congr (haside : fs.tree.LinksAside) (hp : IsSource p) (hq : IsSource q)
    (h : Writes flags fs p loc out) (hl : fs.locate (templatePath q) = .ok loc) :
    Writes flags fs q loc out :=
  ⟨(template?_congr flags haside hq hp hl h.located).trans h.template, hl, h.admitted⟩

theorem exists_writes_iff (haside : fs.tree.LinksAside) (hp : IsSource p) :
    (∃ loc out, Writes flags fs p loc out) ↔ (∃ out, template? flags fs p = some out) ∧
      ¬fs.HasDir (templatePath p) ∧ ¬fs.IsLocked (templatePath p) := by
  rw [FileSystem.hasDir_iff, FileSystem.IsLocked]
  constructor
  · rintro ⟨loc, out, h⟩
    refine ⟨⟨out, h.template⟩, ?_, ?_⟩
    · rintro ⟨l, hl, hdir⟩
      cases h.located.symm.trans hl
      exact h.admitted.free hdir
    · rintro ⟨l, hl, hlocked⟩
      cases h.located.symm.trans hl
      exact h.admitted.unlocked hlocked
  · rintro ⟨⟨out, hout⟩, hdir, hlocked⟩
    obtain ⟨l, -, hl, -⟩ := template?_eq_some_iff.1 hout
    obtain ⟨loc, hloc⟩ := exists_locate_templatePath haside hp hl
    exact ⟨loc, out, hout, hloc, fun h => hdir ⟨loc, hloc, h⟩, fun h => hlocked ⟨loc, hloc, h⟩⟩

/-- The files `fs'` are left by the files `fs` and the sources with the given paths: they are the
    templates of the sources, and otherwise the entries of `fs`. -/
structure Leaves (flags : Flags) (fs fs' : FileSystem) (ps : List Bytes) : Prop where
  cwd_eq : fs'.cwd = fs.cwd
  locked_eq : fs'.locked = fs.locked
  written : ∀ p ∈ ps, ∀ loc out, Writes flags fs p loc out →
    fs'.tree.entryAt? loc = some (.file (out ++ [Byte.lf]))
  kept : ∀ loc, (∀ p ∈ ps, ∀ out, ¬Writes flags fs p loc out) →
    fs'.tree.entryAt? loc = fs.tree.entryAt? loc

namespace Leaves

theorem of_not_writes (h : ∀ p ∈ ps, ¬∃ loc out, Writes flags fs p loc out) :
    Leaves flags fs fs ps where
  cwd_eq := rfl
  locked_eq := rfl
  written := fun p hp loc out hw => absurd ⟨loc, out, hw⟩ (h p hp)
  kept := fun _ _ => rfl

theorem of_write (haside : fs.tree.LinksAside) (hp : IsSource p)
    (ht : template? flags fs p = some out)
    (hw : fs.write (templatePath p) (out ++ [Byte.lf]) = .ok fs') : Leaves flags fs fs' [p] := by
  obtain ⟨l, hl, hadmits, rfl⟩ := FileSystem.write_eq_ok_iff.1 hw
  obtain ⟨a, rfl⟩ := hp
  -- The directory that the template goes to is there, as the path was followed to it.
  obtain ⟨d, hd, rfl⟩ := (locate_templatePath_iff haside).1 hl
  have hentry := FileTree.entryAt?_put hd.2 hadmits.free (out ++ [Byte.lf])
  refine ⟨rfl, rfl, ?_, ?_⟩
  · intro q hq loc out' hw
    cases List.mem_singleton.1 hq
    cases hl.symm.trans hw.located
    cases ht.symm.trans hw.template
    rw [hentry, if_pos rfl]
  · intro loc hloc
    have hne : loc ≠ d ++ [Path.base a ++ templateExt] := by
      rintro rfl
      exact hloc _ List.mem_cons_self out ⟨ht, hl, hadmits⟩
    rw [hentry, if_neg hne]

section

variable (haside : fs.tree.LinksAside) (hps : ∀ p ∈ ps, IsSource p)

include haside hps

theorem sameWays (h : Leaves flags fs fs' ps) : fs.tree.SameWays fs'.tree := by
  constructor
  · intro loc
    by_cases hw : ∃ p ∈ ps, ∃ out, Writes flags fs p loc out
    · obtain ⟨p, hp, out, hw⟩ := hw
      rw [h.written p hp loc out hw]
      exact ⟨fun hdir => absurd hdir hw.admitted.free, fun hdir => nomatch hdir⟩
    · rw [h.kept loc fun p hp out hw' => hw ⟨p, hp, out, hw'⟩]
  · intro loc
    by_cases hw : ∃ p ∈ ps, ∃ out, Writes flags fs p loc out
    · -- Where a template is written there was no link, by its name, and there is none now.
      obtain ⟨p, hp, out, hw⟩ := hw
      obtain ⟨d, n, rfl, hn⟩ := exists_isTemplate_of_templatePath haside (hps p hp) hw.located
      rw [haside d n (.inr hn), FileTree.linkAt?,
        FileTree.entryAt?_eq_file_iff.1 (h.written p hp _ out hw)]
    · exact FileTree.linkAt?_congr (h.kept loc fun p hp out hw' => hw ⟨p, hp, out, hw'⟩)

/-- Sources stay as they are. -/
theorem entryAt?_source (h : Leaves flags fs fs' ps) (d : Location) {n : Bytes}
    (hn : IsSource n) : fs'.tree.entryAt? (d ++ [n]) = fs.tree.entryAt? (d ++ [n]) := by
  refine h.kept _ fun p hp _ hw => ?_
  obtain ⟨d', n', heq, hn'⟩ := exists_isTemplate_of_templatePath haside (hps p hp) hw.located
  obtain ⟨-, hname⟩ := List.append_inj' heq rfl
  exact not_isSource_of_isTemplate hn' (List.singleton_inj.1 hname ▸ hn)

theorem sameSources (h : Leaves flags fs fs' ps) : fs.SameSources fs' :=
  ⟨h.cwd_eq, h.locked_eq, h.sameWays haside hps, fun d _ hn => h.entryAt?_source haside hps d hn⟩

theorem linksAside (h : Leaves flags fs fs' ps) : fs'.tree.LinksAside :=
  haside.of_sameWays (h.sameWays haside hps)

theorem template?_eq (h : Leaves flags fs fs' ps) (hq : IsSource q) :
    template? flags fs' q = template? flags fs q := by
  have hread : (fs'.read q).toOption = (fs.read q).toOption := by
    ext c
    rw [toOption_eq_some_iff, toOption_eq_some_iff,
      (h.sameSources haside hps).read_iff haside hq]
  rw [template?, template?, hread]

/-- What is left to do is the same among both files. -/
theorem writes_iff (h : Leaves flags fs fs' ps) (hq : IsSource q) :
    Writes flags fs' q loc out ↔ Writes flags fs q loc out := by
  have hsame := h.sameSources haside hps
  have hadmits : fs'.Admits loc ↔ fs.Admits loc := by
    rw [FileSystem.admits_iff, FileSystem.admits_iff, h.locked_eq, ne_eq, ne_eq,
      hsame.ways.dirs loc]
  constructor
  · rintro ⟨ht, hl, hfree⟩
    exact ⟨h.template?_eq haside hps hq ▸ ht, hsame.locate_iff.1 hl, hadmits.1 hfree⟩
  · rintro ⟨ht, hl, hfree⟩
    exact ⟨h.template?_eq haside hps hq ▸ ht, hsame.locate_iff.2 hl, hadmits.2 hfree⟩

theorem trans (h : Leaves flags fs fs' ps) (h' : Leaves flags fs' fs'' qs)
    (hqs : ∀ q ∈ qs, IsSource q) : Leaves flags fs fs'' (ps ++ qs) := by
  have hiff : ∀ {q loc out}, q ∈ qs → (Writes flags fs' q loc out ↔ Writes flags fs q loc out) :=
    fun hq => h.writes_iff haside hps (hqs _ hq)
  refine ⟨h'.cwd_eq.trans h.cwd_eq, h'.locked_eq.trans h.locked_eq, ?_, ?_⟩
  · intro p hp loc out hw
    by_cases hlater : ∃ q ∈ qs, ∃ out, Writes flags fs' q loc out
    · -- The same template is written again, from another path to the same source.
      obtain ⟨q, hq, out', hw'⟩ := hlater
      have hsource : IsSource p := (List.mem_append.1 hp).elim (hps p) (hqs p)
      have hagain := hw.congr haside hsource (hqs q hq) ((hiff hq).1 hw').located
      exact h'.written q hq loc out ((hiff hq).2 hagain)
    · rw [h'.kept loc fun q hq out hw' => hlater ⟨q, hq, out, hw'⟩]
      rcases List.mem_append.1 hp with hp | hp
      · exact h.written p hp loc out hw
      · exact absurd ⟨p, hp, out, (hiff hp).2 hw⟩ hlater
  · intro loc hloc
    rw [h'.kept loc, h.kept loc]
    · intro p hp
      exact hloc p (List.mem_append_left qs hp)
    · intro q hq out hw
      exact hloc q (List.mem_append_right ps hq) out ((hiff hq).1 hw)

end

end Leaves

/-! ## Steps -/

@[simp] theorem State.files_log (s : State) (flags : Flags) (line : Bytes) :
    (s.log flags line).files = s.files := by
  rw [State.log]
  split <;> rfl

@[simp] theorem State.stdout_log (s : State) (flags : Flags) (line : Bytes) :
    (s.log flags line).stdout = s.stdout := by
  rw [State.log]
  split <;> rfl

theorem transpile_eq (path target src : Bytes) :
    transpile path (.ok src) none ⟨[], target⟩ =
      (compile ⟨path, target⟩ src).mapError .compile := by
  have hopts : (if path.isEmpty then ⟨[], target⟩ else ⟨path, target⟩ : Options) =
      ⟨path, target⟩ := by
    cases path <;> rfl
  rw [transpile, hopts]
  exact bind_pure ((compile ⟨path, target⟩ src).mapError TranspileError.compile)

theorem transpile_of_error {path target src : Bytes} {e : CompileError}
    (h : compile ⟨path, target⟩ src = .error e) :
    transpile path (.ok src) none ⟨[], target⟩ = .error (.compile e) := by
  rw [transpile_eq, h]
  rfl

theorem transpile_of_ok {path target src : Bytes} (h : compile ⟨path, target⟩ src = .ok out) :
    transpile path (.ok src) none ⟨[], target⟩ = .ok out := by
  rw [transpile_eq, h]
  rfl

theorem transpile_of_read_error {path target reason : Bytes} :
    ∃ e, transpile path (.error reason) none ⟨[], target⟩ = .error e := ⟨_, rfl⟩

theorem compileFile_of_none (h : template? flags s.files p = none) :
    ∃ s' e, compileFile flags s p = (s', some e) ∧ s'.files = s.files ∧
      s'.stdout = s.stdout := by
  rw [compileFile]
  cases hfind : s.files.find p with
  | error e => exact ⟨s, _, rfl, rfl, rfl⟩
  | ok x =>
    obtain ⟨e, he⟩ : ∃ e, transpile p (input p x) none ⟨[], flags.target⟩ = .error e := by
      cases x with
      | dir es => exact transpile_of_read_error
      | link target => exact transpile_of_read_error
      | file src =>
        cases hc : compile ⟨p, flags.target⟩ src with
        | error e => exact ⟨_, transpile_of_error hc⟩
        | ok out =>
          cases h.symm.trans
            (template?_eq_some_iff_read.2 ⟨src, FileSystem.read_iff_find.2 hfind, hc⟩)
    simp only [he]
    exact ⟨_, _, rfl, State.files_log _ _ _, State.stdout_log _ _ _⟩

theorem compileFile_of_some (h : template? flags s.files p = some out) :
    ∃ s', s'.files = s.files ∧ s'.stdout = s.stdout ∧
      compileFile flags s p =
        if flags.toStdout then (s'.print (out ++ [Byte.lf]), none)
        else match s.files.write (templatePath p) (out ++ [Byte.lf]) with
          | .error e => (s', some (.unwritable (templatePath p) e))
          | .ok files => ({ s' with files }, none) := by
  obtain ⟨src, hread, hc⟩ := template?_eq_some_iff_read.1 h
  rw [compileFile, FileSystem.read_iff_find.1 hread]
  simp only [input, transpile_of_ok hc, State.files_log]
  exact ⟨_, State.files_log _ _ _, State.stdout_log _ _ _, rfl⟩

/-- The state after a source file is compiled or reported. -/
def step (flags : Flags) (s : State) (path : Bytes) : State :=
  match compileFile flags s path with
  | (s, none) => s
  | (s, some e) => s.report e.message e.diagnostic?

theorem compileFiles_cons :
    compileFiles flags s (p :: ps) = ((compileFiles flags (step flags s p) ps).1,
      (compileFile flags s p).2.isNone && (compileFiles flags (step flags s p) ps).2) := by
  rw [compileFiles, step]
  rcases compileFile flags s p with ⟨s', - | e⟩ <;> rfl

theorem step_of_none (h : template? flags s.files p = none) :
    (step flags s p).files = s.files ∧ (step flags s p).stdout = s.stdout ∧
      (compileFile flags s p).2.isNone = false := by
  obtain ⟨s', e, hc, hfiles, hout⟩ := compileFile_of_none h
  rw [step, hc]
  exact ⟨hfiles, hout, rfl⟩

/-- What a step does to the files: it writes a template, or nothing. -/
theorem step_files (flags : Flags) (s : State) (p : Bytes) :
    (step flags s p).files = s.files ∨ ∃ out, template? flags s.files p = some out ∧
      s.files.write (templatePath p) (out ++ [Byte.lf]) = .ok (step flags s p).files := by
  cases ht : template? flags s.files p with
  | none => exact .inl (step_of_none ht).1
  | some out =>
    obtain ⟨s', hfiles, -, hc⟩ := compileFile_of_some ht
    rw [step, hc]
    cases flags.toStdout with
    | true => exact .inl hfiles
    | false =>
      cases hw : s.files.write (templatePath p) (out ++ [Byte.lf]) with
      | error e => exact .inl hfiles
      | ok files => exact .inr ⟨out, rfl, hw⟩

/-- A step for which templates go to the output. -/
theorem step_toStdout (hflag : flags.toStdout = true) (s : State) (p : Bytes) :
    (step flags s p).files = s.files ∧
      (step flags s p).stdout =
        s.stdout ++ ([p].filterMap (template? flags s.files)).flatMap (· ++ [Byte.lf]) ∧
      ((compileFile flags s p).2.isNone = true ↔
        ∃ out, template? flags s.files p = some out) := by
  cases ht : template? flags s.files p with
  | none =>
    obtain ⟨hfiles, hout, hnone⟩ := step_of_none ht
    refine ⟨hfiles, ?_, ?_⟩
    · simp [hout, ht]
    · simp [hnone]
  | some out =>
    obtain ⟨s', hfiles, hout, hc⟩ := compileFile_of_some ht
    rw [hflag, if_pos rfl] at hc
    rw [step, hc]
    refine ⟨hfiles, ?_, ?_⟩
    · simp [State.print, hout, ht]
    · simp

/-- A step for which templates are written beside their sources. -/
theorem step_toFile (hflag : flags.toStdout = false) (s : State)
    (haside : s.files.tree.LinksAside) (hp : IsSource p) :
    Leaves flags s.files (step flags s p).files [p] ∧ (step flags s p).stdout = s.stdout ∧
      ((compileFile flags s p).2.isNone = true ↔
        ∃ loc out, Writes flags s.files p loc out) := by
  -- Without a file to write, the files stay as they are.
  have hsame : (¬∃ loc out, Writes flags s.files p loc out) →
      (step flags s p).files = s.files → Leaves flags s.files (step flags s p).files [p] := by
    intro hw hfiles
    rw [hfiles]
    exact .of_not_writes fun q hq => by rwa [List.mem_singleton.1 hq]
  cases ht : template? flags s.files p with
  | none =>
    obtain ⟨hfiles, hout, hnone⟩ := step_of_none ht
    have hw : ¬∃ loc out, Writes flags s.files p loc out := by
      rintro ⟨loc, out, h⟩
      cases ht.symm.trans h.template
    exact ⟨hsame hw hfiles, hout, by simp [hnone, hw]⟩
  | some out =>
    obtain ⟨s', hfiles, hout, hc⟩ := compileFile_of_some ht
    rw [hflag, if_neg Bool.false_ne_true] at hc
    cases hwrite : s.files.write (templatePath p) (out ++ [Byte.lf]) with
    | error e =>
      rw [hwrite] at hc
      have hw : ¬∃ loc out, Writes flags s.files p loc out := by
        rintro ⟨loc, out', h⟩
        cases hwrite.symm.trans (FileSystem.write_eq_ok_iff.2 ⟨loc, h.located, h.admitted, rfl⟩)
      rw [step, hc] at hsame ⊢
      exact ⟨hsame hw hfiles, hout, by simp [hw]⟩
    | ok files =>
      rw [hwrite] at hc
      have hw : ∃ loc out, Writes flags s.files p loc out := by
        obtain ⟨loc, hloc, hadmits, -⟩ := FileSystem.write_eq_ok_iff.1 hwrite
        exact ⟨loc, out, ht, hloc, hadmits⟩
      rw [step, hc]
      exact ⟨.of_write haside hp ht hwrite, hout, by simp [hw]⟩

/-! ## Runs -/

theorem compileFiles_toStdout (hflag : flags.toStdout = true) (s : State) (ps : List Bytes) :
    (compileFiles flags s ps).1.files = s.files ∧
      (compileFiles flags s ps).1.stdout =
        s.stdout ++ (ps.filterMap (template? flags s.files)).flatMap (· ++ [Byte.lf]) ∧
      ((compileFiles flags s ps).2 = true ↔
        ∀ p ∈ ps, ∃ out, template? flags s.files p = some out) := by
  induction ps generalizing s with
  | nil => simp [compileFiles]
  | cons p ps ih =>
    obtain ⟨hfiles, hout, hnone⟩ := step_toStdout hflag s p
    obtain ⟨hfiles', houts, hall⟩ := ih (step flags s p)
    rw [hfiles] at hfiles' houts hall
    rw [compileFiles_cons]
    refine ⟨hfiles', ?_, ?_⟩
    · rw [houts, hout, List.append_assoc, ← List.flatMap_append, ← List.filterMap_append,
        List.singleton_append]
    · rw [Bool.and_eq_true, hnone, hall, List.forall_mem_cons]

theorem compileFiles_toFile (hflag : flags.toStdout = false) (s : State)
    (haside : s.files.tree.LinksAside) (hps : ∀ p ∈ ps, IsSource p) :
    Leaves flags s.files (compileFiles flags s ps).1.files ps ∧
      (compileFiles flags s ps).1.stdout = s.stdout ∧
      ((compileFiles flags s ps).2 = true ↔
        ∀ p ∈ ps, ∃ loc out, Writes flags s.files p loc out) := by
  induction ps generalizing s with
  | nil =>
    refine ⟨.of_not_writes fun _ hp => absurd hp List.not_mem_nil, rfl, ?_⟩
    simp [compileFiles]
  | cons p ps ih =>
    obtain ⟨hp, hps⟩ := List.forall_mem_cons.1 hps
    have hsingle : ∀ q ∈ [p], IsSource q := by simpa using hp
    obtain ⟨hleaves, hout, hnone⟩ := step_toFile hflag s haside hp
    obtain ⟨hleave, houts, hall⟩ :=
      ih (step flags s p) (hleaves.linksAside haside hsingle) hps
    rw [compileFiles_cons]
    refine ⟨hleaves.trans haside hsingle hleave hps, houts.trans hout, ?_⟩
    rw [Bool.and_eq_true, hnone, hall, List.forall_mem_cons]
    -- The other sources are compiled among other files, where they write the same.
    refine and_congr_right fun _ => forall₂_congr fun q hq => ?_
    simp only [hleaves.writes_iff haside hsingle (hps q hq)]

/-- The source with the given path has a template, and there is neither a directory where it is to
    go nor anything else that forbids to write it. -/
def Succeeds (flags : Flags) (fs : FileSystem) (path : Bytes) : Prop :=
  (∃ out, template? flags fs path = some out) ∧
    (flags.toStdout = false →
      ¬fs.HasDir (templatePath path) ∧ ¬fs.IsLocked (templatePath path))

theorem succeeds_iff_writes (hflag : flags.toStdout = false) (haside : fs.tree.LinksAside)
    (hp : IsSource p) : Succeeds flags fs p ↔ ∃ loc out, Writes flags fs p loc out := by
  rw [exists_writes_iff haside hp, Succeeds, imp_iff_right hflag]

theorem succeeds_iff_template (hflag : flags.toStdout = true) :
    Succeeds flags fs p ↔ ∃ out, template? flags fs p = some out := by
  simp [Succeeds, hflag]

theorem code_outcome (s : State) (ok : Bool) :
    (s.outcome ok).code ≤ 1 ∧ ((s.outcome ok).code = 0 ↔ ok = true) := by
  cases ok <;> simp [State.outcome]

section

variable {args patterns : List Bytes} (hargs : Flags.parse args = .compile flags patterns)
  (hne : patterns ≠ []) (stdin : Bytes)

include hargs hne

theorem run_eq (fs : FileSystem) :
    run fs args stdin = (compilePatterns flags ⟨[], [], fs⟩ patterns).1.outcome
      (compilePatterns flags ⟨[], [], fs⟩ patterns).2 := by
  obtain ⟨p, ps, rfl⟩ := List.exists_cons_of_ne_nil hne
  rw [run, hargs]

theorem run_of_collect_error {e : SourceError} (h : Sources.collect fs patterns = .error e) :
    ∃ s : State, s.files = fs ∧ s.stdout = [] ∧ run fs args stdin = s.outcome false := by
  rw [run_eq hargs hne, compilePatterns, h]
  exact ⟨_, rfl, rfl, rfl⟩

/-- What is logged before the files are compiled depends on them by the paths alone. -/
theorem exists_run_eq (ps : List Bytes) :
    ∃ messages, ∀ fs, Sources.collect fs patterns = .ok ps → run fs args stdin =
      (compileFiles flags ⟨[], messages, fs⟩ ps).1.outcome
        (compileFiles flags ⟨[], messages, fs⟩ ps).2 := by
  have hlog : ∀ line, ∃ messages, ∀ fs,
      State.log ⟨[], [], fs⟩ flags line = ⟨[], messages, fs⟩ := by
    intro line
    cases hflag : flags.verbose with
    | false => exact ⟨[], fun fs => by simp [State.log, hflag]⟩
    | true => exact ⟨"hamlbars: " ++ line ++ "\n", fun fs => by simp [State.log, hflag]⟩
  obtain ⟨messages, h⟩ :=
    hlog ("found " ++ Bytes.ofNat ps.length ++ " " ++ sourceExt ++ " file(s)")
  refine ⟨messages, fun fs hps => ?_⟩
  rw [run_eq hargs hne, compilePatterns, hps]
  simp only [h]

theorem run_of_collect (h : Sources.collect fs patterns = .ok ps) :
    ∃ s : State, s.files = fs ∧ s.stdout = [] ∧
      run fs args stdin = (compileFiles flags s ps).1.outcome (compileFiles flags s ps).2 := by
  obtain ⟨messages, hrun⟩ := exists_run_eq hargs hne stdin ps
  exact ⟨⟨[], messages, fs⟩, rfl, rfl, hrun fs h⟩

theorem run_toStdout (hflag : flags.toStdout = true) (h : Sources.collect fs patterns = .ok ps) :
    ((run fs args stdin).code = 0 ↔ ∀ p ∈ ps, Succeeds flags fs p) ∧
      (run fs args stdin).files = fs ∧
      (run fs args stdin).stdout =
        (ps.filterMap (template? flags fs)).flatMap (· ++ [Byte.lf]) := by
  obtain ⟨s, rfl, hstdout, hrun⟩ := run_of_collect hargs hne stdin h
  obtain ⟨hfiles, hout, hall⟩ := compileFiles_toStdout hflag s ps
  simp only [hrun, code_outcome, hall, succeeds_iff_template hflag, true_and]
  exact ⟨hfiles, by rw [hstdout] at hout; exact hout⟩

theorem run_toFile (hflag : flags.toStdout = false) (haside : fs.tree.LinksAside)
    (h : Sources.collect fs patterns = .ok ps) :
    ((run fs args stdin).code = 0 ↔ ∀ p ∈ ps, Succeeds flags fs p) ∧
      Leaves flags fs (run fs args stdin).files ps ∧ (run fs args stdin).stdout = [] := by
  obtain ⟨s, rfl, hstdout, hrun⟩ := run_of_collect hargs hne stdin h
  have hps := Sources.isSource_of_collect h
  obtain ⟨hleaves, hout, hall⟩ := compileFiles_toFile hflag s haside hps
  rw [hrun, (code_outcome _ _).2, hall]
  refine ⟨forall₂_congr fun p hp => (succeeds_iff_writes hflag haside (hps p hp)).symm, hleaves, ?_⟩
  exact hout.trans hstdout

end

end IndentMarkup.Command
