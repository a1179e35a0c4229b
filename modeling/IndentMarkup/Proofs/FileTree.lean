import IndentMarkup.FileTree.System
import IndentMarkup.Proofs.Basic
import IndentMarkup.Proofs.Indentation

/-!
# Reading and writing files

What is at a location, apart from what is below it, is an `Entry`. A tree is looked at through the
entries at its locations (`FileTree.entryAt?`):

* where a path leads depends on the directories and the links alone (`FileSystem.locate_congr`), and
  a file is read at that location (`FileSystem.read_eq_ok_iff`);
* a file that is written changes the entry at one location, and leaves those at all other ones as
  they are (`FileTree.entryAt?_put`).

Two paths that differ in the extension of their last name lead to the same directory, in which they
have the same name but for the extension, unless there is a link of that name
(`FileSystem.locate_append_eq_ok_iff`).
-/

namespace IndentMarkup

/-! ## Last names -/

namespace Path

/-- The names of a path but the last one. -/
def folderNames (path : Bytes) : List Bytes := (names path).dropLast

/-- The last name of a path. -/
def base (path : Bytes) : Bytes := (names path).getLastD []

/-- The end of a name that is neither that of a directory in itself nor that of the one above. -/
structure IsExt (ext : Bytes) : Prop where
  slash_notMem : Byte.slash ∉ ext
  two_lt_length : 2 < ext.length

/-- A name with an extension is that of an entry, which is neither the directory itself nor the one
    above. -/
theorem IsExt.append_ne {ext : Bytes} (hext : IsExt ext) (s : Bytes) :
    ¬((s ++ ext).isEmpty ∨ s ++ ext = here) ∧ s ++ ext ≠ parent := by
  have hne : ∀ name : Bytes, name.length ≤ 2 → s ++ ext ≠ name := by
    intro name hname heq
    have hlength := hext.two_lt_length
    rw [← heq, List.length_append] at hname
    omega
  rw [List.isEmpty_iff]
  exact ⟨not_or.2 ⟨hne [] (by decide), hne here (by decide)⟩, hne parent (by decide)⟩

theorem exists_names_append (path : Bytes) :
    ∃ ns n, ∀ ext, Byte.slash ∉ ext → names (path ++ ext) = ns ++ [n ++ ext] := by
  induction path with
  | nil =>
    exact ⟨[], [], fun ext hext => Bytes.pieces_of_notMem hext⟩
  | cons b path ih =>
    obtain ⟨ns, n, h⟩ := ih
    have hcons : ∀ ext, names (b :: path ++ ext) = if b = Byte.slash then [] :: names (path ++ ext)
        else (names (path ++ ext)).modifyHead (b :: ·) := fun _ => rfl
    -- A slash starts a new name, and any other byte is part of the first one.
    by_cases hb : b = Byte.slash
    · refine ⟨[] :: ns, n, fun ext hext => ?_⟩
      rw [hcons, if_pos hb, h ext hext]
      rfl
    · cases ns with
      | nil =>
        refine ⟨[], b :: n, fun ext hext => ?_⟩
        rw [hcons, if_neg hb, h ext hext]
        rfl
      | cons m ns =>
        refine ⟨(b :: m) :: ns, n, fun ext hext => ?_⟩
        rw [hcons, if_neg hb, h ext hext]
        rfl

theorem names_append {path ext : Bytes} (h : Byte.slash ∉ ext) :
    names (path ++ ext) = folderNames path ++ [base path ++ ext] := by
  obtain ⟨ns, n, hnames⟩ := exists_names_append path
  have hpath : names path = ns ++ [n] := by simpa using hnames [] List.not_mem_nil
  rw [hnames ext h, folderNames, base, hpath]
  simp

theorem isRooted_append {path ext : Bytes} (h : Byte.slash ∉ ext) :
    isRooted (path ++ ext) = isRooted path := by
  cases path with
  | cons b path => rfl
  | nil =>
    cases ext with
    | nil => rfl
    | cons b ext =>
      have hb : b ≠ Byte.slash := fun hb => h (by simp [hb])
      simpa [isRooted] using hb

end Path

/-- A file, a directory or a link without what is below it. -/
inductive Entry where
  /-- A file. -/
  | file (content : Bytes)
  /-- A directory. -/
  | dir
  /-- A link. -/
  | link (target : Bytes)
  deriving DecidableEq

namespace FileTree

/-! ## Entries -/

/-- The root of a tree as an entry. -/
def root : FileTree → Entry
  | file c => .file c
  | dir _ => .dir
  | link target => .link target

/-- What is at a location. -/
def entryAt? (t : FileTree) (loc : Location) : Option Entry := (t.get? loc).map root

theorem entryAt?_eq_dir_iff {t : FileTree} {loc : Location} :
    t.entryAt? loc = some .dir ↔ ∃ es, t.get? loc = some (dir es) := by
  rw [entryAt?]
  rcases t.get? loc with - | - | - | - <;> simp [root]

theorem entryAt?_eq_file_iff {t : FileTree} {loc : Location} {c : Bytes} :
    t.entryAt? loc = some (.file c) ↔ t.get? loc = some (file c) := by
  rw [entryAt?]
  rcases t.get? loc with - | - | - | - <;> simp [root]

theorem linkAt?_eq_some_iff {t : FileTree} {loc : Location} {target : Bytes} :
    t.linkAt? loc = some target ↔ t.entryAt? loc = some (.link target) := by
  rw [linkAt?, entryAt?]
  rcases t.get? loc with - | - | - | - <;> simp [root]

theorem linkAt?_congr {t t' : FileTree} {loc : Location}
    (h : t'.entryAt? loc = t.entryAt? loc) : t'.linkAt? loc = t.linkAt? loc := by
  refine Option.ext fun target => ?_
  rw [linkAt?_eq_some_iff, linkAt?_eq_some_iff, h]

@[simp] theorem entryAt?_nil (t : FileTree) : t.entryAt? [] = some t.root := by
  cases t <;> rfl

@[simp] theorem entryAt?_file_cons (c n : Bytes) (ns : Location) :
    (file c).entryAt? (n :: ns) = none := rfl

@[simp] theorem entryAt?_link_cons (target n : Bytes) (ns : Location) :
    (link target).entryAt? (n :: ns) = none := rfl

theorem entryAt?_dir_cons (es : List (Bytes × FileTree)) (n : Bytes) (ns : Location) :
    (dir es).entryAt? (n :: ns) = (es.lookup n).bind (entryAt? · ns) := by
  rw [entryAt?, get?]
  cases es.lookup n <;> rfl

theorem lookup_cons_eq_if (m n : Bytes) (t : FileTree) (es : List (Bytes × FileTree)) :
    ((m, t) :: es).lookup n = if n = m then some t else es.lookup n := by
  rw [List.lookup_cons]
  cases h : n == m with
  | true => rw [if_pos (eq_of_beq h)]
  | false => rw [if_neg (ne_of_beq_false h)]

theorem lookup_alter (f : FileTree → FileTree) (name n : Bytes) (es : List (Bytes × FileTree)) :
    (alter f name es).lookup n =
      if n = name then some (f ((es.lookup name).getD empty)) else es.lookup n := by
  induction es with
  | nil => exact lookup_cons_eq_if name n _ []
  | cons e es ih =>
    obtain ⟨m, t⟩ := e
    by_cases hm : m = name
    · subst hm
      rw [alter, if_pos rfl, lookup_cons_eq_if, lookup_cons_eq_if, lookup_cons_eq_if, if_pos rfl]
      by_cases hn : n = m
      · rw [if_pos hn, if_pos hn]
        rfl
      · rw [if_neg hn, if_neg hn, if_neg hn]
    · rw [alter, if_neg hm, lookup_cons_eq_if, ih, lookup_cons_eq_if, lookup_cons_eq_if,
        if_neg (Ne.symm hm)]
      by_cases hn : n = m
      · rw [if_pos hn, if_pos hn, if_neg (hn ▸ hm)]
      · rw [if_neg hn, if_neg hn]

/-- Nothing is below a location without a directory. -/
theorem entryAt?_append_cons {t : FileTree} {loc : Location} (h : t.entryAt? loc ≠ some .dir)
    (n : Bytes) (ns : Location) : t.entryAt? (loc ++ n :: ns) = none := by
  induction loc generalizing t with
  | nil =>
    cases t with
    | file c => rfl
    | link target => rfl
    | dir es => exact absurd rfl h
  | cons m loc ih =>
    cases t with
    | file c => rfl
    | link target => rfl
    | dir es =>
      rw [List.cons_append, entryAt?_dir_cons]
      rw [entryAt?_dir_cons] at h
      cases hm : es.lookup m with
      | none => rfl
      | some t =>
        rw [hm] at h
        exact ih h

theorem entryAt?_eq_dir_of_cons {t : FileTree} {d loc : Location} {n : Bytes} {x : Entry}
    (h : t.entryAt? (d ++ n :: loc) = some x) : t.entryAt? d = some .dir := by
  by_contra hdir
  cases h.symm.trans (entryAt?_append_cons hdir n loc)

/-- A file that is put in a directory, but not in the place of another directory, changes the entry
    at its location and no other one. -/
theorem entryAt?_put {t : FileTree} {d : Location} {n : Bytes} (hd : t.entryAt? d = some .dir)
    (hn : t.entryAt? (d ++ [n]) ≠ some .dir) (c : Bytes) (loc : Location) :
    (t.put (d ++ [n]) (file c)).entryAt? loc =
      if loc = d ++ [n] then some (.file c) else t.entryAt? loc := by
  induction d generalizing t loc with
  | nil =>
    obtain ⟨es, h⟩ := entryAt?_eq_dir_iff.1 hd
    cases h
    cases loc with
    | nil => rfl
    | cons m ms =>
      rw [List.nil_append, put, entryAt?_dir_cons, lookup_alter]
      by_cases hm : m = n
      · subst hm
        cases ms with
        | nil => simp [put, root]
        | cons k ms =>
          -- Nothing is below the new file, and nothing was below what it takes the place of.
          have hbelow := entryAt?_append_cons hn k ms
          simp only [List.nil_append, List.cons_append] at hbelow
          simp [put, hbelow]
      · simp [hm, entryAt?_dir_cons]
  | cons k d ih =>
    cases t with
    | file _ => cases hd
    | link _ => cases hd
    | dir es =>
      rw [entryAt?_dir_cons] at hd
      rw [List.cons_append, entryAt?_dir_cons] at hn
      cases hk : es.lookup k with
      | none =>
        rw [hk] at hd
        cases hd
      | some t =>
        rw [hk] at hd hn
        cases loc with
        | nil => rfl
        | cons m ms =>
          rw [List.cons_append, put, entryAt?_dir_cons, lookup_alter, entryAt?_dir_cons]
          by_cases hm : m = k
          · subst hm
            simp [hk, ih hd hn ms]
          · simp [hm]

/-! ## Ways -/

variable {t t' : FileTree} {through : Bool} {loc l : Location}
  {jump jump' : Location → List Bytes → Except PathError Location}

/-- Both trees have the same directories and the same links. -/
structure SameWays (t t' : FileTree) : Prop where
  dirs : ∀ loc, t.entryAt? loc = some .dir ↔ t'.entryAt? loc = some .dir
  links : ∀ loc, t'.linkAt? loc = t.linkAt? loc

theorem walk_cons_eq_ok_iff {n : Bytes} {ns : List Bytes} :
    t.walk through jump loc (n :: ns) = .ok l ↔ t.entryAt? loc = some .dir ∧
      (if n.isEmpty ∨ n = Path.here then t.walk through jump loc ns
        else if n = Path.parent then t.walk through jump loc.dropLast ns
        else (t.linkAt? (loc ++ [n])).elim (t.walk through jump (loc ++ [n]) ns) fun target =>
          if ns.isEmpty && !through then .ok (loc ++ [n])
          else jump (if Path.isRooted target then [] else loc) (Path.names target ++ ns)) =
        .ok l := by
  rw [walk, entryAt?_eq_dir_iff]
  rcases t.get? loc with - | - | - | - <;> simp
  cases t.linkAt? (loc ++ [n]) <;> rfl

theorem walk_congr (h : t.SameWays t')
    (hjump : ∀ loc ns, jump loc ns = .ok l ↔ jump' loc ns = .ok l) {ns : List Bytes} :
    t.walk through jump loc ns = .ok l ↔ t'.walk through jump' loc ns = .ok l := by
  induction ns generalizing loc with
  | nil => exact Iff.rfl
  | cons n ns ih =>
    rw [walk_cons_eq_ok_iff, walk_cons_eq_ok_iff, h.dirs loc, h.links (loc ++ [n])]
    refine and_congr_right fun _ => ?_
    split
    · exact ih
    · split
      · exact ih
      · cases t.linkAt? (loc ++ [n]) with
        | none => exact ih
        | some target =>
          simp only [Option.elim_some]
          split
          · exact Iff.rfl
          · exact hjump _ _

/-- Where names lead to depends on the directories and the links alone. -/
theorem follow_congr (h : t.SameWays t') {links : Nat} {ns : List Bytes} :
    t.follow through links loc ns = .ok l ↔ t'.follow through links loc ns = .ok l := by
  induction links generalizing loc ns with
  | zero => exact walk_congr h fun _ _ => Iff.rfl
  | succ links ih => exact walk_congr h fun _ _ => ih

section

variable {n : Bytes} (hself : ¬(n.isEmpty ∨ n = Path.here)) (habove : n ≠ Path.parent)
  (hlink : ∀ d, t.linkAt? (d ++ [n]) = none)

include hself habove hlink

theorem walk_concat_eq_ok_iff
    (hjump : ∀ loc ns, jump loc (ns ++ [n]) = .ok l ↔
      ∃ d, jump' loc ns = .ok d ∧ t.entryAt? d = some .dir ∧ l = d ++ [n]) {ns : List Bytes} :
    t.walk true jump loc (ns ++ [n]) = .ok l ↔
      ∃ d, t.walk true jump' loc ns = .ok d ∧ t.entryAt? d = some .dir ∧ l = d ++ [n] := by
  induction ns generalizing loc with
  | nil =>
    rw [List.nil_append, walk_cons_eq_ok_iff, if_neg hself, if_neg habove, hlink]
    simp [walk, @eq_comm _ l]
  | cons m ns ih =>
    simp only [List.cons_append, walk_cons_eq_ok_iff, and_assoc, exists_and_left]
    refine and_congr_right fun _ => ?_
    split
    · exact ih
    · split
      · exact ih
      · cases t.linkAt? (loc ++ [m]) with
        | none => exact ih
        | some target =>
          simp only [Option.elim_some, Bool.not_true, Bool.and_false, Bool.false_eq_true, if_false,
            ← List.append_assoc]
          exact hjump _ _

/-- The last name leads to an entry of the directory that the names before it lead to, if there is
    no link of that name. -/
theorem follow_concat_eq_ok_iff {links : Nat} {ns : List Bytes} :
    t.follow true links loc (ns ++ [n]) = .ok l ↔
      ∃ d, t.follow true links loc ns = .ok d ∧ t.entryAt? d = some .dir ∧ l = d ++ [n] := by
  induction links generalizing loc ns with
  | zero => exact walk_concat_eq_ok_iff hself habove hlink fun _ _ => by simp
  | succ links ih => exact walk_concat_eq_ok_iff hself habove hlink fun _ _ => ih

end

end FileTree

namespace FileSystem

/-! ## Paths -/

variable {fs fs' : FileSystem} {through : Bool} {loc : Location} {path ext c : Bytes}

theorem entry_eq_ok_iff {e : FileTree} : fs.entry through path = .ok e ↔
    ∃ loc, fs.resolve through path = .ok loc ∧ fs.tree.get? loc = some e := by
  refine bind_eq_ok_iff.trans (exists_congr fun loc => and_congr_right fun _ => ?_)
  cases fs.tree.get? loc <;> simp [pure, Except.pure]

theorem find_eq_ok_iff {e : FileTree} :
    fs.find path = .ok e ↔ ∃ loc, fs.locate path = .ok loc ∧ fs.tree.get? loc = some e :=
  entry_eq_ok_iff

theorem read_iff_find : fs.read path = .ok c ↔ fs.find path = .ok (.file c) := by
  refine bind_eq_ok_iff.trans ⟨?_, fun h => ⟨.file c, h, rfl⟩⟩
  rintro ⟨e, hfind, h⟩
  cases e with
  | dir es => cases h
  | link target => cases h
  | file c' =>
    cases h
    exact hfind

theorem read_eq_ok_iff : fs.read path = .ok c ↔
    ∃ loc, fs.locate path = .ok loc ∧ fs.tree.entryAt? loc = some (.file c) := by
  simp only [FileTree.entryAt?_eq_file_iff]
  rw [← find_eq_ok_iff, read_iff_find]

theorem any_isDir_iff {t : FileTree} :
    (t.get? loc).any FileTree.isDir = true ↔ t.entryAt? loc = some .dir := by
  rw [FileTree.entryAt?]
  rcases t.get? loc with - | - | - | - <;> simp [FileTree.root, FileTree.isDir]

/-- A file can be written at a location: there is no directory, and nothing else forbids it. -/
structure Admits (fs : FileSystem) (loc : Location) : Prop where
  free : fs.tree.entryAt? loc ≠ some .dir
  unlocked : loc ∉ fs.locked

theorem admits_iff : fs.Admits loc ↔ fs.tree.entryAt? loc ≠ some .dir ∧ loc ∉ fs.locked :=
  ⟨fun h => ⟨h.free, h.unlocked⟩, fun h => ⟨h.1, h.2⟩⟩

theorem write_eq_ok_iff : fs.write path c = .ok fs' ↔ ∃ loc, fs.locate path = .ok loc ∧
    fs.Admits loc ∧ fs' = { fs with tree := fs.tree.put loc (.file c) } := by
  refine bind_eq_ok_iff.trans (exists_congr fun loc => and_congr_right fun _ => ?_)
  simp only [any_isDir_iff]
  by_cases hdir : fs.tree.entryAt? loc = some .dir
  · simp [hdir, admits_iff]
  · by_cases hlocked : loc ∈ fs.locked <;>
      simp [hdir, hlocked, admits_iff, pure, Except.pure, eq_comm]

theorem write_eq_error_iff {e : PathError} (h : fs.locate path = .ok loc) :
    fs.write path c = .error e ↔ fs.tree.entryAt? loc = some .dir ∧ e = .isDirectory ∨
      fs.tree.entryAt? loc ≠ some .dir ∧ loc ∈ fs.locked ∧ e = .denied := by
  refine bind_eq_error_iff.trans ?_
  simp only [h, reduceCtorEq, false_or, Except.ok.injEq, exists_eq_left', any_isDir_iff]
  by_cases hdir : fs.tree.entryAt? loc = some .dir
  · simp [hdir, eq_comm]
  · by_cases hlocked : loc ∈ fs.locked <;> simp [hdir, hlocked, pure, Except.pure, eq_comm]

/-- The path leads to a directory. -/
def HasDir (fs : FileSystem) (path : Bytes) : Prop := ∃ es, fs.find path = .ok (.dir es)

theorem hasDir_iff : fs.HasDir path ↔
    ∃ loc, fs.locate path = .ok loc ∧ fs.tree.entryAt? loc = some .dir := by
  simp only [HasDir, find_eq_ok_iff, FileTree.entryAt?_eq_dir_iff]
  rw [exists_comm]
  simp only [exists_and_left]

/-- The path leads to a location at which no file can be written. -/
def IsLocked (fs : FileSystem) (path : Bytes) : Prop :=
  ∃ loc, fs.locate path = .ok loc ∧ loc ∈ fs.locked

/-- Where a path leads to depends on the directories and the links alone. -/
theorem locate_congr (hcwd : fs'.cwd = fs.cwd) (h : fs.tree.SameWays fs'.tree) :
    fs.locate path = .ok loc ↔ fs'.locate path = .ok loc := by
  have hstart : fs'.start path = fs.start path := by rw [start, start, hcwd]
  rw [locate, locate, resolve, resolve, hstart]
  split
  · exact Iff.rfl
  · exact FileTree.follow_congr h

/-- The location is that of the directory with the last name of the path in it. -/
def HasFolder (fs : FileSystem) (path : Bytes) (d : Location) : Prop :=
  fs.tree.follow true maxLinks (fs.start path) (Path.folderNames path) = .ok d ∧
    fs.tree.entryAt? d = some .dir

theorem locate_append_eq_ok_iff (hext : Path.IsExt ext)
    (hlink : ∀ d, fs.tree.linkAt? (d ++ [Path.base path ++ ext]) = none) :
    fs.locate (path ++ ext) = .ok loc ↔
      ∃ d, fs.HasFolder path d ∧ loc = d ++ [Path.base path ++ ext] := by
  obtain ⟨hself, habove⟩ := hext.append_ne (Path.base path)
  have hne : (path ++ ext).isEmpty = false :=
    Bool.eq_false_iff.2 (not_or.1 (hext.append_ne path).1).1
  have hstart : fs.start (path ++ ext) = fs.start path := by
    rw [start, start, Path.isRooted_append hext.slash_notMem]
  rw [locate, resolve, hne, if_neg Bool.false_ne_true, hstart,
    Path.names_append hext.slash_notMem,
    FileTree.follow_concat_eq_ok_iff hself habove hlink]
  simp only [HasFolder, and_assoc]

end FileSystem

end IndentMarkup
