import Mathlib.Data.Prod.Lex
import IndentMarkup.Proofs.Compile
import IndentMarkup.Proofs.Lexing

/-!
# Which targets are versions

The texts of versions are said by how they are put together (`Version.Denotes`), without a look at
how they are read: numbers are written with their decimal digits, those that are missing are zero,
and all three are followed by the identifiers of a pre-release and of a build, if any. Reading
accepts exactly these texts (`Version.parse?_eq_some_iff`).

A target is such a text, with or without a `v` in front (`Target.Denotes`). Its numbers and whether
it is a pre-release decide how bindings are written, and all other targets are rejected wherever one
is given (`Target.style_iff_denotes`).
-/

namespace IndentMarkup

/-! ## Decimal numerals -/

namespace Bytes

theorem ofNat_mul_add {n d : Nat} (hn : 0 < n) (hd : d < 10) :
    ofNat (10 * n + d) = ofNat n ++ ofNat d := by
  rw [ofNat, ← Nat.toDigits_append_toDigits (by decide) hn hd, List.map_append]
  rfl

/-- What holds of the digits, and of a number if it does without its last digit, holds of all
    numbers. -/
@[elab_as_elim]
theorem decimal_induct {motive : Nat → Prop} (digit : ∀ d, d < 10 → motive d)
    (append : ∀ n d, 0 < n → d < 10 → motive n → motive (10 * n + d)) (n : Nat) : motive n := by
  induction n using Nat.strong_induction_on with
  | _ n ih =>
    by_cases hn : n < 10
    · exact digit n hn
    · have hdiv := append (n / 10) (n % 10) (by omega) (by omega) (ih (n / 10) (by omega))
      rwa [Nat.div_add_mod] at hdiv

/-- The text of a digit is one byte. -/
theorem ofNat_digit {d : Nat} (hd : d < 10) :
    ∃ b, ofNat d = [b] ∧ Byte.isDigit b ∧ b.toNat - 0x30 = d ∧ (b = 0x30 → d = 0) := by
  have hall : ∀ k : Fin 10, ∃ b, ofNat k = [b] ∧ Byte.isDigit b ∧ b.toNat - 0x30 = k ∧
      (b = 0x30 → k.val = 0) := by
    intro k
    refine ⟨UInt8.ofNat (0x30 + k), ?_⟩
    revert k
    decide
  exact hall ⟨d, hd⟩

theorem exists_eq_ofNat {b : UInt8} (hb : Byte.isDigit b) : ∃ d, d < 10 ∧ [b] = ofNat d := by
  have hrange : ∀ c : UInt8, Byte.isDigit c → 0x30 ≤ c.toNat ∧ c.toNat ≤ 0x39 := by
    intro c hc
    simpa [Byte.isDigit, UInt8.le_iff_toNat_le] using hc
  obtain ⟨hle, hge⟩ := hrange b hb
  obtain ⟨c, hc, hdigit, hval, -⟩ := ofNat_digit (d := b.toNat - 0x30) (by omega)
  have hcle := (hrange c hdigit).1
  have heq : b = c := UInt8.toNat_inj.1 (by omega)
  exact ⟨b.toNat - 0x30, by omega, by rw [hc, heq]⟩

theorem toNat_append_digit (t : Bytes) {d : Nat} (hd : d < 10) :
    toNat (t ++ ofNat d) = 10 * toNat t + d := by
  obtain ⟨b, hb, -, hval, -⟩ := ofNat_digit hd
  rw [hb, toNat, List.foldl_append, List.foldl_cons, List.foldl_nil, hval]
  rfl

theorem toNat_ofNat (n : Nat) : toNat (ofNat n) = n := by
  induction n using decimal_induct with
  | digit d hd => exact (toNat_append_digit [] hd).trans (Nat.zero_add d)
  | append n d hn hd ih => rw [ofNat_mul_add hn hd, toNat_append_digit _ hd, ih]

theorem ofNat_ne_nil (n : Nat) : ofNat n ≠ [] := by simp [ofNat]

theorem isDigit_of_mem_ofNat (n : Nat) : ∀ b ∈ ofNat n, Byte.isDigit b := by
  induction n using decimal_induct with
  | digit d hd =>
    obtain ⟨b, hb, hdigit, -⟩ := ofNat_digit hd
    rwa [hb, List.forall_mem_singleton]
  | append n d hn hd ih =>
    obtain ⟨b, hb, hdigit, -⟩ := ofNat_digit hd
    rw [ofNat_mul_add hn hd, hb]
    exact List.forall_mem_append.2 ⟨ih, List.forall_mem_singleton.2 hdigit⟩

/-- The text of a positive number starts with a digit other than zero. -/
theorem exists_ofNat_eq_cons {n : Nat} (hn : 0 < n) : ∃ b t, ofNat n = b :: t ∧ b ≠ 0x30 := by
  induction n using decimal_induct with
  | digit d hd =>
    obtain ⟨b, hb, -, -, hzero⟩ := ofNat_digit hd
    exact ⟨b, [], hb, fun h => absurd (hzero h) (by omega)⟩
  | append n d hn' hd ih =>
    obtain ⟨b, t, ht, hb⟩ := ih hn'
    exact ⟨b, t ++ ofNat d, by rw [ofNat_mul_add hn' hd, ht, List.cons_append], hb⟩

end Bytes

namespace Version

variable {t rest : Bytes} {n : Nat}

theorem hasLeadingZero_ofNat (n : Nat) : hasLeadingZero (Bytes.ofNat n) = false := by
  cases n with
  | zero => decide
  | succ n =>
    obtain ⟨b, t, ht, hb⟩ := Bytes.exists_ofNat_eq_cons (Nat.succ_pos n)
    simp [hasLeadingZero, ht, hb]

/-- Digits without a leading zero are those of the number that they denote. -/
theorem ofNat_toNat (ht : t.MadeOf Byte.isDigit) (hzero : hasLeadingZero t = false) :
    Bytes.ofNat (Bytes.toNat t) = t := by
  induction t using List.reverseRecOn with
  | nil => exact absurd rfl ht.1
  | append_singleton ds b ih =>
    obtain ⟨hds, hb⟩ := List.forall_mem_append.1 ht.2
    obtain ⟨d, hd, hbd⟩ := Bytes.exists_eq_ofNat (hb b List.mem_cons_self)
    rw [hbd, Bytes.toNat_append_digit _ hd]
    cases ds with
    | nil => exact congrArg Bytes.ofNat (Nat.zero_add d)
    | cons c ds =>
      have hc : c ≠ 0x30 := by simpa [hasLeadingZero] using hzero
      have ih := ih ⟨List.cons_ne_nil c ds, hds⟩ (by simp [hasLeadingZero, hc])
      have hpos : 0 < Bytes.toNat (c :: ds) := by
        by_contra hle
        rw [Nat.eq_zero_of_not_pos hle] at ih
        exact hc (List.cons.inj ih).1.symm
      rw [Bytes.ofNat_mul_add hpos hd, ih]

/-- A text starts with a number if it does with its digits and no other ones. -/
theorem numeral?_eq_some_iff : numeral? t = some (n, rest) ↔
    t = Bytes.ofNat n ++ rest ∧ ∀ b ∈ rest.head?, Byte.isDigit b = false := by
  constructor
  · intro h
    simp only [numeral?] at h
    split at h
    · cases h
    next hdigits =>
      obtain ⟨hempty, hzero⟩ := not_or.1 (mt Bool.or_eq_true_iff.2 hdigits)
      cases h
      have hmade : Bytes.MadeOf Byte.isDigit (t.takeWhile Byte.isDigit) :=
        ⟨by simpa using hempty, fun _ => List.mem_takeWhile_imp⟩
      rw [ofNat_toNat hmade (by simpa using hzero)]
      exact ⟨List.takeWhile_append_dropWhile.symm, Bytes.not_head_dropWhile _ t⟩
  · rintro ⟨rfl, hrest⟩
    obtain ⟨htake, hdrop⟩ := Bytes.span_append (Bytes.isDigit_of_mem_ofNat n) hrest
    simp [numeral?, htake, hdrop, hasLeadingZero_ofNat, Bytes.toNat_ofNat, Bytes.ofNat_ne_nil]

/-! ## Texts of versions -/

/-- The build part of a version, which may be missing. -/
def buildText : List Bytes → Bytes
  | [] => []
  | idents => Byte.plus :: Bytes.join "." idents

/-- The three numbers of a version. -/
def numbersText (major minor patch : Nat) : Bytes :=
  Bytes.ofNat major ++ "." ++ Bytes.ofNat minor ++ "." ++ Bytes.ofNat patch

/-- A text denotes a version: missing numbers are zero, and there is a pre-release or a build part
    only after all three of them. -/
inductive Denotes : Bytes → Version → Prop
  /-- The first number alone. -/
  | major (major : Nat) : Denotes (Bytes.ofNat major) ⟨major, 0, 0, []⟩
  /-- The first two numbers. -/
  | minor (major minor : Nat) :
      Denotes (Bytes.ofNat major ++ "." ++ Bytes.ofNat minor) ⟨major, minor, 0, []⟩
  /-- All three numbers, with identifiers of a pre-release and of a build, if any. -/
  | patch (major minor patch : Nat) {pre build : List Bytes} (hpre : ∀ i ∈ pre, isPreIdent i)
      (hbuild : ∀ i ∈ build, isIdent i) :
      Denotes (numbersText major minor patch ++ preText pre ++ buildText build)
        ⟨major, minor, patch, pre⟩

theorem Denotes.unbuilt (major minor patch : Nat) {pre : List Bytes}
    (hpre : ∀ i ∈ pre, isPreIdent i) :
    Denotes (numbersText major minor patch ++ preText pre) ⟨major, minor, patch, pre⟩ := by
  have hbuild : ∀ i ∈ ([] : List Bytes), isIdent i := fun _ hi => absurd hi List.not_mem_nil
  have h := Denotes.patch major minor patch hpre hbuild
  rwa [buildText, List.append_nil] at h

theorem Denotes.release (major minor patch : Nat) :
    Denotes (numbersText major minor patch) ⟨major, minor, patch, []⟩ := by
  have hpre : ∀ i ∈ ([] : List Bytes), isPreIdent i := fun _ hi => absurd hi List.not_mem_nil
  have h := Denotes.unbuilt major minor patch hpre
  rwa [preText, List.append_nil] at h

theorem isIdentByte_of_isIdent {i : Bytes} (hi : isIdent i) : ∀ b ∈ i, isIdentByte b := by
  simp only [isIdent, Bool.and_eq_true, List.all_eq_true] at hi
  exact hi.2

theorem isIdent_of_isPreIdent {i : Bytes} (hi : isPreIdent i) : isIdent i := by
  simp only [isPreIdent, Bool.and_eq_true] at hi
  exact hi.1

theorem notMem_of_isIdent {i : Bytes} (hi : isIdent i) : Byte.dot ∉ i ∧ Byte.plus ∉ i :=
  ⟨fun h => absurd (isIdentByte_of_isIdent hi _ h) (by decide),
    fun h => absurd (isIdentByte_of_isIdent hi _ h) (by decide)⟩

theorem join_pieces (t : Bytes) : Bytes.join "." (Bytes.pieces Byte.dot t) = t := by
  rw [Bytes.pieces_eq_splitOn]
  exact List.intercalate_splitOn Byte.dot

theorem pieces_join {idents : List Bytes} (hne : idents ≠ []) (h : ∀ i ∈ idents, isIdent i) :
    Bytes.pieces Byte.dot (Bytes.join "." idents) = idents :=
  Bytes.pieces_join hne fun i hi => (notMem_of_isIdent (h i hi)).1

theorem preText_of_ne {pre : List Bytes} (h : pre ≠ []) :
    preText pre = Byte.dash :: Bytes.join "." pre := by
  cases pre with
  | nil => exact absurd rfl h
  | cons i pre => rfl

theorem buildText_of_ne {build : List Bytes} (h : build ≠ []) :
    buildText build = Byte.plus :: Bytes.join "." build := by
  cases build with
  | nil => exact absurd rfl h
  | cons i build => rfl

theorem head_buildText (build : List Bytes) : ∀ b ∈ (buildText build).head?, b = Byte.plus := by
  cases build with
  | nil => exact fun _ hb => absurd hb (Option.not_mem_none _)
  | cons i build =>
    rintro _ ⟨rfl⟩
    rfl

theorem isBuild_plus_cons (t : Bytes) :
    isBuild (Byte.plus :: t) = (Bytes.pieces Byte.dot t).all isIdent := rfl

theorem isBuild_iff : isBuild t ↔ ∃ build, (∀ i ∈ build, isIdent i) ∧ t = buildText build := by
  constructor
  · intro h
    rw [isBuild.eq_def] at h
    split at h
    · exact ⟨[], by simp, rfl⟩
    next rest =>
      refine ⟨Bytes.pieces Byte.dot rest, by simpa using h, ?_⟩
      rw [buildText_of_ne (Bytes.pieces_ne_nil _ rest), join_pieces]
      rfl
    · cases h
  · rintro ⟨build, hbuild, rfl⟩
    by_cases hne : build = []
    · rw [hne]
      rfl
    · rw [buildText_of_ne hne, isBuild_plus_cons, pieces_join hne hbuild]
      exact List.all_eq_true.2 hbuild

theorem plus_notMem_join {idents : List Bytes} (h : ∀ i ∈ idents, isIdent i) :
    Byte.plus ∉ Bytes.join "." idents := by
  cases idents with
  | nil => exact List.not_mem_nil
  | cons i idents =>
    obtain ⟨hi, h⟩ := List.forall_mem_cons.1 h
    rw [Bytes.join_cons, List.mem_append, List.mem_flatMap]
    rintro (hplus | ⟨j, hj, hplus⟩)
    · exact (notMem_of_isIdent hi).2 hplus
    · rcases List.mem_append.1 hplus with hplus | hplus
      · exact absurd hplus (by decide)
      · exact (notMem_of_isIdent (h j hj)).2 hplus

theorem prerelease?_dash_cons (t : Bytes) : prerelease? (Byte.dash :: t) =
    if (Bytes.pieces Byte.dot (t.takeWhile (· != Byte.plus))).all isPreIdent then
      some (Bytes.pieces Byte.dot (t.takeWhile (· != Byte.plus)), t.dropWhile (· != Byte.plus))
    else none := rfl

theorem prerelease?_of_head_ne (h : t.head? ≠ some Byte.dash) : prerelease? t = some ([], t) := by
  rw [prerelease?.eq_def]
  split
  · exact absurd rfl h
  · rfl

/-- What follows the numbers is a pre-release and a build part. -/
theorem prerelease?_isBuild_iff {pre : List Bytes} :
    (∃ rest, prerelease? t = some (pre, rest) ∧ isBuild rest) ↔
      (∀ i ∈ pre, isPreIdent i) ∧
        ∃ build, (∀ i ∈ build, isIdent i) ∧ t = preText pre ++ buildText build := by
  simp only [isBuild_iff]
  constructor
  · rintro ⟨rest, h, build, hbuild, rfl⟩
    by_cases hhead : t.head? = some Byte.dash
    · obtain ⟨r, rfl⟩ := List.head?_eq_some_iff.1 hhead
      rw [prerelease?_dash_cons] at h
      split at h
      next hall =>
        obtain ⟨rfl, hrest⟩ := Prod.mk.inj (Option.some.inj h)
        refine ⟨List.all_eq_true.1 hall, build, hbuild, ?_⟩
        rw [preText_of_ne (Bytes.pieces_ne_nil _ _), join_pieces, ← hrest, List.cons_append,
          List.takeWhile_append_dropWhile]
      next => cases h
    · rw [prerelease?_of_head_ne hhead] at h
      cases h
      exact ⟨fun _ hi => absurd hi List.not_mem_nil, build, hbuild, rfl⟩
  · rintro ⟨hpre, build, hbuild, rfl⟩
    refine ⟨buildText build, ?_, build, hbuild, rfl⟩
    by_cases hne : pre = []
    · subst hne
      refine prerelease?_of_head_ne fun hhead => ?_
      cases head_buildText build _ hhead
    · have hident : ∀ i ∈ pre, isIdent i := fun i hi => isIdent_of_isPreIdent (hpre i hi)
      have hplus : ∀ b ∈ Bytes.join "." pre, (b != Byte.plus) = true := fun b hb =>
        bne_iff_ne.2 fun h => plus_notMem_join hident (h ▸ hb)
      have hhead : ∀ b ∈ (buildText build).head?, (b != Byte.plus) = false := fun b hb => by
        rw [head_buildText build b hb]
        rfl
      obtain ⟨htake, hdrop⟩ := Bytes.span_append hplus hhead
      rw [preText_of_ne hne, List.cons_append, prerelease?_dash_cons, htake, hdrop,
        pieces_join hne hident, if_pos (List.all_eq_true.2 hpre)]

/-! ## Reading versions -/

theorem numeral?_dot (n : Nat) (t : Bytes) :
    numeral? (Bytes.ofNat n ++ ("." ++ t)) = some (n, "." ++ t) := by
  refine numeral?_eq_some_iff.2 ⟨rfl, ?_⟩
  rintro _ ⟨rfl⟩
  rfl

theorem numeral?_end (n : Nat) : numeral? (Bytes.ofNat n) = some (n, []) :=
  numeral?_eq_some_iff.2 ⟨(List.append_nil _).symm, fun _ hb => absurd hb (Option.not_mem_none _)⟩

theorem numeral?_parts (n : Nat) (pre build : List Bytes) :
    numeral? (Bytes.ofNat n ++ (preText pre ++ buildText build)) =
      some (n, preText pre ++ buildText build) := by
  refine numeral?_eq_some_iff.2 ⟨rfl, ?_⟩
  cases pre with
  | nil =>
    intro b hb
    rw [head_buildText build b hb]
    rfl
  | cons i pre =>
    rintro _ ⟨rfl⟩
    rfl

theorem denotes_of_parse? {v : Version} (h : parse? t = some v) : Denotes t v := by
  simp only [parse?, Option.bind_eq_bind, Option.bind_eq_some_iff, Prod.exists] at h
  obtain ⟨major, t₁, hmajor, h⟩ := h
  obtain ⟨rfl, -⟩ := numeral?_eq_some_iff.1 hmajor
  split at h
  next hend =>
    cases h
    rw [List.isEmpty_iff.1 hend, List.append_nil]
    exact .major major
  next =>
    simp only [Option.bind_eq_some_iff, Prod.exists] at h
    obtain ⟨t₁, hdot, minor, t₂, hminor, h⟩ := h
    obtain rfl := Bytes.after?_eq_some_iff.1 hdot
    obtain ⟨rfl, -⟩ := numeral?_eq_some_iff.1 hminor
    split at h
    next hend =>
      cases h
      rw [List.isEmpty_iff.1 hend, List.append_nil, ← List.append_assoc]
      exact .minor major minor
    next =>
      simp only [Option.bind_eq_some_iff, Prod.exists] at h
      obtain ⟨t₂, hdot, patch, t₃, hpatch, pre, rest, hparts, h⟩ := h
      obtain rfl := Bytes.after?_eq_some_iff.1 hdot
      obtain ⟨rfl, -⟩ := numeral?_eq_some_iff.1 hpatch
      split at h
      next hrest =>
        cases h
        obtain ⟨hpre, build, hbuild, rfl⟩ := prerelease?_isBuild_iff.1 ⟨rest, hparts, hrest⟩
        have hpatch := Denotes.patch major minor patch hpre hbuild
        simpa only [numbersText, List.append_assoc] using hpatch
      next => cases h

theorem Denotes.parse?_eq {v : Version} (h : Denotes t v) : parse? t = some v := by
  have hafter : ∀ t, Bytes.after? "." ("." ++ t) = some t := fun t =>
    Bytes.after?_eq_some_iff.2 rfl
  have hdot : ∀ t : Bytes, ("." ++ t : Bytes).isEmpty = false := fun _ => rfl
  cases h with
  | major major =>
    simp only [parse?, numeral?_end]
    rfl
  | minor major minor =>
    rw [List.append_assoc]
    simp only [parse?, numeral?_dot, Option.bind_eq_bind, Option.bind_some, hdot, hafter,
      numeral?_end]
    rfl
  | @patch major minor patch pre build hpre hbuild =>
    obtain ⟨rest, hrest, hbuild⟩ := prerelease?_isBuild_iff.2 ⟨hpre, build, hbuild, rfl⟩
    simp only [numbersText, List.append_assoc]
    simp only [parse?, numeral?_dot, Option.bind_eq_bind, Option.bind_some, hdot, hafter,
      numeral?_parts, hrest, hbuild, if_true]
    rfl

/-- Reading accepts the texts that denote versions. -/
theorem parse?_eq_some_iff {v : Version} : parse? t = some v ↔ Denotes t v :=
  ⟨denotes_of_parse?, Denotes.parse?_eq⟩

theorem Denotes.exists_eq_cons {v : Version} (h : Denotes t v) :
    ∃ b s, t = b :: s ∧ Byte.isDigit b := by
  have hstart : ∀ n s, ∃ b s', Bytes.ofNat n ++ s = b :: s' ∧ Byte.isDigit b := by
    intro n s
    obtain ⟨b, s', heq⟩ := List.exists_cons_of_ne_nil (Bytes.ofNat_ne_nil n)
    exact ⟨b, s' ++ s, by rw [heq, List.cons_append],
      Bytes.isDigit_of_mem_ofNat n b (heq ▸ List.mem_cons_self)⟩
  cases h with
  | major major => simpa using hstart major []
  | minor major minor => simpa using hstart major ("." ++ Bytes.ofNat minor)
  | patch major minor patch hpre hbuild =>
    simp only [numbersText, List.append_assoc]
    exact hstart major _

theorem Denotes.isPreIdent {v : Version} (h : Denotes t v) : ∀ i ∈ v.pre, isPreIdent i := by
  cases h with
  | major | minor => exact fun _ hi => absurd hi List.not_mem_nil
  | patch major minor patch hpre hbuild => exact hpre

/-- The text of a version denotes it, after the `v` in front. -/
theorem Denotes.parse?_text {v : Version} (h : Denotes t v) :
    (Bytes.after? "v" v.text).bind parse? = some v := by
  have htext : v.text = "v" ++ (numbersText v.major v.minor v.patch ++ preText v.pre) := by
    simp only [text, numbersText, List.append_assoc]
  rw [htext, Bytes.after?_eq_some_iff.2 rfl]
  exact parse?_eq_some_iff.2 (Denotes.unbuilt v.major v.minor v.patch h.isPreIdent)

/-! ## The order of versions -/

/-- The numbers of a version, the first one being the most significant. -/
def numbers (v : Version) : ℕ ×ₗ ℕ ×ₗ ℕ := toLex (v.major, toLex (v.minor, v.patch))

/-- A version reaches a release if its numbers are not lower, except for pre-releases of the
    release itself. -/
theorem reaches_iff {v : Version} {major minor patch : Nat} : v.reaches major minor patch ↔
    toLex (major, toLex (minor, patch)) ≤ v.numbers ∧
      ¬(v.numbers = toLex (major, toLex (minor, patch)) ∧ v.pre ≠ []) := by
  simp only [numbers, Prod.Lex.toLex_le_toLex, toLex_inj, Prod.mk.injEq, reaches]
  split_ifs <;> grind

end Version

namespace Target

variable {target : Bytes} {v : Version}

/-- The target denotes a version, with or without a `v` in front. -/
def Denotes (target : Bytes) (v : Version) : Prop :=
  Version.Denotes target v ∨ ∃ t, target = "v" ++ t ∧ Version.Denotes t v

/-- The text of a target without a `v` in front is that of the version. -/
theorem denotes_iff :
    Denotes target v ↔ Version.Denotes ((Bytes.after? "v" target).getD target) v := by
  cases hafter : Bytes.after? "v" target with
  | none =>
    refine or_iff_left ?_
    rintro ⟨t, rfl, -⟩
    cases hafter.symm.trans (Bytes.after?_eq_some_iff.2 rfl)
  | some t =>
    obtain rfl := Bytes.after?_eq_some_iff.1 hafter
    constructor
    · rintro (h | ⟨t', heq, h⟩)
      · -- A version starts with a digit.
        obtain ⟨b, s, heq, hb⟩ := h.exists_eq_cons
        obtain ⟨rfl, -⟩ := List.cons.inj heq
        cases hb
      · rw [List.append_cancel_left heq]
        exact h
    · exact fun h => .inr ⟨t, rfl, h⟩

theorem version?_eq_ok_iff (hne : target ≠ []) :
    version? target = .ok (some v) ↔ Denotes target v := by
  rw [version?, if_neg (by simpa using hne), denotes_iff, ← Version.parse?_eq_some_iff]
  cases Version.parse? ((Bytes.after? "v" target).getD target) <;> simp

theorem version?_of_not_denotes (hne : target ≠ []) (h : ∀ v, ¬Denotes target v) :
    version? target = .error ⟨target⟩ := by
  rw [version?, if_neg (by simpa using hne)]
  cases hv : Version.parse? ((Bytes.after? "v" target).getD target) with
  | none => rfl
  | some v => exact absurd (denotes_iff.2 (Version.parse?_eq_some_iff.1 hv)) (h v)

/-- The first release for which bindings are written as attributes. -/
def since : ℕ ×ₗ ℕ ×ₗ ℕ := toLex (1, toLex (11, 0))

theorem exists_style_of_denotes (h : Denotes target v) : ∃ s, style target = .ok s ∧
    (s = .boundAttributes ↔ since ≤ v.numbers ∧ ¬(v.numbers = since ∧ v.pre ≠ [])) := by
  have hne : target ≠ [] := by
    rcases h with h | ⟨t, rfl, -⟩
    · obtain ⟨b, s, rfl, -⟩ := h.exists_eq_cons
      exact List.cons_ne_nil b s
    · exact List.cons_ne_nil _ t
  have hreaches : v.reaches 1 11 0 ↔ _ := Version.reaches_iff
  have htext : (Bytes.after? "v" v.text).bind Version.parse? = some v :=
    (denotes_iff.1 h).parse?_text
  have hcanonical : canonical target = .ok v.text :=
    bind_eq_ok_iff.2 ⟨some v, (version?_eq_ok_iff hne).2 h, rfl⟩
  refine ⟨_, bind_eq_ok_iff.2 ⟨v.text, hcanonical, rfl⟩, ?_⟩
  rw [since, ← hreaches, htext, Option.any_some]
  cases v.reaches 1 11 0 <;> simp

/-- Targets that denote the same version are written for in the same style. -/
theorem style_congr {target' : Bytes} (h : Denotes target v) (h' : Denotes target' v) :
    style target = style target' := by
  obtain ⟨s, hs, hiff⟩ := exists_style_of_denotes h
  obtain ⟨s', hs', hiff'⟩ := exists_style_of_denotes h'
  rw [hs, hs']
  have : s = .boundAttributes ↔ s' = .boundAttributes := hiff.trans hiff'.symm
  cases s <;> cases s' <;> simp_all

/-- The numbers of a target, as a triple in which the first is the most significant, decide with the
    pre-release how bindings are written. A `v`, a build part and numbers that are zero at the end
    make no difference. Whatever denotes no version is rejected on its own, by an encoder and by a
    compilation. -/
theorem style_iff_denotes :
    (∀ target v, Denotes target v → ∃ s, style target = .ok s ∧
      (s = .boundAttributes ↔ since ≤ v.numbers ∧ ¬(v.numbers = since ∧ v.pre ≠ []))) ∧
    (∀ t v, Version.Denotes t v → style ("v" ++ t) = style t) ∧
    (∀ major minor patch pre build, (∀ i ∈ pre, Version.isPreIdent i) →
      (∀ i ∈ build, Version.isIdent i) →
        style (Version.numbersText major minor patch ++ Version.preText pre ++
          Version.buildText build) =
        style (Version.numbersText major minor patch ++ Version.preText pre)) ∧
    (∀ major, style (Bytes.ofNat major ++ ".0") = style (Bytes.ofNat major)) ∧
    (∀ major minor, style (Bytes.ofNat major ++ "." ++ Bytes.ofNat minor ++ ".0") =
      style (Bytes.ofNat major ++ "." ++ Bytes.ofNat minor)) ∧
    ∀ target, target ≠ [] → (∀ v, ¬Denotes target v) →
      validate target = .error ⟨target⟩ ∧
      (∀ refusal, Encoder.new target refusal = .error ⟨target⟩) ∧
      ∀ file src, compile ⟨file, target⟩ src = .error (.target ⟨target⟩) := by
  refine ⟨fun target v => exists_style_of_denotes, fun t v h => ?_,
    fun major minor patch pre build hpre hbuild => ?_, fun major => ?_, fun major minor => ?_,
    fun target hne hnot => ?_⟩
  · exact style_congr (.inr ⟨t, rfl, h⟩) (.inl h)
  · exact style_congr (.inl (.patch major minor patch hpre hbuild))
      (.inl (.unbuilt major minor patch hpre))
  · have h := Version.Denotes.minor major 0
    rw [List.append_assoc] at h
    exact style_congr (.inl h) (.inl (.major major))
  · have h := Version.Denotes.release major minor 0
    rw [Version.numbersText, List.append_assoc _ (Bytes.ofString ".")] at h
    exact style_congr (.inl h) (.inl (.minor major minor))
  · have hversion := version?_of_not_denotes hne hnot
    have hstyle : style target = .error ⟨target⟩ := by
      rw [style, canonical, hversion]
      rfl
    refine ⟨?_, fun refusal => ?_, fun file src => compile_of_style_error hstyle src⟩
    · rw [validate, canonical, hversion]
      rfl
    · rw [Encoder.new, hstyle]
      rfl

/-- A pre-release of the first such release with a build part, a version without a patch number, and
    a number with a leading zero. -/
theorem style_iff_denotes_boundary :
    Denotes "v1.11.0-beta.2+b7" ⟨1, 11, 0, ["beta", "2"]⟩ ∧
      style "v1.11.0-beta.2+b7" ≠ .ok .boundAttributes ∧
      style ("v" ++ "1.9") = style "1.9" ∧
      compile ⟨[], "1.011"⟩ "%p" = .error (.target ⟨"1.011"⟩) := by
  have hbeta : Denotes "v1.11.0-beta.2+b7" ⟨1, 11, 0, ["beta", "2"]⟩ :=
    (version?_eq_ok_iff (by decide +kernel)).1 (by decide +kernel)
  have hshort : Version.Denotes "1.9" ⟨1, 9, 0, []⟩ :=
    Version.parse?_eq_some_iff.1 (by decide +kernel)
  have hzero : ∀ v, ¬Denotes "1.011" v := by
    intro v h
    have hnone : Version.parse? "1.011" = none := by decide +kernel
    cases hnone.symm.trans (Version.parse?_eq_some_iff.2 (denotes_iff.1 h))
  refine ⟨hbeta, fun hstyle => ?_, style_iff_denotes.2.1 _ _ hshort,
    (style_iff_denotes.2.2.2.2.2 "1.011" (by decide +kernel) hzero).2.2 [] "%p"⟩
  obtain ⟨s, hs, hiff⟩ := style_iff_denotes.1 _ _ hbeta
  cases hs.symm.trans hstyle
  exact (hiff.1 rfl).2 ⟨rfl, List.cons_ne_nil _ _⟩

end Target

end IndentMarkup
