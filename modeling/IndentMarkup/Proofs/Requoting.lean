import Mathlib.Data.List.Flatten
import Mathlib.Data.List.Infix
import IndentMarkup.Proofs.Assignments

/-!
# Bindings that are read again

A quoted value is written between quotes of one kind, with a backslash before those of this kind in
it (`Attribute.exists_helperValue_eq`). Other backslashes are written as they are, although reading
may take them for the beginning of an escape. It does not for values that are *clean*
(`Bytes.IsClean`): written bindings are read as they were if all their quoted values are clean, and
no other value is read as it was (`Attribute.parse_join_helperText`).

That nothing else is clean is shown on the literal that reading finds at the beginning of what is
written: it denotes no more bytes than the value has, and all of them only if the value is clean
(`fallsShort_of_closesQuote`). That a value is not found behind this literal is shown by the bytes
other than backslashes, of which no reading makes more (`Attribute.solid_le_of_parse`).
-/

namespace IndentMarkup

variable {q b : UInt8} {t v : Bytes}

/-! ## Clean texts -/

namespace Bytes

/-- The bytes on which a backslash before them has an effect. -/
def actives : List UInt8 := [Byte.backslash, Byte.squote, Byte.dquote, Byte.lf]

/-- No backslash in the text is its last byte, or directly before an active one. -/
def IsClean (v : Bytes) : Prop :=
  ¬[Byte.backslash] <:+ v ∧ ∀ c ∈ actives, ¬[Byte.backslash, c] <:+: v

instance (v : Bytes) : Decidable v.IsClean := inferInstanceAs (Decidable (_ ∧ _))

theorem isClean_nil : IsClean [] := by simp [IsClean]

theorem isClean_cons_iff :
    IsClean (b :: v) ↔ (b = Byte.backslash → ∃ c ∈ v.head?, c ∉ actives) ∧ IsClean v := by
  have hlast : [Byte.backslash] <:+ b :: v ↔
      (b = Byte.backslash ∧ v = []) ∨ [Byte.backslash] <:+ v := by
    rw [List.suffix_cons_iff, List.cons.injEq, @eq_comm _ _ b, @eq_comm _ _ v]
  have hpair : ∀ c, [Byte.backslash, c] <:+: b :: v ↔
      (b = Byte.backslash ∧ c ∈ v.head?) ∨ [Byte.backslash, c] <:+: v := by
    intro c
    rw [List.infix_cons_iff, List.cons_prefix_cons, @eq_comm _ _ b]
    cases v with
    | nil => simp
    | cons d v => simp [eq_comm]
  have hhead : (b = Byte.backslash → ∃ c ∈ v.head?, c ∉ actives) ↔
      ¬(b = Byte.backslash ∧ v = []) ∧ ∀ c ∈ actives, ¬(b = Byte.backslash ∧ c ∈ v.head?) := by
    cases v with
    | nil => simp
    | cons d v => by_cases hb : b = Byte.backslash <;> simp [hb, List.forall_mem_ne]
  simp only [IsClean, hlast, hpair, hhead, not_or, imp_and, forall_and]
  exact and_and_and_comm

theorem isClean_cons_of_ne (hb : b ≠ Byte.backslash) : IsClean (b :: v) ↔ IsClean v := by
  rw [isClean_cons_iff, and_iff_right fun h => absurd h hb]

/-- A backslash in a clean text is there with the byte after it. -/
theorem isClean_backslash_cons_iff :
    IsClean (Byte.backslash :: v) ↔ ∃ c w, v = c :: w ∧ c ∉ actives ∧ IsClean w := by
  rw [isClean_cons_iff]
  cases v with
  | nil => simp
  | cons c v =>
    have hclean : c ∉ actives → (IsClean (c :: v) ↔ IsClean v) := fun hc =>
      isClean_cons_of_ne fun h => hc (h ▸ by decide)
    simpa using hclean

/-- Clean texts are made of bytes other than backslashes, and of backslashes with the byte after
    them. -/
@[elab_as_elim]
theorem IsClean.induct {motive : (v : Bytes) → v.IsClean → Prop} (nil : motive [] isClean_nil)
    (plain : ∀ b v (hb : b ≠ Byte.backslash) (hv : IsClean v), motive v hv →
      motive (b :: v) ((isClean_cons_of_ne hb).2 hv))
    (kept : ∀ c v (hc : c ∉ actives) (hv : IsClean v), motive v hv →
      motive (Byte.backslash :: c :: v) (isClean_backslash_cons_iff.2 ⟨c, v, rfl, hc, hv⟩))
    {v : Bytes} (hv : v.IsClean) : motive v hv := by
  induction hn : v.length using Nat.strong_induction_on generalizing v with
  | _ n ih =>
    cases v with
    | nil => exact nil
    | cons b v =>
      rw [List.length_cons] at hn
      by_cases hb : b = Byte.backslash
      · subst hb
        obtain ⟨c, w, rfl, hc, hw⟩ := isClean_backslash_cons_iff.1 hv
        rw [List.length_cons] at hn
        exact kept c w hc hw (ih w.length (by omega) hw rfl)
      · have hv := (isClean_cons_of_ne hb).1 hv
        exact plain b v hb hv (ih v.length (by omega) hv rfl)

/-! ## Escapes -/

theorem replace_cons (r : Bytes) (c : UInt8) (t : Bytes) :
    replace b r (c :: t) = (if c = b then r else [c]) ++ replace b r t := List.flatMap_cons

theorem replace_of_notMem (h : b ∉ t) (r : Bytes) : replace b r t = t := by
  induction t with
  | nil => rfl
  | cons c t ih =>
    rw [List.mem_cons, not_or] at h
    rw [replace_cons, if_neg (Ne.symm h.1), ih h.2, List.singleton_append]

end Bytes

/-- The text with a backslash before every `q`. -/
def escapeQuote (q : UInt8) (v : Bytes) : Bytes := Bytes.replace q [Byte.backslash, q] v

@[simp] theorem escapeQuote_nil : escapeQuote q [] = [] := rfl

theorem escapeQuote_cons_self :
    escapeQuote q (q :: v) = Byte.backslash :: q :: escapeQuote q v := by
  rw [escapeQuote, Bytes.replace_cons, if_pos rfl]
  rfl

theorem escapeQuote_cons_of_ne (hb : b ≠ q) : escapeQuote q (b :: v) = b :: escapeQuote q v := by
  rw [escapeQuote, Bytes.replace_cons, if_neg hb]
  rfl

theorem unescape_cons (hb : b ≠ Byte.backslash) : unescape (b :: t) = b :: unescape t := by
  cases t with
  | nil => rfl
  | cons c t => rw [unescape, if_neg fun h => hb h.1]

theorem unquote_concat (hq : Byte.isQuote q) (s : Bytes) :
    unquote (q :: (s ++ [q])) = unescape s := by
  rw [unquote, if_pos ⟨hq, by simp⟩, List.dropLast_concat]

theorem ClosesQuote.exists_eq_concat {p : UInt8 → Prop} {body : Bytes} (h : ClosesQuote p q body) :
    ∃ s, body = s ++ [q] := by
  induction h with
  | close => exact ⟨[], rfl⟩
  | escape _ _ ih =>
    obtain ⟨s, rfl⟩ := ih
    exact ⟨_ :: _ :: s, rfl⟩
  | plain _ _ _ ih =>
    obtain ⟨s, rfl⟩ := ih
    exact ⟨_ :: s, rfl⟩

theorem Bytes.notMem_actives_iff :
    b ∉ actives ↔ b ≠ Byte.backslash ∧ Byte.isQuote b = false ∧ b ≠ Byte.lf := by
  simp only [actives, Byte.isQuote, List.mem_cons, List.not_mem_nil, or_false, not_or,
    Bool.or_eq_false_iff, beq_eq_false_iff_ne, ne_eq]
  exact and_congr_right fun _ => by rw [← and_assoc, and_comm (a := ¬b = Byte.squote)]

/-- A clean text between quotes is one literal. -/
theorem closesQuote_of_isClean (hq : Byte.isQuote q) (hv : v.IsClean) :
    ClosesQuote (· ≠ Byte.lf) q (escapeQuote q v ++ [q]) := by
  have hlf : q ≠ Byte.lf := by
    rintro rfl
    exact absurd hq (by decide)
  induction hv using Bytes.IsClean.induct with
  | nil => exact .close
  | plain b v hb _ ih =>
    by_cases hbq : b = q
    · rw [hbq, escapeQuote_cons_self]
      exact .escape hlf ih
    · rw [escapeQuote_cons_of_ne hbq]
      exact .plain hbq hb ih
  | kept c v hc _ ih =>
    obtain ⟨-, hquote, hclf⟩ := Bytes.notMem_actives_iff.1 hc
    have hcq : c ≠ q := fun h => by simp [h, hq] at hquote
    rw [escapeQuote_cons_of_ne (Byte.ne_backslash_of_isQuote hq).symm, escapeQuote_cons_of_ne hcq]
    exact .escape hclf ih

theorem unescape_of_isClean (hq : Byte.isQuote q) (hv : v.IsClean) :
    unescape (escapeQuote q v) = v := by
  induction hv using Bytes.IsClean.induct with
  | nil => rfl
  | plain b v hb _ ih =>
    by_cases hbq : b = q
    · rw [hbq, escapeQuote_cons_self, unescape, if_pos ⟨rfl, .inl hq⟩, ih]
    · rw [escapeQuote_cons_of_ne hbq, unescape_cons hb, ih]
  | kept c v hc _ ih =>
    obtain ⟨hslash, hquote, -⟩ := Bytes.notMem_actives_iff.1 hc
    have hcq : c ≠ q := fun h => by simp [h, hq] at hquote
    rw [escapeQuote_cons_of_ne (Byte.ne_backslash_of_isQuote hq).symm, escapeQuote_cons_of_ne hcq,
      unescape, if_neg (by simp [hquote, hslash]), unescape_cons hslash, ih]

/-- A literal is closed by the first quote of its kind. -/
theorem ClosesQuote.eq_nil {p : UInt8 → Prop} (hq : q ≠ Byte.backslash)
    (h : ClosesQuote p q (q :: t)) : t = [] := by
  cases h with
  | close => rfl
  | escape => exact absurd rfl hq
  | plain hne => exact absurd rfl hne

/-- The inside of a literal denotes no more bytes than there are in a text, and it denotes the text
    only if that is clean. -/
structure FallsShort (s v : Bytes) : Prop where
  length_le : (unescape s).length ≤ v.length
  isClean : unescape s = v → v.IsClean

namespace FallsShort

variable {s : Bytes} {c : UInt8}

theorem nil (v : Bytes) : FallsShort [] v where
  length_le := Nat.zero_le _
  isClean h := h ▸ Bytes.isClean_nil

theorem plain (hb : b ≠ Byte.backslash) (h : FallsShort s v) : FallsShort (b :: s) (b :: v) where
  length_le := by
    rw [unescape_cons hb]
    exact Nat.succ_le_succ h.length_le
  isClean heq := by
    rw [unescape_cons hb, List.cons.injEq] at heq
    exact (Bytes.isClean_cons_of_ne hb).2 (h.isClean heq.2)

theorem escaped (hq : Byte.isQuote q) (h : FallsShort s v) :
    FallsShort (Byte.backslash :: q :: s) (q :: v) where
  length_le := by
    rw [unescape, if_pos ⟨rfl, .inl hq⟩]
    exact Nat.succ_le_succ h.length_le
  isClean heq := by
    rw [unescape, if_pos ⟨rfl, .inl hq⟩, List.cons.injEq] at heq
    exact (Bytes.isClean_cons_of_ne (Byte.ne_backslash_of_isQuote hq)).2 (h.isClean heq.2)

/-- A backslash of the text is kept before a byte that is not active. Before others it is taken off,
    and the literal denotes less than the text. -/
theorem backslash (hc : c ≠ Byte.lf) (h : FallsShort s v) :
    FallsShort (Byte.backslash :: c :: s) (Byte.backslash :: c :: v) := by
  by_cases hact : Byte.isQuote c ∨ c = Byte.backslash
  · have hlt : (unescape (Byte.backslash :: c :: s)).length <
        (Byte.backslash :: c :: v).length := by
      rw [unescape, if_pos ⟨rfl, hact⟩]
      exact Nat.succ_lt_succ (Nat.lt_succ_of_le h.length_le)
    exact ⟨Nat.le_of_lt hlt, fun heq => absurd (congrArg List.length heq) (Nat.ne_of_lt hlt)⟩
  · obtain ⟨hquote, hslash⟩ := not_or.1 hact
    have heq : unescape (Byte.backslash :: c :: s) = Byte.backslash :: c :: unescape s := by
      rw [unescape, if_neg fun h => hact h.2, unescape_cons hslash]
    refine ⟨heq ▸ Nat.succ_le_succ (Nat.succ_le_succ h.length_le), fun h' => ?_⟩
    rw [heq, List.cons.injEq, List.cons.injEq] at h'
    exact Bytes.isClean_backslash_cons_iff.2 ⟨c, v, rfl,
      Bytes.notMem_actives_iff.2 ⟨hslash, by simpa using hquote, hc⟩, h.isClean h'.2.2⟩

/-- The backslash before a quote is taken for the second of two, and the quote closes the
    literal. -/
theorem closed (c : UInt8) (v : Bytes) :
    FallsShort [Byte.backslash, Byte.backslash] (Byte.backslash :: c :: v) := by
  refine ⟨by simp [unescape], fun h => ?_⟩
  simp [unescape] at h

end FallsShort

/-- The literal at the beginning of what is written for a text falls short of it. -/
theorem fallsShort_of_closesQuote (hq : Byte.isQuote q) {s rest : Bytes}
    (h : ClosesQuote (· ≠ Byte.lf) q (s ++ [q])) (hv : escapeQuote q v ++ [q] = s ++ [q] ++ rest) :
    FallsShort s v := by
  generalize hbody : s ++ [q] = body at h hv
  have hqs := Byte.ne_backslash_of_isQuote hq
  induction h generalizing s v with
  | close =>
    obtain rfl : s = [] := by simpa using hbody
    exact .nil v
  | @plain b t hbq hb h ih =>
    obtain ⟨s', rfl⟩ := h.exists_eq_concat
    obtain rfl : s = b :: s' := List.append_cancel_right hbody
    cases v with
    | nil => simp [Ne.symm hbq] at hv
    | cons d v =>
      by_cases hdq : d = q
      · subst hdq
        simp [escapeQuote_cons_self, Ne.symm hb] at hv
      · simp only [escapeQuote_cons_of_ne hdq, List.cons_append, List.cons.injEq] at hv
        obtain ⟨rfl, hv⟩ := hv
        exact .plain hb (ih rfl hv)
  | @escape c t hc h ih =>
    obtain ⟨s', rfl⟩ := h.exists_eq_concat
    obtain rfl : s = Byte.backslash :: c :: s' := List.append_cancel_right hbody
    cases v with
    | nil => simp [hqs] at hv
    | cons b v =>
      by_cases hbq : b = q
      · subst hbq
        simp only [escapeQuote_cons_self, List.cons_append, List.cons.injEq, true_and] at hv
        obtain ⟨rfl, hv⟩ := hv
        exact .escaped hq (ih rfl hv)
      · simp only [escapeQuote_cons_of_ne hbq, List.cons_append, List.cons.injEq] at hv
        obtain ⟨rfl, hv⟩ := hv
        cases v with
        | nil => simp at hv
        | cons d v =>
          by_cases hdq : d = q
          · subst hdq
            simp only [escapeQuote_cons_self, List.cons_append, List.cons.injEq] at hv
            obtain ⟨rfl, hv⟩ := hv
            obtain rfl : s' = [] := by
              cases s' with
              | nil => rfl
              | cons e s' =>
                obtain ⟨rfl, -⟩ := List.cons.inj hv
                simpa using h.eq_nil hqs
            exact .closed d v
          · simp only [escapeQuote_cons_of_ne hdq, List.cons_append, List.cons.injEq] at hv
            obtain ⟨rfl, hv⟩ := hv
            exact .backslash hc (ih rfl hv)

/-! ## Literals for all values -/

/-- The text between two quotes `q`, with a backslash before those in it and before backslashes. -/
def literalOf (q : UInt8) (v : Bytes) : Bytes :=
  q :: (escapeQuote q (Bytes.replace Byte.backslash [Byte.backslash, Byte.backslash] v) ++ [q])

/-- The doubled backslashes and those before quotes are all that reading takes off. -/
theorem closesQuote_literalOf (hq : Byte.isQuote q) (v : Bytes) :
    ∃ s, literalOf q v = q :: (s ++ [q]) ∧ ClosesQuote (· ≠ Byte.lf) q (s ++ [q]) ∧
      unescape s = v := by
  have hqs := Byte.ne_backslash_of_isQuote hq
  have hlf : q ≠ Byte.lf := by
    rintro rfl
    exact absurd hq (by decide)
  refine ⟨_, rfl, ?_⟩
  induction v with
  | nil => exact ⟨.close, rfl⟩
  | cons b v ih =>
    obtain ⟨hcloses, heq⟩ := ih
    rw [Bytes.replace_cons]
    by_cases hb : b = Byte.backslash
    · rw [if_pos hb, List.cons_append, List.cons_append, List.nil_append,
        escapeQuote_cons_of_ne hqs.symm, escapeQuote_cons_of_ne hqs.symm, unescape,
        if_pos ⟨rfl, .inr rfl⟩, heq, hb]
      exact ⟨.escape (by decide) hcloses, rfl⟩
    · rw [if_neg hb, List.singleton_append]
      by_cases hbq : b = q
      · rw [hbq, escapeQuote_cons_self, unescape, if_pos ⟨rfl, .inl hq⟩, heq]
        exact ⟨.escape hlf hcloses, rfl⟩
      · rw [escapeQuote_cons_of_ne hbq, unescape_cons hb, heq]
        exact ⟨.plain hbq hb hcloses, rfl⟩

/-! ## Solid bytes -/

/-- The number of bytes other than backslashes. -/
def solid (t : Bytes) : Nat := t.countP (· != Byte.backslash)

@[simp] theorem solid_append (s t : Bytes) : solid (s ++ t) = solid s + solid t :=
  List.countP_append

@[simp] theorem solid_cons (b : UInt8) (t : Bytes) :
    solid (b :: t) = (if b = Byte.backslash then 0 else 1) + solid t := by
  rw [solid, List.countP_cons, solid, Nat.add_comm]
  simp

@[simp] theorem solid_unescape (t : Bytes) : solid (unescape t) = solid t := by
  fun_induction unescape t with
  | case1 => rfl
  | case2 => rfl
  | case3 b c t h ih => simp [ih, h.1]
  | case4 b c t h ih => rw [solid_cons, ih, solid_cons b]

theorem solid_escapeQuote (hq : q ≠ Byte.backslash) (v : Bytes) :
    solid (escapeQuote q v) = solid v := by
  induction v with
  | nil => rfl
  | cons b v ih =>
    by_cases hb : b = q
    · simp [hb, escapeQuote_cons_self, ih, hq]
    · rw [escapeQuote_cons_of_ne hb, solid_cons, ih, solid_cons b]

namespace Attribute

variable {a : Attribute} {as : List Attribute} {part ks : List Token}

/-! ## Written bindings -/

/-- A quoted value is written between quotes of one kind, with a backslash before those in it. -/
theorem exists_helperValue_eq (h : a.quoted) :
    ∃ q, Byte.isQuote q ∧ a.helperValue = q :: (escapeQuote q a.value ++ [q]) := by
  rw [helperValue, if_neg (by simp [h])]
  by_cases hd : Byte.dquote ∈ a.value
  · rw [if_neg (not_not.2 hd)]
    by_cases hs : Byte.squote ∈ a.value
    · rw [if_neg (not_not.2 hs)]
      exact ⟨Byte.dquote, rfl, rfl⟩
    · rw [if_pos hs]
      refine ⟨Byte.squote, rfl, ?_⟩
      rw [escapeQuote, Bytes.replace_of_notMem hs]
      rfl
  · rw [if_pos hd]
    refine ⟨Byte.dquote, rfl, ?_⟩
    rw [escapeQuote, Bytes.replace_of_notMem hd]
    rfl

/-- An attribute is written with as many bytes other than backslashes as it was read from. -/
theorem solid_of_assigns (h : Assigns a part) (hpart : ∀ k ∈ part, k.WellFormed) :
    solid a.helperText = solid (part.flatMap Token.text) := by
  cases h with
  | bare key value => simp [helperText, helperValue, Token.text]
  | quoted key text =>
    obtain ⟨q, body, hq, rfl, hbody⟩ := hpart (.literal text) (by simp)
    obtain ⟨s, rfl⟩ := hbody.exists_eq_concat
    rw [unquote_concat hq]
    obtain ⟨q', hq', hvalue⟩ := exists_helperValue_eq (a := ⟨key, unescape s, true⟩) rfl
    have hqs := Byte.ne_backslash_of_isQuote hq
    have hqs' := Byte.ne_backslash_of_isQuote hq'
    rw [helperText, hvalue]
    simp [Token.text, hqs, hqs', solid_escapeQuote hqs']

theorem solid_of_assignsAll (h : AssignsAll as ks) (hks : ∀ k ∈ ks, k.WellFormed) :
    solid (as.flatMap helperText) = solid (ks.flatMap Token.text) := by
  induction as generalizing ks with
  | nil =>
    rw [assignsAll_nil_iff.1 h]
    rfl
  | cons a as ih =>
    obtain ⟨part, ks', ha, has, rfl⟩ := assignsAll_cons_iff.1 h
    obtain ⟨hpart, hks'⟩ := List.forall_mem_append.1 hks
    rw [List.flatMap_cons, solid_append, solid_of_assigns ha hpart, ih has hks',
      List.flatMap_append, solid_append]

/-- The attributes of a group are not written with more bytes other than backslashes than there are
    in the group. -/
theorem solid_le_of_parse (h : parse t = .ok as) :
    solid (as.flatMap helperText) ≤ solid t := by
  obtain ⟨hleft, has⟩ := parse_eq_ok_iff.1 h
  have ht := Token.flatMap_text_scan t
  rw [hleft, List.append_nil] at ht
  have hwf := (Token.cut_scan t).wellFormed
  rw [solid_of_assignsAll has fun k hk => hwf k (List.mem_of_mem_filter hk)]
  conv_rhs => rw [← ht]
  exact (List.filter_sublist.flatMap _).countP_le

/-! ## Written bindings as tokens -/

theorem scan_key {key : Bytes} (hkey : key.MadeOf isWordByte) (t : Bytes) :
    Token.scan (key ++ "=" ++ t) =
      (.word key :: .assign :: (Token.scan t).1, (Token.scan t).2) := by
  have hword : (Token.word key).WellFormed := hkey
  have hstop : (Token.word key).StopsAt (Token.assign.text ++ t) := by
    rintro _ ⟨rfl⟩
    rfl
  rw [List.append_assoc]
  exact (Token.scan_append hword hstop).trans
    (by rw [Token.scan_append (k := .assign) trivial trivial])

/-- A literal after a key is the value of an attribute, and what follows it is read on its own. -/
theorem parse_literal_append {key lit rest : Bytes} (hkey : key.MadeOf isWordByte)
    (hlit : (Token.literal lit).WellFormed) :
    parse (key ++ "=" ++ (lit ++ rest)) = .ok as ↔
      ∃ as', as = ⟨key, unquote lit, true⟩ :: as' ∧ parse rest = .ok as' := by
  have hscan : Token.scan (lit ++ rest) =
      (.literal lit :: (Token.scan rest).1, (Token.scan rest).2) := Token.scan_append hlit trivial
  have hfilter : ∀ ks : List Token, (.word key :: .assign :: .literal lit :: ks).filter (!·.isGap) =
      [.word key, .assign, .literal lit] ++ ks.filter (!·.isGap) := fun _ => rfl
  rw [parse_eq_ok_iff, scan_key hkey, hscan, hfilter]
  simp only [parse_eq_ok_iff (t := rest)]
  constructor
  · rintro ⟨hleft, has⟩
    cases as with
    | nil => cases assignsAll_nil_iff.1 has
    | cons a as =>
      -- The first attribute takes three tokens, and the third of them is the literal.
      obtain ⟨part, ks, ha, has, heq⟩ := assignsAll_cons_iff.1 has
      cases ha with
      | bare => simp at heq
      | quoted key' lit' =>
        simp only [List.cons_append, List.nil_append, List.cons.injEq, Token.word.injEq,
          Token.literal.injEq, true_and] at heq
        obtain ⟨rfl, rfl, rfl⟩ := heq
        exact ⟨as, rfl, hleft, has⟩
  · rintro ⟨as', rfl, hleft, has⟩
    exact ⟨hleft, assignsAll_cons_iff.2 ⟨_, _, .quoted key lit, has, rfl⟩⟩

theorem parse_nil : parse [] = .ok [] := by
  rw [parse_of_scan (Token.scan_of_next?_none rfl)]
  rfl

/-- A literal is the value of an attribute. -/
theorem parse_key_literal {key lit : Bytes} (hkey : key.MadeOf isWordByte)
    (hlit : (Token.literal lit).WellFormed) :
    parse (key ++ "=" ++ lit) = .ok [⟨key, unquote lit, true⟩] := by
  have hparse := (parse_literal_append hkey hlit).2 ⟨[], rfl, parse_nil⟩
  rwa [List.append_nil] at hparse

theorem parse_literal {key s : Bytes} (hkey : key.MadeOf isWordByte) (hq : Byte.isQuote q)
    (hs : ClosesQuote (· ≠ Byte.lf) q (s ++ [q])) :
    parse (key ++ "=" ++ q :: (s ++ [q])) = .ok [⟨key, unescape s, true⟩] := by
  rw [parse_key_literal hkey ⟨q, _, hq, rfl, hs⟩, unquote_concat hq]

/-- The value of an attribute as it is written is one token, if it is clean. -/
theorem exists_token (ha : a.WellFormed) (hclean : a.quoted → a.value.IsClean) :
    ∃ k : Token, k.WellFormed ∧ k.text = a.helperValue ∧ k.isGap = false ∧
      Assigns a [.word a.key, .assign, k] ∧
      ∀ rest : Bytes, (∀ b ∈ rest.head?, isWordByte b = false) → k.StopsAt rest := by
  obtain ⟨key, value, quoted⟩ := a
  cases quoted with
  | false => exact ⟨.word value, ha.value rfl, rfl, rfl, .bare key value, fun _ h => h⟩
  | true =>
    obtain ⟨q, hq, heq⟩ := exists_helperValue_eq (a := ⟨key, value, true⟩) rfl
    have hassigns := Assigns.quoted key (q :: (escapeQuote q value ++ [q]))
    rw [unquote_concat hq, unescape_of_isClean hq (hclean rfl)] at hassigns
    exact ⟨.literal _, ⟨q, _, hq, rfl, closesQuote_of_isClean hq (hclean rfl)⟩, heq.symm, rfl,
      hassigns, fun _ _ => trivial⟩

/-- The attributes as arguments of a helper, each after a space. -/
def spacedTexts (as : List Attribute) : Bytes := as.flatMap fun a => Byte.space :: a.helperText

theorem join_helperText (a : Attribute) (as : List Attribute) :
    Bytes.join " " ((a :: as).map helperText) = a.helperText ++ spacedTexts as := by
  rw [List.map_cons, Bytes.join_cons, List.flatMap_map]
  rfl

theorem stopsAt_spacedTexts (as : List Attribute) :
    ∀ b ∈ (spacedTexts as).head?, isWordByte b = false := by
  cases as with
  | nil => exact fun _ hb => absurd hb (Option.not_mem_none _)
  | cons a as =>
    rintro _ ⟨rfl⟩
    rfl

/-- A binding is read as it was, in front of others that are. -/
theorem assignsAll_helperText_append (ha : a.WellFormed) (hclean : a.quoted → a.value.IsClean)
    (hks : Token.scan (spacedTexts as) = (ks, [])) (has : AssignsAll as (ks.filter (!·.isGap))) :
    ∃ ks', Token.scan (a.helperText ++ spacedTexts as) = (ks', []) ∧
      AssignsAll (a :: as) (ks'.filter (!·.isGap)) := by
  obtain ⟨k, hk, htext, hgap, hassigns, hstop⟩ := exists_token ha hclean
  refine ⟨.word a.key :: .assign :: k :: ks, ?_, ?_⟩
  · rw [helperText, ← htext, List.append_assoc, scan_key ha.key,
      Token.scan_append hk (hstop _ (stopsAt_spacedTexts as)), hks]
  · refine assignsAll_cons_iff.2 ⟨_, _, hassigns, has, ?_⟩
    rw [List.filter_cons_of_pos rfl, List.filter_cons_of_pos rfl,
      List.filter_cons_of_pos (by rw [hgap]; rfl)]
    rfl

theorem assignsAll_spacedTexts (has : ∀ a ∈ as, a.WellFormed ∧ (a.quoted → a.value.IsClean)) :
    ∃ ks, Token.scan (spacedTexts as) = (ks, []) ∧ AssignsAll as (ks.filter (!·.isGap)) := by
  induction as with
  | nil => exact ⟨[], Token.scan_of_next?_none rfl, assignsAll_nil_iff.2 rfl⟩
  | cons a as ih =>
    obtain ⟨⟨ha, hclean⟩, has⟩ := List.forall_mem_cons.1 has
    obtain ⟨ks, hks, hassigns⟩ := ih has
    obtain ⟨ks', hks', hassigns'⟩ := assignsAll_helperText_append ha hclean hks hassigns
    have hgap : (Token.gap [Byte.space]).WellFormed := ⟨by simp, by decide +kernel⟩
    have hstop : (Token.gap [Byte.space]).StopsAt (a.helperText ++ spacedTexts as) := by
      obtain ⟨c, cs, hc⟩ := List.exists_cons_of_ne_nil ha.key.1
      rw [helperText, hc]
      rintro _ ⟨rfl⟩
      exact (Token.isWordByte_iff.1 (ha.key.2 c (by simp [hc]))).1
    refine ⟨.gap [Byte.space] :: ks', ?_, ?_⟩
    · exact (Token.scan_append hgap hstop).trans (by rw [hks'])
    · rwa [List.filter_cons_of_neg (by decide)]

/-- Bindings with a space between each two of them are read as they were, if they are clean. -/
theorem parse_of_isClean (has : ∀ a ∈ as, a.WellFormed ∧ (a.quoted → a.value.IsClean)) :
    parse (Bytes.join " " (as.map helperText)) = .ok as := by
  cases as with
  | nil => exact parse_nil
  | cons a as =>
    obtain ⟨⟨ha, hclean⟩, has⟩ := List.forall_mem_cons.1 has
    obtain ⟨ks, hks, hassigns⟩ := assignsAll_spacedTexts has
    obtain ⟨ks', hks', hassigns'⟩ := assignsAll_helperText_append ha hclean hks hassigns
    rw [join_helperText, parse_eq_ok_iff, hks']
    exact ⟨rfl, hassigns'⟩

/-- An attribute that is read from its own text is the only one. -/
theorem eq_singleton_of_parse (h : parse a.helperText = .ok as) (ha : a ∈ as) : as = [a] := by
  obtain ⟨s, t, rfl⟩ := List.append_of_mem ha
  have hle := solid_le_of_parse h
  have hpos : ∀ bs : List Attribute, bs.length ≤ solid (bs.flatMap helperText) := by
    intro bs
    induction bs with
    | nil => exact Nat.le_refl 0
    | cons b bs ih =>
      have heq : 1 ≤ solid b.helperText := by
        have : solid ("=" : Bytes) = 1 := rfl
        simp only [helperText, solid_append, this]
        omega
      rw [List.flatMap_cons, solid_append, List.length_cons]
      omega
  have hs := hpos s
  have ht := hpos t
  rw [List.flatMap_append, List.flatMap_cons, solid_append, solid_append] at hle
  obtain rfl : s = [] := List.length_eq_zero_iff.1 (by omega)
  obtain rfl : t = [] := List.length_eq_zero_iff.1 (by omega)
  rfl

/-- The literal that a written value starts with, if there is one, falls short of the value. -/
theorem fallsShort_of_next? (hquoted : a.quoted) {k : Token} {rest : Bytes}
    (h : Token.next? a.helperValue = some (k, rest)) :
    ∃ q s, Byte.isQuote q ∧ k = .literal (q :: (s ++ [q])) ∧ FallsShort s a.value := by
  obtain ⟨q, hq, hvalue⟩ := exists_helperValue_eq hquoted
  rw [hvalue, Token.next?, if_pos hq] at h
  obtain ⟨⟨body, rest'⟩, hclose, he⟩ := Option.map_eq_some_iff.1 h
  cases he
  have hcloses := closesQuote_of_closeQuote? hclose
  obtain ⟨s, rfl⟩ := hcloses.exists_eq_concat
  exact ⟨q, s, hq, rfl, fallsShort_of_closesQuote hq hcloses (eq_of_closeQuote? hclose)⟩

/-- A value that is read from its own text is clean. -/
theorem isClean_of_parse (hkey : a.key.MadeOf isWordByte) (hquoted : a.quoted)
    (h : parse a.helperText = .ok [a]) : a.value.IsClean := by
  obtain ⟨-, hassigns⟩ := parse_eq_ok_iff.1 h
  rw [helperText, scan_key hkey, List.filter_cons_of_pos rfl, List.filter_cons_of_pos rfl]
    at hassigns
  obtain ⟨part, ks, ha, -, heq⟩ := assignsAll_cons_iff.1 hassigns
  cases hnext : Token.next? a.helperValue with
  | none =>
    rw [Token.scan_of_next?_none hnext] at heq
    cases ha <;> simp at heq
  | some r =>
    obtain ⟨q, s, hq, hk, hshort⟩ := fallsShort_of_next? hquoted hnext
    rw [Token.scan_of_next? hnext, hk, List.filter_cons_of_pos rfl] at heq
    cases ha with
    | bare => cases hquoted
    | quoted key text =>
      simp only [List.cons_append, List.cons.injEq, Token.literal.injEq, true_and] at heq
      obtain ⟨rfl, -⟩ := heq
      exact hshort.isClean (unquote_concat hq s).symm

/-- Written bindings are read as they were exactly if their quoted values are clean: all bindings of
    a list are, and none with a value that is not clean, such as one with a backslash at its end,
    although there is a literal for it. -/
theorem parse_join_helperText :
    (∀ as : List Attribute, (∀ a ∈ as, a.WellFormed ∧ (a.quoted → a.value.IsClean)) →
      parse (Bytes.join " " (as.map helperText)) = .ok as) ∧
    (∀ a : Attribute, a.key.MadeOf isWordByte → a.quoted → ¬a.value.IsClean →
      ∀ as, parse a.helperText = .ok as → a ∉ as) ∧
    ∀ a : Attribute, a.key.MadeOf isWordByte → a.quoted → [Byte.backslash] <:+ a.value →
      parse (a.key ++ "=" ++ literalOf Byte.dquote a.value) = .ok [a] ∧
        ∀ as, parse a.helperText = .ok as → a ∉ as := by
  have hunclean : ∀ a : Attribute, a.key.MadeOf isWordByte → a.quoted → ¬a.value.IsClean →
      ∀ as, parse a.helperText = .ok as → a ∉ as := by
    intro a hkey hquoted hclean as h ha
    rw [eq_singleton_of_parse h ha] at h
    exact hclean (isClean_of_parse hkey hquoted h)
  refine ⟨fun as has => parse_of_isClean has, hunclean, fun a hkey hquoted hlast => ⟨?_, ?_⟩⟩
  · obtain ⟨s, hs, hcloses, hvalue⟩ := closesQuote_literalOf (q := Byte.dquote) rfl a.value
    rw [hs, parse_literal hkey rfl hcloses, hvalue, ← hquoted]
  · exact hunclean a hkey hquoted fun hclean => hclean.1 hlast

instance (a : Attribute) : Decidable a.WellFormed :=
  decidable_of_iff (a.key.MadeOf isWordByte ∧ (a.quoted = false → a.value.MadeOf isWordByte))
    ⟨fun h => ⟨h.1, h.2⟩, fun h => ⟨h.key, h.value⟩⟩

/-- A value with both quotes, one with a backslash that stands for itself and a bare one with an
    equal key, then a value with a backslash before a quote, and one with a backslash at its end. -/
theorem parse_join_helperText_mixed :
    parse (Bytes.join " " (([⟨"class", "say \"it's\"", true⟩, ⟨"match", "\\d='", true⟩,
      ⟨"class", "a:b", false⟩] : List Attribute).map helperText)) =
        .ok [⟨"class", "say \"it's\"", true⟩, ⟨"match", "\\d='", true⟩, ⟨"class", "a:b", false⟩] ∧
      (∀ as, parse (helperText ⟨"quote", "\\'", true⟩) = .ok as → ⟨"quote", "\\'", true⟩ ∉ as) ∧
      parse ("dir" ++ "=" ++ literalOf Byte.dquote "C:\\") = .ok [⟨"dir", "C:\\", true⟩] ∧
      ∀ as, parse (helperText ⟨"dir", "C:\\", true⟩) = .ok as → ⟨"dir", "C:\\", true⟩ ∉ as :=
  ⟨parse_join_helperText.1 _ (by decide +kernel),
    parse_join_helperText.2.1 ⟨"quote", "\\'", true⟩ (by decide +kernel) rfl (by decide +kernel),
    parse_join_helperText.2.2 ⟨"dir", "C:\\", true⟩ (by decide +kernel) rfl (by decide +kernel)⟩

end Attribute

end IndentMarkup
