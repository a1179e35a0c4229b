import IndentMarkup.Proofs.Location
import IndentMarkup.Proofs.WellFormed

/-!
# How attribute groups are cut into tokens

The tokens of a group are found by a scanner that looks at one byte after the other. Here they are
said without it. A token is *well formed* if its text is one that its kind admits
(`Token.WellFormed`), and a text is *cut* into tokens if these follow each other from the beginning
on, each as long as it can be, up to a place where no token fits (`Token.Cut`). The scanner cuts
every text (`Token.cut_scan`), and there is no other way to do so (`Token.Cut.scan_eq`).

The text of a quoted literal goes up to the next quote of the same kind that no backslash takes
with it (`ClosesQuote`).
-/

namespace IndentMarkup

/-- A run of bytes that satisfy `p` is cut off in front of a byte that does not. -/
theorem Bytes.span_append {p : UInt8 → Bool} {s t : Bytes} (hs : ∀ b ∈ s, p b)
    (ht : ∀ b ∈ t.head?, p b = false) :
    (s ++ t).takeWhile p = s ∧ (s ++ t).dropWhile p = t := by
  rw [List.takeWhile_append_of_pos hs, List.dropWhile_append_of_pos hs]
  cases t with
  | nil => simp
  | cons b t => simp [ht b rfl]

theorem Bytes.not_head_dropWhile (p : UInt8 → Bool) (t : Bytes) :
    ∀ b ∈ (t.dropWhile p).head?, p b = false := by
  intro b hb
  have := List.head?_dropWhile_not p t
  rw [Option.mem_def.1 hb] at this
  simpa using this

/-! ## Quoted literals -/

/-- The rest of a quoted text after its opening quote `q`: it goes up to the next `q` that no
    backslash takes with it. A backslash takes one byte with it, which has to satisfy `p`. -/
inductive ClosesQuote (p : UInt8 → Prop) (q : UInt8) : Bytes → Prop
  /-- The closing quote. -/
  | close : ClosesQuote p q [q]
  /-- A backslash and the byte after it. -/
  | escape {c : UInt8} {t : Bytes} (hc : p c) (h : ClosesQuote p q t) :
      ClosesQuote p q (Byte.backslash :: c :: t)
  /-- Any other byte. -/
  | plain {b : UInt8} {t : Bytes} (hq : b ≠ q) (hb : b ≠ Byte.backslash) (h : ClosesQuote p q t) :
      ClosesQuote p q (b :: t)

variable {q : UInt8} {t body rest : Bytes}

theorem Byte.ne_backslash_of_isQuote (h : Byte.isQuote q) : q ≠ Byte.backslash := by
  rintro rfl
  exact absurd h (by decide)

/-- A backslash may take any byte of the text with it, if all of them satisfy `p'`. -/
theorem ClosesQuote.mono {p p' : UInt8 → Prop} (h : ClosesQuote p q body) (hp : ∀ b ∈ body, p' b) :
    ClosesQuote p' q body := by
  induction h with
  | close => exact .close
  | escape _ _ ih =>
    simp only [List.forall_mem_cons] at hp
    exact .escape hp.2.1 (ih hp.2.2)
  | plain hq hb _ ih => exact .plain hq hb (ih (List.forall_mem_cons.1 hp).2)

theorem closeQuote?_cons {b : UInt8} (hb : b ≠ Byte.backslash) :
    closeQuote? q (b :: t) =
      if b = q then some ([b], t) else (closeQuote? q t).map fun r => (b :: r.1, r.2) := by
  cases t with
  | nil => simp [closeQuote?]
  | cons c t => rw [closeQuote?, if_neg hb]

theorem closeQuote?_append (hq : q ≠ Byte.backslash) (h : ClosesQuote (· ≠ Byte.lf) q body)
    (rest : Bytes) : closeQuote? q (body ++ rest) = some (body, rest) := by
  induction h with
  | close =>
    rw [List.singleton_append, closeQuote?_cons hq, if_pos rfl]
  | escape hc _ ih =>
    rw [List.cons_append, List.cons_append, closeQuote?, if_neg (Ne.symm hq), if_pos rfl,
      if_neg hc, ih]
    rfl
  | plain hne hb _ ih =>
    rw [List.cons_append, closeQuote?_cons hb, if_neg hne, ih]
    rfl

theorem closesQuote_of_closeQuote? (h : closeQuote? q t = some (body, rest)) :
    ClosesQuote (· ≠ Byte.lf) q body := by
  fun_induction closeQuote? q t generalizing body with
  | case1 => cases h
  | case2 =>
    cases h
    exact .close
  | case3 => cases h
  | case4 =>
    cases h
    exact .close
  | case5 => cases h
  | case6 c t hc _ ih =>
    obtain ⟨⟨body', rest'⟩, hr, he⟩ := Option.map_eq_some_iff.1 h
    cases he
    exact .escape hc (ih hr)
  | case7 b c t hq hb ih =>
    obtain ⟨⟨body', rest'⟩, hr, he⟩ := Option.map_eq_some_iff.1 h
    cases he
    exact .plain hq hb (ih hr)

namespace Token

/-! ## Single tokens -/

/-- The text of the token is one that its kind admits. -/
def WellFormed : Token → Prop
  | literal t => ∃ q body, Byte.isQuote q ∧ t = q :: body ∧ ClosesQuote (· ≠ Byte.lf) q body
  | assign => True
  | word t => t.MadeOf isWordByte
  | gap t => t.MadeOf isGapByte

/-- A word, or white space, does not go on after the token. -/
def StopsAt (rest : Bytes) : Token → Prop
  | word _ => ∀ b ∈ rest.head?, isWordByte b = false
  | gap _ => ∀ b ∈ rest.head?, isGapByte b = false
  | literal _ | assign => True

variable {k : Token} {ks : List Token} {left : Bytes}

theorem isWordByte_iff {b : UInt8} :
    isWordByte b ↔ isGapByte b = false ∧ b ≠ Byte.eq ∧ Byte.isQuote b = false := by
  simp [isWordByte, and_assoc]

theorem not_isQuote_of_isGapByte {b : UInt8} (h : isGapByte b) :
    Byte.isQuote b = false ∧ b ≠ Byte.eq := by
  simp only [isGapByte, Bool.or_eq_true, beq_iff_eq] at h
  rcases h with (((rfl | rfl) | rfl) | rfl) | rfl <;> decide

/-- The first token of a text is the only one that fits there and is as long as it can be. -/
theorem next?_append (hk : k.WellFormed) (hrest : k.StopsAt rest) :
    next? (k.text ++ rest) = some (k, rest) := by
  cases k with
  | literal t =>
    obtain ⟨q, body, hq, rfl, hbody⟩ := hk
    rw [text, List.cons_append, next?, if_pos hq,
      closeQuote?_append (Byte.ne_backslash_of_isQuote hq) hbody]
    rfl
  | assign => rfl
  | word t =>
    obtain ⟨hne, ht⟩ := hk
    obtain ⟨b, t, rfl⟩ := List.exists_cons_of_ne_nil hne
    obtain ⟨hb, ht⟩ := List.forall_mem_cons.1 ht
    obtain ⟨hgap, heq, hquote⟩ := isWordByte_iff.1 hb
    obtain ⟨htake, hdrop⟩ := Bytes.span_append ht hrest
    rw [text, List.cons_append, next?, if_neg (by simp [hquote]), if_neg heq,
      if_neg (by simp [hgap]), htake, hdrop]
  | gap t =>
    obtain ⟨hne, ht⟩ := hk
    obtain ⟨b, t, rfl⟩ := List.exists_cons_of_ne_nil hne
    obtain ⟨hb, ht⟩ := List.forall_mem_cons.1 ht
    obtain ⟨hquote, heq⟩ := not_isQuote_of_isGapByte hb
    obtain ⟨htake, hdrop⟩ := Bytes.span_append ht hrest
    rw [text, List.cons_append, next?, if_neg (by simp [hquote]), if_neg heq, if_pos hb, htake,
      hdrop]

theorem wellFormed_of_next? (h : next? t = some (k, rest)) : k.WellFormed ∧ k.StopsAt rest := by
  cases t with
  | nil => cases h
  | cons b t =>
    rw [next?] at h
    split_ifs at h with hquote heq hgap
    · obtain ⟨⟨body, rest'⟩, hr, he⟩ := Option.map_eq_some_iff.1 h
      cases he
      exact ⟨⟨b, body, hquote, rfl, closesQuote_of_closeQuote? hr⟩, trivial⟩
    · cases h
      exact ⟨trivial, trivial⟩
    · cases h
      exact ⟨Bytes.madeOf_cons_takeWhile hgap t, Bytes.not_head_dropWhile _ t⟩
    · cases h
      have hb : isWordByte b := isWordByte_iff.2 ⟨by simpa using hgap, heq, by simpa using hquote⟩
      exact ⟨Bytes.madeOf_cons_takeWhile hb t, Bytes.not_head_dropWhile _ t⟩

/-- Only a quote can stop the scanner. -/
theorem next?_cons_ne_none {b : UInt8} (hb : Byte.isQuote b = false) (t : Bytes) :
    next? (b :: t) ≠ none := by
  rw [next?, if_neg (by simp [hb])]
  split_ifs <;> exact Option.some_ne_none _

/-- There is no first token exactly where none fits, whatever follows it. -/
theorem next?_eq_none_iff :
    next? t = none ↔ ∀ k rest, WellFormed k → t ≠ k.text ++ rest := by
  constructor
  · rintro h k rest hk rfl
    cases k with
    | literal s =>
      rw [next?_append hk trivial] at h
      cases h
    | assign => cases h
    | word s =>
      -- The word may go on in `rest`, which does not change that it is one.
      obtain ⟨b, s, rfl⟩ := List.exists_cons_of_ne_nil hk.1
      exact next?_cons_ne_none (isWordByte_iff.1 (hk.2 b List.mem_cons_self)).2.2 _ h
    | gap s =>
      obtain ⟨b, s, rfl⟩ := List.exists_cons_of_ne_nil hk.1
      exact next?_cons_ne_none (not_isQuote_of_isGapByte (hk.2 b List.mem_cons_self)).1 _ h
  · intro h
    rw [Option.eq_none_iff_forall_ne_some]
    rintro ⟨k, rest⟩ hk
    exact h k rest (wellFormed_of_next? hk).1 (text_append_of_next? hk).symm

/-! ## Whole texts -/

/-- A text is cut into tokens and what is left of it, where no further token fits. -/
inductive Cut : Bytes → List Token → Bytes → Prop
  /-- No token fits. -/
  | stop {t : Bytes} (h : ∀ k rest, WellFormed k → t ≠ k.text ++ rest) : Cut t [] t
  /-- The first token is as long as it can be. -/
  | cons {k : Token} {rest : Bytes} {ks : List Token} {left : Bytes} (hk : k.WellFormed)
      (hrest : k.StopsAt rest) (h : Cut rest ks left) : Cut (k.text ++ rest) (k :: ks) left

theorem scan_of_next?_none (h : next? t = none) : scan t = ([], t) := by
  rw [scan]
  split
  · rfl
  · rename_i h'
    cases h.symm.trans h'

theorem scan_of_next? (h : next? t = some (k, rest)) :
    scan t = (k :: (scan rest).1, (scan rest).2) := by
  rw [scan]
  split
  · rename_i h'
    cases h.symm.trans h'
  · rename_i h'
    cases h.symm.trans h'
    rfl

theorem scan_append (hk : k.WellFormed) (hrest : k.StopsAt rest) :
    scan (k.text ++ rest) = (k :: (scan rest).1, (scan rest).2) :=
  scan_of_next? (next?_append hk hrest)

/-- The scanner cuts a text into tokens. -/
theorem cut_scan (t : Bytes) : Cut t (scan t).1 (scan t).2 := by
  fun_induction scan t with
  | case1 t h => exact .stop (next?_eq_none_iff.1 h)
  | case2 t k rest h _ r ih =>
    obtain ⟨hk, hrest⟩ := wellFormed_of_next? h
    rw [← text_append_of_next? h]
    exact .cons hk hrest ih

/-- There is one way to cut a text into tokens, the one that the scanner finds. -/
theorem Cut.scan_eq (h : Cut t ks left) : scan t = (ks, left) := by
  induction h with
  | stop h => exact scan_of_next?_none (next?_eq_none_iff.2 h)
  | cons hk hrest _ ih => rw [scan_append hk hrest, ih]

theorem Cut.wellFormed (h : Cut t ks left) : ∀ k ∈ ks, k.WellFormed := by
  induction h with
  | stop => exact fun _ hk => absurd hk List.not_mem_nil
  | cons hk _ _ ih => exact List.forall_mem_cons.2 ⟨hk, ih⟩

/-! ## Places of tokens -/

@[simp] theorem map_snd_locate (off : Nat) (ks : List Token) :
    (locate off ks).map Prod.snd = ks := by
  induction ks generalizing off with
  | nil => rfl
  | cons k ks ih => rw [locate, List.map_cons, ih]

theorem locate_append (off : Nat) (ks ks' : List Token) :
    locate off (ks ++ ks') =
      locate off ks ++ locate (off + (ks.flatMap text).length) ks' := by
  induction ks generalizing off with
  | nil => rfl
  | cons k ks ih =>
    rw [List.cons_append, locate, locate, ih, List.flatMap_cons, List.length_append,
      Nat.add_assoc, List.cons_append]

theorem le_of_mem_locate {off : Nat} {x : Nat × Token} (h : x ∈ locate off ks) : off ≤ x.1 := by
  induction ks generalizing off with
  | nil => cases h
  | cons k ks ih =>
    rcases List.mem_cons.1 h with rfl | h
    · exact Nat.le_refl _
    · exact Nat.le_trans (Nat.le_add_right _ _) (ih h)

/-- The tokens that are no white space, with their offsets. -/
def marked (ks : List Token) : List (Nat × Token) := (locate 0 ks).filter (!·.2.isGap)

@[simp] theorem map_snd_marked (ks : List Token) :
    (marked ks).map Prod.snd = ks.filter (!·.isGap) := by
  conv_rhs => rw [← map_snd_locate 0 ks, List.filter_map]
  rfl

end Token

end IndentMarkup
