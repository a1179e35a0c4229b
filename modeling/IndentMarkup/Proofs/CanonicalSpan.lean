import IndentMarkup.Proofs.Span
import Mathlib.Data.List.Chain
import Mathlib.Data.List.Infix

/-!
# Spans that texts denote

A span is read from the text that it is written as exactly if it is *canonical*
(`Span.IsCanonical`): its literals are not empty, hold no `#{` and are never next to each other,
and its expressions are not blank and have braces in pairs. So reading is a bijection between the
texts that denote a span and the canonical spans, and writing is its inverse
(`Span.parse_inverse_source`).

Two scanners are at work. One looks for the first `#{`, which a literal must not hold
(`Span.cutOpening_append`). The other counts braces from there on: it stops at the first one that
closes more than was opened, so the braces before that one come in pairs
(`closingBrace_append`, `closes_of_closingBrace`).
-/

namespace IndentMarkup

/-! ## Braces -/

/-- The braces in a text come in pairs: all that are opened are closed, and nowhere are more of
    them closed than opened. -/
structure Bytes.HasBracePairs (t : Bytes) : Prop where
  closed : t.count Byte.rbrace = t.count Byte.lbrace
  opened : ∀ s, s <+: t → s.count Byte.rbrace ≤ s.count Byte.lbrace

/-- A text leaves one of `depth` open braces open, and nowhere in it all of them are closed. -/
def Closes (depth : Int) (t : Bytes) : Prop :=
  depth + t.count Byte.lbrace = t.count Byte.rbrace + 1 ∧
    ∀ s, s <+: t → (s.count Byte.rbrace : Int) < depth + s.count Byte.lbrace

theorem closes_one_iff {t : Bytes} : Closes 1 t ↔ t.HasBracePairs := by
  constructor
  · rintro ⟨hall, hsome⟩
    refine ⟨by omega, fun s hs => ?_⟩
    have := hsome s hs
    omega
  · rintro ⟨hall, hsome⟩
    refine ⟨by omega, fun s hs => ?_⟩
    have := hsome s hs
    omega

theorem closes_nil_iff {depth : Int} : Closes depth [] ↔ depth = 1 := by
  constructor
  · rintro ⟨hall, -⟩
    simpa using hall
  · rintro rfl
    exact closes_one_iff.2 ⟨rfl, fun s hs => by rw [List.prefix_nil.1 hs]; exact Nat.le_refl _⟩

/-- The number of open braces after a byte, less that before it. -/
def braceStep (b : UInt8) : Int :=
  if b = Byte.lbrace then 1 else if b = Byte.rbrace then -1 else 0

@[simp] theorem braceStep_lbrace : braceStep Byte.lbrace = 1 := rfl

@[simp] theorem braceStep_rbrace : braceStep Byte.rbrace = -1 := rfl

theorem count_cons_braces (b : UInt8) (t : Bytes) :
    ((b :: t).count Byte.lbrace : Int) - (b :: t).count Byte.rbrace =
      braceStep b + (t.count Byte.lbrace - t.count Byte.rbrace) := by
  have hne : Byte.lbrace ≠ Byte.rbrace := by decide
  rw [braceStep, List.count_cons, List.count_cons]
  split_ifs with hl hr <;> simp_all <;> omega

theorem closes_cons_iff {depth : Int} {b : UInt8} {t : Bytes} :
    Closes depth (b :: t) ↔ 0 < depth ∧ Closes (depth + braceStep b) t := by
  have hcount := count_cons_braces b
  constructor
  · rintro ⟨hall, hsome⟩
    have hnil := hsome [] List.nil_prefix
    have := hcount t
    refine ⟨by simpa using hnil, by omega, fun s hs => ?_⟩
    have hcons := hsome (b :: s) (List.cons_prefix_cons.2 ⟨rfl, hs⟩)
    have := hcount s
    omega
  · rintro ⟨hpos, hall, hsome⟩
    have := hcount t
    refine ⟨by omega, fun s hs => ?_⟩
    rcases List.prefix_cons_iff.1 hs with rfl | ⟨s, rfl, hst⟩
    · simpa using hpos
    · have := hsome s hst
      have := hcount s
      omega

theorem closingBrace_cons (depth : Int) (b : UInt8) (t : Bytes) :
    closingBrace depth (b :: t) =
      if b = Byte.rbrace ∧ depth = 1 then some 0
      else (closingBrace (depth + braceStep b) t).map (· + 1) := by
  rw [closingBrace]
  by_cases hl : b = Byte.lbrace
  · subst hl
    rw [if_pos rfl, if_neg (fun h => absurd h.1 (by decide)), braceStep_lbrace]
  · by_cases hr : b = Byte.rbrace
    · subst hr
      rw [if_neg hl, if_pos rfl, braceStep_rbrace, Int.sub_eq_add_neg]
      by_cases hone : depth = 1
      · rw [if_pos hone, if_pos ⟨rfl, hone⟩]
      · rw [if_neg hone, if_neg (hone ∘ And.right)]
    · rw [if_neg hl, if_neg hr, if_neg (hr ∘ And.left), braceStep, if_neg hl, if_neg hr,
        Int.add_zero]

/-- The brace after a text that leaves one brace open is the closing one. -/
theorem closingBrace_append {depth : Int} {t : Bytes} (h : Closes depth t) (rest : Bytes) :
    closingBrace depth (t ++ Byte.rbrace :: rest) = some t.length := by
  induction t generalizing depth with
  | nil =>
    obtain rfl := closes_nil_iff.1 h
    rfl
  | cons b t ih =>
    obtain ⟨hpos, h⟩ := closes_cons_iff.1 h
    have hgo : ¬(b = Byte.rbrace ∧ depth = 1) := by
      rintro ⟨rfl, rfl⟩
      -- With the last one closed, there is none left open where `t` starts.
      have := h.2 [] List.nil_prefix
      simp at this
    rw [List.cons_append, closingBrace_cons, if_neg hgo, ih h]
    rfl

/-- The text before the closing brace leaves one brace open. -/
theorem closes_of_closingBrace {depth : Int} {t : Bytes} {n : Nat} (hdepth : 0 < depth)
    (h : closingBrace depth t = some n) : Closes depth (t.take n) := by
  induction t generalizing depth n with
  | nil => cases h
  | cons b t ih =>
    rw [closingBrace_cons] at h
    split_ifs at h with hstop
    · cases h
      exact closes_nil_iff.2 hstop.2
    · obtain ⟨m, hm, rfl⟩ := Option.map_eq_some_iff.1 h
      have hpos : 0 < depth + braceStep b := by
        rw [braceStep]
        split_ifs with hl hr
        · omega
        · have : depth ≠ 1 := fun hone => hstop ⟨hr, hone⟩
          omega
        · omega
      exact closes_cons_iff.2 ⟨hdepth, ih hpos hm⟩

/-! ## Literals -/

/-- No expression starts in the text. -/
def Bytes.IsLiteral (t : Bytes) : Prop := ¬[Byte.hash, Byte.lbrace] <:+: t

theorem Bytes.isLiteral_cons_cons {b c : UInt8} {t : Bytes} :
    IsLiteral (b :: c :: t) ↔ ¬(b = Byte.hash ∧ c = Byte.lbrace) ∧ IsLiteral (c :: t) := by
  rw [IsLiteral, List.infix_cons_iff, not_or, List.cons_prefix_cons, List.cons_prefix_cons,
    IsLiteral]
  simp [eq_comm]

theorem Bytes.isLiteral_of_length {t : Bytes} (h : t.length < 2) : t.IsLiteral := fun hin =>
  absurd hin.length_le (Nat.not_le.2 h)

theorem Bytes.isLiteral_nil : IsLiteral [] := isLiteral_of_length Nat.two_pos

namespace Span

theorem fst_cutOpening_cons (c : UInt8) (t : Bytes) :
    (cutOpening (c :: t)).1 = [] ∨ ∃ u, (cutOpening (c :: t)).1 = c :: u := by
  cases t with
  | nil => exact .inr ⟨[], rfl⟩
  | cons d t =>
    rw [cutOpening]
    split_ifs
    · exact .inl rfl
    · exact .inr ⟨_, rfl⟩

theorem isLiteral_of_cutOpening (t : Bytes) : (cutOpening t).1.IsLiteral := by
  fun_induction cutOpening t with
  | case1 | case2 | case3 => exact Bytes.isLiteral_of_length (by simp)
  | case4 b c t hbc r ih =>
    rcases fst_cutOpening_cons c t with hr | ⟨u, hr⟩
    · exact Bytes.isLiteral_of_length (by simp [r, hr])
    · simp only [r, hr] at ih ⊢
      exact Bytes.isLiteral_cons_cons.2 ⟨hbc, ih⟩

theorem cutOpening_of_isLiteral {t : Bytes} (h : t.IsLiteral) : cutOpening t = (t, none) := by
  fun_induction cutOpening t with
  | case1 => rfl
  | case2 => rfl
  | case3 b c t hbc => exact absurd hbc (Bytes.isLiteral_cons_cons.1 h).1
  | case4 b c t hbc r ih =>
    have := ih (Bytes.isLiteral_cons_cons.1 h).2
    simp [r, this]

/-- An expression starts right after a literal, even if the literal ends with a hash sign. -/
theorem cutOpening_append {t : Bytes} (h : t.IsLiteral) (rest : Bytes) :
    cutOpening (t ++ Byte.hash :: Byte.lbrace :: rest) = (t, some rest) := by
  induction t with
  | nil => rfl
  | cons b t ih =>
    cases t with
    | nil =>
      have hb : ¬(b = Byte.hash ∧ Byte.hash = Byte.lbrace) := fun hb => absurd hb.2 (by decide)
      simp only [List.cons_append, List.nil_append]
      rw [cutOpening, if_neg hb]
      rfl
    | cons c t =>
      obtain ⟨hbc, h⟩ := Bytes.isLiteral_cons_cons.1 h
      have := ih h
      rw [List.cons_append] at this
      rw [List.cons_append, List.cons_append, cutOpening, if_neg hbc, this]

end Span

/-! ## Canonical spans -/

/-- A segment of which a text with other segments around it may consist: a literal that is not
    empty and in which no expression starts, or an expression that is not blank and has its braces
    in pairs. -/
def Segment.IsCanonical : Segment → Prop
  | literal t => t ≠ [] ∧ t.IsLiteral
  | interpolation v => v.trim ≠ [] ∧ v.HasBracePairs

/-- Whether a segment is literal text. -/
def Segment.isLiteral : Segment → Bool
  | literal _ => true
  | interpolation _ => false

namespace Span

/-- A span that a text denotes. -/
structure IsCanonical (s : Span) : Prop where
  segments : ∀ x ∈ s, x.IsCanonical
  separate : s.IsChain fun x y => ¬(x.isLiteral ∧ y.isLiteral)

variable {s : Span} {t v : Bytes}

theorem isCanonical_nil : IsCanonical [] := ⟨fun _ hx => absurd hx List.not_mem_nil, .nil⟩

theorem IsCanonical.tail {x : Segment} (h : IsCanonical (x :: s)) : s.IsCanonical :=
  ⟨fun y hy => h.segments y (List.mem_cons_of_mem x hy), h.separate.tail⟩

theorem isCanonical_interpolation_cons (hv : (Segment.interpolation v).IsCanonical)
    (h : s.IsCanonical) : IsCanonical (.interpolation v :: s) := by
  refine ⟨List.forall_mem_cons.2 ⟨hv, h.segments⟩, ?_⟩
  exact List.isChain_cons.2 ⟨fun _ _ hlit => absurd hlit.1 Bool.false_ne_true, h.separate⟩

theorem isCanonical_literal_cons (ht : (Segment.literal t).IsCanonical) (h : s.IsCanonical)
    (hs : ∀ x ∈ s.head?, x.isLiteral = false) : IsCanonical (.literal t :: s) := by
  refine ⟨List.forall_mem_cons.2 ⟨ht, h.segments⟩, ?_⟩
  refine List.isChain_cons.2 ⟨fun x hx hlit => ?_, h.separate⟩
  exact Bool.false_ne_true ((hs x hx).symm.trans hlit.2)

theorem ofLiteral_append_of_ne (ht : t ≠ []) (s : Span) : ofLiteral t ++ s = .literal t :: s := by
  rw [ofLiteral, if_neg (by simpa using ht)]
  rfl

/-- Spans as they are read: literal text, which may be empty, and then nothing, or an expression
    and what is read after it. -/
inductive IsRead : Span → Prop
  /-- There is no expression. -/
  | last {t : Bytes} (ht : t.IsLiteral) : IsRead (ofLiteral t)
  /-- There is an expression. -/
  | cons {t v : Bytes} {s : Span} (ht : t.IsLiteral) (hv : (Segment.interpolation v).IsCanonical)
      (hs : IsRead s) : IsRead (ofLiteral t ++ .interpolation v :: s)

theorem IsRead.isCanonical (h : s.IsRead) : s.IsCanonical := by
  induction h with
  | @last t ht =>
    by_cases hne : t = []
    · rw [hne]
      exact isCanonical_nil
    · rw [← List.append_nil (ofLiteral t), ofLiteral_append_of_ne hne]
      exact isCanonical_literal_cons ⟨hne, ht⟩ isCanonical_nil (by simp)
  | @cons t v s ht hv hs ih =>
    have hcons := isCanonical_interpolation_cons hv ih
    by_cases hne : t = []
    · rw [hne]
      exact hcons
    · rw [ofLiteral_append_of_ne hne]
      exact isCanonical_literal_cons ⟨hne, ht⟩ hcons (by simp [Segment.isLiteral])

/-- A literal that is not empty comes last, or before an expression. -/
theorem IsRead.literal_cons (ht : t.IsLiteral) (hs : s.IsRead)
    (hhead : ∀ x ∈ s.head?, x.isLiteral = false) : IsRead (ofLiteral t ++ s) := by
  have hempty : ∀ {u : Bytes} {s' : Span}, s = ofLiteral u ++ s' → ofLiteral u = [] := by
    rintro u s' rfl
    by_contra hne
    have hu : u ≠ [] := fun hu => hne (by rw [hu]; rfl)
    rw [ofLiteral_append_of_ne hu] at hhead
    exact absurd (hhead _ rfl) (by simp [Segment.isLiteral])
  cases hs with
  | @last u hu =>
    rw [hempty (List.append_nil _).symm, List.append_nil]
    exact .last ht
  | @cons u v s' hu hv hs' =>
    rw [hempty rfl, List.nil_append]
    exact .cons ht hv hs'

theorem IsCanonical.isRead (h : s.IsCanonical) : s.IsRead := by
  induction s with
  | nil => exact .last Bytes.isLiteral_nil
  | cons x s ih =>
    have hx := h.segments x List.mem_cons_self
    cases x with
    | interpolation v => exact .cons Bytes.isLiteral_nil hx (ih h.tail)
    | literal t =>
      rw [← ofLiteral_append_of_ne hx.1]
      refine .literal_cons hx.2 (ih h.tail) fun y hy => ?_
      exact Bool.eq_false_iff.2 fun hlit => (List.isChain_cons.1 h.separate).1 y hy ⟨rfl, hlit⟩

/-! ## Reading and writing -/

theorem isRead_of_parseFrom {off : Nat} (h : parseFrom off t = .ok s) : s.IsRead := by
  fun_induction parseFrom off t generalizing s with
  | case1 off t lit hcut =>
    cases h
    have hlit := isLiteral_of_cutOpening t
    rw [hcut] at hlit
    exact .last hlit
  | case2 | case3 => cases h
  | case4 off t lit rest hcut start n hn value next hv _ =>
    rename_i ih
    obtain ⟨tail, htail, h⟩ := bind_eq_ok_iff.1 h
    cases h
    have hlit := isLiteral_of_cutOpening t
    rw [hcut] at hlit
    have hpairs := closes_one_iff.1 (closes_of_closingBrace Int.one_pos hn)
    exact .cons hlit ⟨by simpa using hv, hpairs⟩ (ih htail)

theorem parseFrom_ofLiteral (ht : t.IsLiteral) (off : Nat) :
    parseFrom off t = .ok (ofLiteral t) := by
  rw [parseFrom]
  split
  next lit hcut =>
    rw [cutOpening_of_isLiteral ht] at hcut
    cases hcut
    rfl
  next lit rest hcut =>
    rw [cutOpening_of_isLiteral ht] at hcut
    cases hcut

/-- An expression is read after the literal before it, and then what comes after it. -/
theorem parseFrom_append (ht : t.IsLiteral) (hv : (Segment.interpolation v).IsCanonical)
    (off : Nat) (rest : Bytes) :
    parseFrom off (t ++ ((Segment.interpolation v).source ++ rest)) =
      (parseFrom (off + t.length + v.length + 3) rest >>= fun tail =>
        .ok (ofLiteral t ++ .interpolation v :: tail)) := by
  have hsource : (Segment.interpolation v).source ++ rest =
      Byte.hash :: Byte.lbrace :: (v ++ Byte.rbrace :: rest) := by
    rw [Segment.source, List.append_assoc]
    exact List.append_assoc _ _ _
  have hclose := closingBrace_append (closes_one_iff.2 hv.2) rest
  have hcut := cutOpening_append ht (v ++ Byte.rbrace :: rest)
  rw [hsource, parseFrom]
  split
  next lit hcut' =>
    rw [hcut] at hcut'
    cases hcut'
  next lit rest' hcut' =>
    rw [hcut] at hcut'
    cases hcut'
    have hdrop : (v ++ Byte.rbrace :: rest).drop (v.length + 1) = rest := by simp
    have hblank : ¬v.trim.isEmpty := fun hempty => hv.1 (List.isEmpty_iff.1 hempty)
    simp only [hclose, List.take_left, hdrop, if_neg hblank]
    rfl

theorem parseFrom_source (h : s.IsRead) (off : Nat) : parseFrom off s.source = .ok s := by
  induction h generalizing off with
  | last ht =>
    rw [source_ofLiteral]
    exact parseFrom_ofLiteral ht off
  | cons ht hv hs ih =>
    rw [source_append, source_ofLiteral, source_cons, parseFrom_append ht hv, ih]
    rfl

/-- Reading and writing are inverse to each other, between the texts that denote a span and the
    canonical spans: a span that is read is canonical and is written as the text it is read from,
    and a canonical span is read from the text that it is written as. So there is no span exactly
    for the texts as which no canonical span is written. -/
theorem parse_inverse_source :
    (∀ t s, parse t = .ok s → s.source = t ∧ s.IsCanonical) ∧
    (∀ s : Span, s.IsCanonical → parse s.source = .ok s) ∧
    ∀ t, (∃ e, parse t = .error e) ↔ ∀ s : Span, s.IsCanonical → s.source ≠ t := by
  have hread : ∀ t s, parse t = .ok s → s.source = t ∧ s.IsCanonical := fun t s h =>
    ⟨source_of_parseFrom h, (isRead_of_parseFrom h).isCanonical⟩
  have hwrite : ∀ s : Span, s.IsCanonical → parse s.source = .ok s := fun s h =>
    parseFrom_source h.isRead 0
  refine ⟨hread, hwrite, fun t => ⟨?_, fun h => ?_⟩⟩
  · rintro ⟨e, he⟩ s hs rfl
    cases he.symm.trans (hwrite s hs)
  · cases ht : parse t with
    | error e => exact ⟨e, rfl⟩
    | ok s =>
      obtain ⟨hsource, hs⟩ := hread t s ht
      exact absurd hsource (h s hs)

end Span

end IndentMarkup
