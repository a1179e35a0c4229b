import IndentMarkup.Bytes.Basic

/-!
# Tokens of attribute groups

The text of a group is cut into quoted literals, equals signs, words and white
space (`Token.next?`). The first byte of a token decides which of these it is, and
it is as long as it can be. Only a quoted literal can fail, if its closing quote is
missing; then the text is cut no further (`Token.scan`).

A literal keeps its quotes and backslashes. What it denotes is `unquote`.
-/

namespace IndentMarkup

/-! ## Quoted literals -/

/-- Takes the backslash off before quotes and backslashes, and leaves others. -/
def unescape : Bytes → Bytes
  | [] => []
  | [b] => [b]
  | b :: c :: t =>
    if b = Byte.backslash ∧ (Byte.isQuote c ∨ c = Byte.backslash) then c :: unescape t
    else b :: unescape (c :: t)

/-- The text that a quoted literal denotes. Any other text denotes itself. -/
def unquote (t : Bytes) : Bytes :=
  match t with
  | [] => []
  | q :: body =>
    if Byte.isQuote q ∧ body.getLast? = some q then unescape body.dropLast else t

/-- The rest of a literal up to its closing quote `q`, and the text after it. A
    backslash takes the next byte with it, which cannot be a line feed. -/
def closeQuote? (q : UInt8) : Bytes → Option (Bytes × Bytes)
  | [] => none
  | [b] => if b = q then some ([b], []) else none
  | b :: c :: t =>
    if b = q then some ([b], c :: t)
    else if b = Byte.backslash then
      if c = Byte.lf then none
      else (closeQuote? q t).map fun r => (b :: c :: r.1, r.2)
    else (closeQuote? q (c :: t)).map fun r => (b :: r.1, r.2)

theorem eq_of_closeQuote? {q : UInt8} {t body rest : Bytes}
    (h : closeQuote? q t = some (body, rest)) : t = body ++ rest := by
  induction t using closeQuote?.induct q generalizing body with
  | case1 => simp [closeQuote?] at h
  | case2 => simp_all [closeQuote?]
  | case3 b hb => simp [closeQuote?, hb] at h
  | case4 c t =>
    simp only [closeQuote?, if_true, Option.some.injEq, Prod.mk.injEq] at h
    simp [← h.1, ← h.2]
  | case5 => simp_all [closeQuote?]
  | case6 c t hq hc ih =>
    simp only [closeQuote?, hq, if_false, if_true, hc, Option.map_eq_some_iff] at h
    obtain ⟨⟨body', rest'⟩, hr, he⟩ := h
    cases he
    rw [List.cons_append, List.cons_append, ← ih hr]
  | case7 b c t hq hb ih =>
    simp only [closeQuote?, hq, if_false, hb, Option.map_eq_some_iff] at h
    obtain ⟨⟨body', rest'⟩, hr, he⟩ := h
    cases he
    rw [List.cons_append, ← ih hr]

/-! ## Tokens -/

/-- The white space between tokens. -/
def isGapByte (b : UInt8) : Bool :=
  b == Byte.space || b == Byte.tab || b == Byte.lf || b == Byte.ff || b == Byte.cr

/-- The bytes of words: all but white space, equals signs and quotes. -/
def isWordByte (b : UInt8) : Bool := !isGapByte b && b != Byte.eq && !Byte.isQuote b

/-- A token of an attribute group. -/
inductive Token where
  /-- A quoted literal, with its quotes. -/
  | literal (text : Bytes)
  /-- An equals sign. -/
  | assign
  /-- A bare key or value. -/
  | word (text : Bytes)
  /-- White space. -/
  | gap (text : Bytes)
  deriving DecidableEq

namespace Token

/-- The token as it is in the source. -/
def text : Token → Bytes
  | literal t | word t | gap t => t
  | assign => "="

/-- Whether a token is white space. -/
def isGap : Token → Bool
  | gap _ => true
  | _ => false

/-- The first token of a text, and the text after it. -/
def next? : Bytes → Option (Token × Bytes)
  | [] => none
  | b :: t =>
    if Byte.isQuote b then
      (closeQuote? b t).map fun r => (literal (b :: r.1), r.2)
    else if b = Byte.eq then some (assign, t)
    else if isGapByte b then
      some (gap (b :: t.takeWhile isGapByte), t.dropWhile isGapByte)
    else some (word (b :: t.takeWhile isWordByte), t.dropWhile isWordByte)

/-- No byte is lost in cutting off a token. -/
theorem text_append_of_next? {t rest : Bytes} {k : Token} (h : next? t = some (k, rest)) :
    k.text ++ rest = t := by
  cases t with
  | nil => simp [next?] at h
  | cons b t =>
    simp only [next?] at h
    split at h
    · obtain ⟨⟨body, rest'⟩, hr, he⟩ := Option.map_eq_some_iff.1 h
      cases he
      rw [text, List.cons_append, ← eq_of_closeQuote? hr]
    · split at h
      · rename_i hb
        cases h
        rw [hb]
        rfl
      · split at h <;> cases h <;> simp [text]

/-- A token is never empty. -/
theorem length_of_next? {t rest : Bytes} {k : Token} (h : next? t = some (k, rest)) :
    rest.length < t.length := by
  have hlen := congrArg List.length (text_append_of_next? h)
  have hpos : 0 < k.text.length := by
    cases t with
    | nil => simp [next?] at h
    | cons b t =>
      simp only [next?] at h
      split at h
      · obtain ⟨_, _, he⟩ := Option.map_eq_some_iff.1 h
        cases he
        simp [text]
      · split at h
        · cases h
          decide
        · split at h <;> cases h <;> simp [text]
  rw [List.length_append] at hlen
  omega

/-- The tokens of a text, and the text after them, which is empty unless it starts
    with a literal that is not closed. -/
def scan (t : Bytes) : List Token × Bytes :=
  match h : next? t with
  | none => ([], t)
  | some (k, rest) =>
    have := length_of_next? h
    let r := scan rest
    (k :: r.1, r.2)
termination_by t.length

/-- The tokens with their offsets, where the first one has the offset `off`. -/
def locate (off : Nat) : List Token → List (Nat × Token)
  | [] => []
  | k :: ks => (off, k) :: locate (off + k.text.length) ks

end Token

end IndentMarkup
