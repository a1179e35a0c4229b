import IndentMarkup.Proofs.Lexing

/-!
# Groups with their brackets in pairs

The inner text of a group is *balanced* (`Bracket.Balanced`): the brackets of its kind in it come in
pairs, apart from those in quoted parts. A text starts with a group exactly if it starts with an
opening bracket, a balanced text and a closing bracket, so the bracket that closes a group is the
matching one (`Bracket.group_eq_ok_iff`).

The scanner that looks for this bracket does not tell what it skips. `Bracket.trace` is the same
scanner with the offsets of the quoted parts that it skips on its way (`Bracket.map_fst_trace`).
-/

namespace IndentMarkup.Bracket

/-- The offset that `close` finds, in a text at the offset `off`, and the quoted parts skipped on
    the way, each from its opening quote up to and not including the byte after its closing quote.
    The quote that is open has the offset where it was opened. -/
def trace (k : Bracket) (quote : Option (UInt8 × Nat)) (depth : Int) (off : Nat) :
    Bytes → Option (Nat × List (Nat × Nat))
  | [] => none
  | b :: t =>
    match quote with
    | some (q, start) =>
      if b = Byte.backslash then
        match t with
        | [] => none
        | _ :: t => trace k (some (q, start)) depth (off + 2) t
      else if b = q then
        (trace k none depth (off + 1) t).map fun r => (r.1, (start, off + 1) :: r.2)
      else trace k (some (q, start)) depth (off + 1) t
    | none =>
      if Byte.isQuote b then trace k (some (b, off)) depth (off + 1) t
      else if b = k.opening then trace k none (depth + 1) (off + 1) t
      else if b = k.closing then
        if depth = 1 then some (off, []) else trace k none (depth - 1) (off + 1) t
      else trace k none depth (off + 1) t

variable {k : Bracket} {quote : Option (UInt8 × Nat)} {depth : Int} {off start n : Nat}
  {q : UInt8} {s t body inner rest : Bytes} {parts : List (Nat × Nat)}

theorem close_quoted_cons {b : UInt8} (hb : b ≠ Byte.backslash) :
    k.close (some q) depth (b :: t) =
      if b = q then (k.close none depth t).map (· + 1)
      else (k.close (some q) depth t).map (· + 1) := by
  cases t with
  | nil => simp [close, hb]
  | cons c t => rw [close, if_neg hb]

theorem trace_quoted_cons {b : UInt8} (hb : b ≠ Byte.backslash) :
    k.trace (some (q, start)) depth off (b :: t) =
      if b = q then (k.trace none depth (off + 1) t).map fun r => (r.1, (start, off + 1) :: r.2)
      else k.trace (some (q, start)) depth (off + 1) t := by
  cases t with
  | nil => simp [trace, hb]
  | cons c t => rw [trace, if_neg hb]

theorem map_add_map_add (o : Option Nat) (m off : Nat) :
    (o.map (· + m)).map (· + off) = o.map (· + (off + m)) := by
  rw [Option.map_map]
  refine congrArg (o.map ·) (funext fun n => ?_)
  rw [Function.comp_apply, Nat.add_assoc, Nat.add_comm m]

/-- What is recorded does not change where the scanner stops. -/
theorem map_fst_trace (k : Bracket) (quote : Option (UInt8 × Nat)) (depth : Int) (off : Nat)
    (t : Bytes) :
    (k.trace quote depth off t).map Prod.fst =
      (k.close (quote.map Prod.fst) depth t).map (· + off) := by
  fun_induction trace k quote depth off t with
  | case1 => rfl
  | case2 => rfl
  | case3 depth off q start c t ih =>
    rw [ih, Option.map_some, close, if_pos rfl, map_add_map_add]
  | case4 depth off t q start hb ih =>
    rw [Option.map_some, close_quoted_cons hb, if_pos rfl, map_add_map_add, Option.map_map]
    exact ih
  | case5 depth off b t q start hb hq ih =>
    rw [ih, Option.map_some, close_quoted_cons hb, if_neg hq, map_add_map_add]
  | case6 depth off b t hb ih =>
    rw [ih, Option.map_none, close, if_pos hb, map_add_map_add]
    rfl
  | case7 depth off t hq ih =>
    rw [ih, Option.map_none, close, if_neg hq, if_pos rfl, map_add_map_add]
  | case8 off t hq hne =>
    rw [Option.map_none, close, if_neg hq, if_neg hne, if_pos rfl, if_pos rfl]
    simp
  | case9 depth off t hdepth hq hne ih =>
    rw [ih, Option.map_none, close, if_neg hq, if_neg hne, if_pos rfl, if_neg hdepth,
      map_add_map_add]
  | case10 depth off b t hq hne hne' ih =>
    rw [ih, Option.map_none, close, if_neg hq, if_neg hne, if_neg hne', map_add_map_add]

/-! ## Quoted parts -/

/-- A quoted part is skipped as a whole. -/
theorem trace_quoted {p : UInt8 → Prop} (hq : q ≠ Byte.backslash) (h : ClosesQuote p q body)
    (k : Bracket) (depth : Int) (start off : Nat) (rest : Bytes) :
    k.trace (some (q, start)) depth off (body ++ rest) =
      (k.trace none depth (off + body.length) rest).map fun r =>
        (r.1, (start, off + body.length) :: r.2) := by
  induction h generalizing off with
  | close =>
    rw [List.singleton_append, trace_quoted_cons hq, if_pos rfl]
    rfl
  | escape _ _ ih =>
    rw [List.cons_append, List.cons_append, trace, if_pos rfl, ih, Nat.add_right_comm]
    rfl
  | plain hne hb _ ih =>
    rw [List.cons_append, trace_quoted_cons hb, if_neg hne, ih, Nat.add_right_comm]
    rfl

theorem exists_of_trace_quoted (h : k.trace (some (q, start)) depth off t = some (n, parts)) :
    ∃ body rest parts', t = body ++ rest ∧ ClosesQuote (fun _ => True) q body ∧
      k.trace none depth (off + body.length) rest = some (n, parts') ∧
      parts = (start, off + body.length) :: parts' := by
  induction t using List.twoStepInduction generalizing off with
  | nil => cases h
  | singleton b => simp [trace] at h
  | cons_cons b c t iht ihct =>
    by_cases hb : b = Byte.backslash
    · rw [hb, trace, if_pos rfl] at h
      obtain ⟨body, rest, parts', rfl, hbody, hrest, rfl⟩ := iht h
      rw [Nat.add_right_comm] at hrest
      exact ⟨b :: c :: body, rest, parts', rfl, hb ▸ .escape trivial hbody, hrest, by
        simp [Nat.add_comm, Nat.add_left_comm]⟩
    · rw [trace_quoted_cons hb] at h
      split_ifs at h with hq
      · obtain ⟨⟨n', parts'⟩, hrest, he⟩ := Option.map_eq_some_iff.1 h
        cases he
        exact ⟨[b], c :: t, parts', rfl, hq ▸ .close, hrest, rfl⟩
      · obtain ⟨body, rest, parts', hbody, hclose, hrest, rfl⟩ := ihct c h
        rw [Nat.add_right_comm] at hrest
        exact ⟨b :: body, rest, parts', by rw [hbody]; rfl, .plain hq hb hclose, hrest, by
          simp [Nat.add_comm, Nat.add_left_comm]⟩

/-! ## Balanced texts -/

/-- The brackets of a kind come in pairs, apart from those in quoted parts. -/
inductive Balanced (k : Bracket) : Bytes → Prop
  /-- There is nothing. -/
  | nil : Balanced k []
  /-- A byte that is neither a bracket nor a quote. -/
  | plain {b : UInt8} {t : Bytes} (hquote : Byte.isQuote b = false) (hopening : b ≠ k.opening)
      (hclosing : b ≠ k.closing) (ht : Balanced k t) : Balanced k (b :: t)
  /-- A quoted part. -/
  | quoted {q : UInt8} {body t : Bytes} (hquote : Byte.isQuote q)
      (hbody : ClosesQuote (fun _ => True) q body) (ht : Balanced k t) :
      Balanced k (q :: (body ++ t))
  /-- A pair of brackets. -/
  | pair {s t : Bytes} (hs : Balanced k s) (ht : Balanced k t) :
      Balanced k (k.opening :: (s ++ k.closing :: t))

theorem Balanced.append (hs : k.Balanced s) (ht : k.Balanced t) : k.Balanced (s ++ t) := by
  induction hs with
  | nil => exact ht
  | plain hquote hopening hclosing _ ih => exact .plain hquote hopening hclosing ih
  | quoted hquote hbody _ ih =>
    rw [List.cons_append, List.append_assoc]
    exact .quoted hquote hbody ih
  | pair hs _ _ ih =>
    rw [List.cons_append, List.append_assoc, List.cons_append]
    exact .pair hs ih

theorem opening_ne_closing (k : Bracket) : k.opening ≠ k.closing := by
  cases k <;> decide

theorem not_isQuote_opening (k : Bracket) : Byte.isQuote k.opening = false := by
  cases k <;> rfl

theorem not_isQuote_closing (k : Bracket) : Byte.isQuote k.closing = false := by
  cases k <;> rfl

theorem trace_opening :
    k.trace none depth off (k.opening :: t) = k.trace none (depth + 1) (off + 1) t := by
  rw [trace, if_neg (by simp [not_isQuote_opening]), if_pos rfl]

theorem trace_closing :
    k.trace none depth off (k.closing :: t) =
      if depth = 1 then some (off, []) else k.trace none (depth - 1) (off + 1) t := by
  rw [trace, if_neg (by simp [not_isQuote_closing]), if_neg k.opening_ne_closing.symm, if_pos rfl]

theorem trace_plain {b : UInt8} (hquote : Byte.isQuote b = false) (hopening : b ≠ k.opening)
    (hclosing : b ≠ k.closing) :
    k.trace none depth off (b :: t) = k.trace none depth (off + 1) t := by
  rw [trace, if_neg (by simp [hquote]), if_neg hopening, if_neg hclosing]

/-- The bracket that is looked for is not in a balanced text but after it. -/
theorem trace_balanced (h : k.Balanced s) (hdepth : 0 < depth) (off : Nat) (rest : Bytes) :
    (k.trace none depth off (s ++ rest)).map Prod.fst =
      (k.trace none depth (off + s.length) rest).map Prod.fst := by
  induction h generalizing depth off rest with
  | nil => rfl
  | plain hquote hopening hclosing _ ih =>
    rw [List.cons_append, trace_plain hquote hopening hclosing, ih hdepth, Nat.add_right_comm]
    rfl
  | @quoted q body t hquote hbody _ ih =>
    have hlen : off + (q :: (body ++ t)).length = off + 1 + body.length + t.length := by
      simp only [List.length_cons, List.length_append]
      omega
    rw [List.cons_append, List.append_assoc, trace, if_pos hquote,
      trace_quoted (Byte.ne_backslash_of_isQuote hquote) hbody, Option.map_map, hlen]
    exact ih hdepth (off + 1 + body.length) rest
  | @pair s t _ _ ihs iht =>
    have hlen : off + (k.opening :: (s ++ k.closing :: t)).length =
        off + 1 + s.length + 1 + t.length := by
      simp only [List.length_cons, List.length_append]
      omega
    rw [List.cons_append, List.append_assoc, trace_opening, ihs (by omega), List.cons_append,
      trace_closing, if_neg (by omega), Int.add_sub_cancel, iht hdepth, hlen]

/-- Before the bracket that is looked for, there is one after a balanced text that closes the
    innermost of the open ones. -/
theorem exists_balanced_of_trace (hdepth : 0 < depth)
    (h : k.trace none depth off t = some (n, parts)) :
    ∃ s rest parts', t = s ++ k.closing :: rest ∧ k.Balanced s ∧
      k.trace none depth (off + s.length) (k.closing :: rest) = some (n, parts') := by
  -- After an opening bracket there are two texts to look at, one in the brackets and one after
  -- them, so the induction is on the length.
  induction hlen : t.length using Nat.strong_induction_on generalizing t depth off parts with
  | _ len ih =>
    subst hlen
    cases t with
    | nil => cases h
    | cons b t =>
      by_cases hquote : Byte.isQuote b
      · rw [trace, if_pos hquote] at h
        obtain ⟨body, rest, _, rfl, hbody, hrest, -⟩ := exists_of_trace_quoted h
        have hlt : rest.length < (b :: (body ++ rest)).length := by
          simp only [List.length_cons, List.length_append]
          omega
        obtain ⟨s, rest', parts', rfl, hs, hclose⟩ := ih _ hlt hdepth hrest rfl
        refine ⟨b :: (body ++ s), rest', parts', by simp, .quoted hquote hbody hs, ?_⟩
        simpa [Nat.add_assoc, Nat.add_comm, Nat.add_left_comm] using hclose
      rw [Bool.not_eq_true] at hquote
      by_cases hopening : b = k.opening
      · rw [hopening, trace_opening] at h
        obtain ⟨s, rest, _, rfl, hs, hclose⟩ := ih _ (by simp) (by omega) h rfl
        rw [trace_closing, if_neg (by omega), Int.add_sub_cancel] at hclose
        have hlt : rest.length < (b :: (s ++ k.closing :: rest)).length := by
          simp only [List.length_cons, List.length_append]
          omega
        obtain ⟨s', rest', parts', rfl, hs', hclose'⟩ := ih _ hlt hdepth hclose rfl
        refine ⟨b :: (s ++ k.closing :: s'), rest', parts', by simp, hopening ▸ .pair hs hs', ?_⟩
        simpa [Nat.add_assoc, Nat.add_comm, Nat.add_left_comm] using hclose'
      by_cases hclosing : b = k.closing
      · exact ⟨[], t, parts, by rw [hclosing]; rfl, .nil, hclosing ▸ h⟩
      · rw [trace_plain hquote hopening hclosing] at h
        obtain ⟨s, rest, parts', rfl, hs, hclose⟩ := ih _ (by simp) hdepth h rfl
        refine ⟨b :: s, rest, parts', rfl, .plain hquote hopening hclosing hs, ?_⟩
        simpa [Nat.add_assoc, Nat.add_comm, Nat.add_left_comm] using hclose

/-! ## Groups -/

theorem exists_trace_of_close (h : k.close none depth t = some n) (off : Nat) :
    ∃ parts, k.trace none depth off t = some (n + off, parts) := by
  have hfst := k.map_fst_trace none depth off t
  rw [Option.map_none, h, Option.map_some, Option.map_eq_some_iff] at hfst
  obtain ⟨⟨m, parts⟩, hm, hn⟩ := hfst
  exact ⟨parts, by rw [hm, ← hn]⟩

theorem group_balanced (h : k.Balanced inner) (off : Nat) (rest : Bytes) :
    k.group off (k.opening :: (inner ++ k.closing :: rest)) = .ok (inner, rest) := by
  have hfst := k.map_fst_trace none 0 0 (k.opening :: (inner ++ k.closing :: rest))
  rw [trace_opening, trace_balanced h (by decide), trace_closing, if_pos (by decide)] at hfst
  obtain ⟨n, hn, hlen⟩ := Option.map_eq_some_iff.1 hfst.symm
  have hn' : n = inner.length + 1 := by
    simp only at hlen
    omega
  rw [Option.map_none] at hn
  rw [group, hn, hn']
  simp

/-- A text starts with a group exactly if it starts with an opening bracket, a balanced text and a
    closing bracket. -/
theorem group_eq_ok_iff (ht : t.head? = some k.opening) :
    k.group off t = .ok (inner, rest) ↔
      t = k.opening :: (inner ++ k.closing :: rest) ∧ k.Balanced inner := by
  constructor
  · intro h
    obtain ⟨t, rfl⟩ := List.head?_eq_some_iff.1 ht
    obtain ⟨n, hn⟩ : ∃ n, k.close none 0 (k.opening :: t) = some n := by
      rw [group] at h
      split at h
      · exact ⟨_, by assumption⟩
      · cases h
    obtain ⟨parts, htrace⟩ := exists_trace_of_close hn 0
    rw [trace_opening] at htrace
    obtain ⟨s, rest', -, rfl, hs, -⟩ := exists_balanced_of_trace (by decide) htrace
    rw [group_balanced hs] at h
    cases h
    exact ⟨rfl, hs⟩
  · rintro ⟨rfl, h⟩
    exact group_balanced h off rest

end IndentMarkup.Bracket
